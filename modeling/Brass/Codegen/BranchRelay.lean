import Mathlib.Data.Fintype.Basic
import Mathlib.Algebra.Order.Group.Abs
import Mathlib.Tactic.Ring

/-!
# Branch relays

A branch too far from its target for the two-byte form jumps onto another branch to the
same target, when that branch is near and is sure to be taken. The plan is greedy: a branch
takes an existing hub when one reaches, else it makes the nearest branch it can reach one.

A branch is named by its ordinal. The sites of one target are planned together, and the
order of the targets is that of a hash map, so it is a parameter here.
-/

namespace Brass.Codegen.BranchRelay

/-- The conditions of a jump; `none` is the unconditional jump. -/
inductive Condition
  | o | no | b | ae | e | ne | be | a | s | ns | p | np | l | ge | le | g | none
  deriving DecidableEq

structure Flags where
  zf : Bool
  cf : Bool
  sf : Bool
  of : Bool
  pf : Bool

/-- The flags a condition is satisfied by. -/
def Condition.holds (f : Flags) : Condition → Bool
  | .o => f.of
  | .no => !f.of
  | .b => f.cf
  | .ae => !f.cf
  | .e => f.zf
  | .ne => !f.zf
  | .be => f.cf || f.zf
  | .a => !f.cf && !f.zf
  | .s => f.sf
  | .ns => !f.sf
  | .p => f.pf
  | .np => !f.pf
  | .l => f.sf != f.of
  | .ge => f.sf == f.of
  | .le => f.zf || f.sf != f.of
  | .g => !f.zf && f.sf == f.of
  | .none => true

def conditionImplies (taken thenCond : Condition) : Bool :=
  if thenCond = .none then true
  else if taken = .none then false
  else if taken = thenCond then true
  else
    match taken with
    | .e => thenCond == .be || thenCond == .le
    | .b => thenCond == .be
    | .a => thenCond == .ae || thenCond == .ne
    | .l => thenCond == .le
    | .g => thenCond == .ge || thenCond == .ne
    | _ => false

/-- The table is right over every state of the flags. -/
theorem holds_of_conditionImplies {taken thenCond : Condition} {f : Flags}
    (h : conditionImplies taken thenCond = true) (ht : taken.holds f = true) :
    thenCond.holds f = true := by
  by_cases hnone : thenCond = .none
  · rw [hnone]
    rfl
  by_cases heq : taken = thenCond
  · rwa [← heq]
  cases taken <;> simp [conditionImplies, hnone, heq] at h
  case e => rcases h with rfl | rfl <;> simp_all [Condition.holds]
  case b => subst h; simp_all [Condition.holds]
  case a => rcases h with rfl | rfl <;> simp_all [Condition.holds]
  case l => subst h; simp_all [Condition.holds]
  case g => rcases h with rfl | rfl <;> simp_all [Condition.holds]

/-- One block-to-block branch of an emission. `start_lt`: a code buffer is shorter than
`2 ^ 63` bytes, so offsets and their differences fit the signed words they are computed in. -/
structure BranchSite where
  cond : Condition := .none
  target : UInt32 := 0
  start : Nat := 0
  isLong : Bool := false
  start_lt : start + 2 < 2 ^ 63 := by decide

section Plan

variable (sites : List BranchSite) (reach : Int)

abbrev Ordinal := Fin sites.length

/-- `relay` and `hub` while the plan is made. -/
structure RelayPlan where
  relay : Ordinal sites → Option (Ordinal sites) := fun _ => none
  hub : Ordinal sites → Bool := fun _ => false

structure BestHub where
  best : Ordinal sites
  bestHub : Bool
  bestDist : Int

/-- From the end of the short form of `b` to the start of `h`. -/
def displacement (b h : Ordinal sites) : Int :=
  (sites.get h).start - ((sites.get b).start + 2 : Int)

def distance (b h : Ordinal sites) : Int :=
  if displacement sites b h < 0 then -displacement sites b h else displacement sites b h

variable {sites}

def considerHub (plan : RelayPlan sites) (b : Ordinal sites) (found : Option (BestHub sites))
    (h : Ordinal sites) : Option (BestHub sites) :=
  if h = b ∨ plan.relay h ≠ none then found
  else if displacement sites b h < -reach ∨ displacement sites b h > reach then found
  else if !conditionImplies (sites.get b).cond (sites.get h).cond then found
  else
    let isHub := plan.hub h
    match found with
    | none => some ⟨h, isHub, distance sites b h⟩
    | some x =>
      if (isHub && !x.bestHub) ∨ (isHub = x.bestHub ∧ distance sites b h < x.bestDist) then
        some ⟨h, isHub, distance sites b h⟩
      else found

def chooseHub (group : List (Ordinal sites)) (plan : RelayPlan sites) (b : Ordinal sites) :
    Option (BestHub sites) :=
  group.foldl (considerHub reach plan b) none

/-- One branch of a group. -/
def relayBranch (group : List (Ordinal sites)) (plan : RelayPlan sites) (b : Ordinal sites) :
    RelayPlan sites :=
  if !(sites.get b).isLong || plan.hub b then plan
  else
    match chooseHub reach group plan b with
    | none => plan
    | some x =>
      { relay := Function.update plan.relay b (some x.best)
        hub := Function.update plan.hub x.best true }

variable (sites) in
/-- `by_target[target]` -/
def groupOf (target : UInt32) : List (Ordinal sites) :=
  (List.finRange sites.length).filter (fun i => (sites.get i).target = target)

def planGroup (plan : RelayPlan sites) (group : List (Ordinal sites)) : RelayPlan sites :=
  if group.length < 2 then plan else group.foldl (relayBranch reach group) plan

variable (sites) in
/-- `plan_branch_relays`; `order` lists the targets as the walk of `by_target` meets them. -/
def planBranchRelays (order : List UInt32) : RelayPlan sites :=
  order.foldl (fun plan target => planGroup reach plan (groupOf sites target)) {}

end Plan

theorem displacement_fits (sites : List BranchSite) (b h : Ordinal sites) :
    -2 ^ 63 < displacement sites b h ∧ displacement sites b h < 2 ^ 63 := by
  have hb := (sites.get b).start_lt
  have hh := (sites.get h).start_lt
  unfold displacement
  omega

/-! ## The invariant of the plan -/

section Sound

variable {sites : List BranchSite} {reach : Int}
variable {plan : RelayPlan sites} {b : Ordinal sites}

/-- What the two conditions before a candidate say of it. -/
structure Candidate (reach : Int) (plan : RelayPlan sites) (b h : Ordinal sites) : Prop where
  ne : h ≠ b
  relay : plan.relay h = none
  near : |displacement sites b h| ≤ reach
  implies : conditionImplies (sites.get b).cond (sites.get h).cond = true

theorem considerHub_candidate {h : Ordinal sites} {found : Option (BestHub sites)}
    {x : BestHub sites} (hx : considerHub reach plan b found h = some x) :
    found = some x ∨ x.best = h ∧ Candidate reach plan b h := by
  unfold considerHub at hx
  dsimp only at hx
  by_cases hskip : h = b ∨ plan.relay h ≠ none
  · rw [if_pos hskip] at hx
    exact .inl hx
  rw [if_neg hskip] at hx
  by_cases hfar : displacement sites b h < -reach ∨ displacement sites b h > reach
  · rw [if_pos hfar] at hx
    exact .inl hx
  rw [if_neg hfar] at hx
  by_cases hc : (!conditionImplies (sites.get b).cond (sites.get h).cond) = true
  · rw [if_pos hc] at hx
    exact .inl hx
  rw [if_neg hc] at hx
  rw [not_or, not_ne_iff] at hskip
  rw [not_or, not_lt, gt_iff_lt, not_lt] at hfar
  have hcand : Candidate reach plan b h :=
    ⟨hskip.1, hskip.2, abs_le.2 hfar, by simpa using hc⟩
  cases found with
  | none =>
    rw [← Option.some.inj hx]
    exact .inr ⟨rfl, hcand⟩
  | some y =>
    dsimp only at hx
    split at hx
    · rw [← Option.some.inj hx]
      exact .inr ⟨rfl, hcand⟩
    · exact .inl hx

theorem chooseHub_candidate {group : List (Ordinal sites)} {x : BestHub sites}
    (hx : chooseHub reach group plan b = some x) :
    x.best ∈ group ∧ Candidate reach plan b x.best := by
  suffices h : ∀ (l : List (Ordinal sites)) (found : Option (BestHub sites)),
      l.foldl (considerHub reach plan b) found = some x →
        found = some x ∨ x.best ∈ l ∧ Candidate reach plan b x.best by
    rcases h group none hx with h | h
    · exact absurd h (by simp)
    · exact h
  intro l
  induction l with
  | nil => exact fun _ h => .inl h
  | cons h l ih =>
    intro found hfold
    rw [List.foldl_cons] at hfold
    rcases ih _ hfold with hstep | ⟨hmem, hcand⟩
    · rcases considerHub_candidate hstep with hfound | ⟨hbest, hcand⟩
      · exact .inl hfound
      · rw [hbest]
        exact .inr ⟨List.mem_cons_self, hcand⟩
    · exact .inr ⟨List.mem_cons_of_mem _ hmem, hcand⟩

/-- Relays go from long branches to hubs, and a hub does not relay. -/
structure OneHop (reach : Int) (plan : RelayPlan sites) : Prop where
  long : ∀ {b h}, plan.relay b = some h → (sites.get b).isLong = true
  ne : ∀ {b h}, plan.relay b = some h → h ≠ b
  target : ∀ {b h}, plan.relay b = some h → (sites.get h).target = (sites.get b).target
  near : ∀ {b h}, plan.relay b = some h → |displacement sites b h| ≤ reach
  implies : ∀ {b h}, plan.relay b = some h →
    conditionImplies (sites.get b).cond (sites.get h).cond = true
  hub : ∀ {b h}, plan.relay b = some h → plan.hub h = true
  stays : ∀ {h}, plan.hub h = true → plan.relay h = none

theorem OneHop.start : OneHop reach ({} : RelayPlan sites) where
  long := nofun
  ne := nofun
  target := nofun
  near := nofun
  implies := nofun
  hub := nofun
  stays _ := rfl

/-- The relay of a branch that is no hub to a candidate that does not relay. -/
theorem OneHop.update (hp : OneHop reach plan) {x : Ordinal sites}
    (hlong : (sites.get b).isLong = true) (hhub : plan.hub b = false)
    (htarget : (sites.get x).target = (sites.get b).target) (hx : Candidate reach plan b x) :
    OneHop reach
      { relay := Function.update plan.relay b (some x), hub := Function.update plan.hub x true } := by
  -- an entry of the new table is the new one or an old one
  have hcases : ∀ {c h}, Function.update plan.relay b (some x) c = some h →
      c = b ∧ h = x ∨ c ≠ b ∧ plan.relay c = some h := by
    intro c h hc
    by_cases hcb : c = b
    · rw [hcb, Function.update_self] at hc
      exact .inl ⟨hcb, (Option.some.inj hc).symm⟩
    · rw [Function.update_of_ne hcb] at hc
      exact .inr ⟨hcb, hc⟩
  refine ⟨?_, ?_, ?_, ?_, ?_, ?_, ?_⟩
  · intro c h hc
    obtain ⟨rfl, rfl⟩ | ⟨-, hc⟩ := hcases hc
    exacts [hlong, hp.long hc]
  · intro c h hc
    obtain ⟨rfl, rfl⟩ | ⟨-, hc⟩ := hcases hc
    exacts [hx.ne, hp.ne hc]
  · intro c h hc
    obtain ⟨rfl, rfl⟩ | ⟨-, hc⟩ := hcases hc
    exacts [htarget, hp.target hc]
  · intro c h hc
    obtain ⟨rfl, rfl⟩ | ⟨-, hc⟩ := hcases hc
    exacts [hx.near, hp.near hc]
  · intro c h hc
    obtain ⟨rfl, rfl⟩ | ⟨-, hc⟩ := hcases hc
    exacts [hx.implies, hp.implies hc]
  · intro c h hc
    obtain ⟨rfl, rfl⟩ | ⟨-, hc⟩ := hcases hc
    · exact Function.update_self ..
    · by_cases hhx : h = x
      · rw [hhx]
        exact Function.update_self ..
      · exact (Function.update_of_ne hhx ..).trans (hp.hub hc)
  · intro h hh
    dsimp only at hh ⊢
    -- the branch that relays now was no hub and is not the new hub
    have hb : h ≠ b := by
      rintro rfl
      rw [Function.update_of_ne hx.ne.symm, hhub] at hh
      exact absurd hh (by simp)
    rw [Function.update_of_ne hb]
    by_cases hhx : h = x
    · rw [hhx]
      exact hx.relay
    · rw [Function.update_of_ne hhx] at hh
      exact hp.stays hh

theorem OneHop.relayBranch (hp : OneHop reach plan) {target : UInt32}
    (hb : b ∈ groupOf sites target) :
    OneHop reach (relayBranch reach (groupOf sites target) plan b) := by
  unfold BranchRelay.relayBranch
  by_cases hskip : (!(sites.get b).isLong || plan.hub b) = true
  · rwa [if_pos hskip]
  rw [if_neg hskip]
  cases hx : chooseHub reach (groupOf sites target) plan b with
  | none => exact hp
  | some x =>
    obtain ⟨hmem, hcand⟩ := chooseHub_candidate hx
    have htarget : (sites.get x.best).target = (sites.get b).target := by
      have h₁ := (List.mem_filter.1 hmem).2
      have h₂ := (List.mem_filter.1 hb).2
      rw [of_decide_eq_true h₁, of_decide_eq_true h₂]
    simp only [Bool.or_eq_true, Bool.not_eq_eq_eq_not, Bool.not_true, not_or,
      Bool.not_eq_false, Bool.not_eq_true] at hskip
    exact hp.update hskip.1 hskip.2 htarget hcand

theorem OneHop.planGroup (hp : OneHop reach plan) (target : UInt32) :
    OneHop reach (planGroup reach plan (groupOf sites target)) := by
  unfold BranchRelay.planGroup
  split
  · exact hp
  · refine List.foldlRecOn _ _ hp ?_
    intro plan hp b hb
    exact hp.relayBranch hb

variable (sites reach) in
theorem oneHop_planBranchRelays (order : List UInt32) :
    OneHop reach (planBranchRelays sites reach order) := by
  refine List.foldlRecOn _ _ OneHop.start ?_
  intro plan hp target _
  exact hp.planGroup target

end Sound

/-! ## Running the emitted branches -/

section Run

variable {sites : List BranchSite}

/-- Where control stands: at the first byte of a branch, in a block, or behind a branch that
was not taken. -/
inductive Place (sites : List BranchSite)
  | site (i : Ordinal sites)
  | block (target : UInt32)
  | past (i : Ordinal sites)

/-- One branch as `emit_jump` lays it out. `emitted i` is the hub whose label the branch goes
to, if it goes to one and not to its block. -/
def runBranch (emitted : Ordinal sites → Option (Ordinal sites)) (f : Flags)
    (i : Ordinal sites) : Place sites :=
  if (sites.get i).cond.holds f then
    match emitted i with
    | some h => .site h
    | none => .block (sites.get i).target
  else .past i

/-- A relay is one hop to a branch that is sure to be taken. The emission may drop relays of
the plan (an overflow, a target in reach after all), and the others still arrive. -/
theorem planBranchRelays_relay (sites : List BranchSite) (reach : Int) (order : List UInt32)
    (b h : Ordinal sites) (hr : (planBranchRelays sites reach order).relay b = some h) :
    (sites.get b).isLong = true ∧ h ≠ b ∧ (sites.get h).target = (sites.get b).target ∧
      (planBranchRelays sites reach order).relay h = none ∧
      |displacement sites b h| ≤ reach ∧
      (∀ f : Flags, (sites.get b).cond.holds f = true → (sites.get h).cond.holds f = true) ∧
      ∀ emitted : Ordinal sites → Option (Ordinal sites),
        (∀ i, emitted i = none ∨ emitted i = (planBranchRelays sites reach order).relay i) →
        ∀ f : Flags, (sites.get b).cond.holds f = true →
          runBranch emitted f h = .block (sites.get b).target := by
  have hp := oneHop_planBranchRelays sites reach order
  have hstays := hp.stays (hp.hub hr)
  have himplies : ∀ f : Flags, (sites.get b).cond.holds f = true →
      (sites.get h).cond.holds f = true :=
    fun _ => holds_of_conditionImplies (hp.implies hr)
  refine ⟨hp.long hr, hp.ne hr, hp.target hr, hstays, hp.near hr, himplies, ?_⟩
  intro emitted hemitted f hf
  have hnone : emitted h = none := by
    rcases hemitted h with hn | hn
    · exact hn
    · exact hn.trans hstays
  unfold runBranch
  rw [if_pos (himplies f hf), hnone, hp.target hr]

/-- The guards of one site: a `jne` and a `ja` to the same cold block, both far from it, the
`ja` before the `jne`. -/
def guardSites : List BranchSite :=
  [{ cond := .a, target := 5, start := 0, isLong := true },
    { cond := .ne, target := 5, start := 40, isLong := true }]

theorem planBranchRelays_relay_guards :
    (planBranchRelays guardSites 104 [5]).relay ⟨0, by decide⟩ = some ⟨1, by decide⟩ ∧
      ∀ f : Flags, Condition.a.holds f = true →
        runBranch (planBranchRelays guardSites 104 [5]).relay f ⟨1, by decide⟩ = .block 5 := by
  have hr : (planBranchRelays guardSites 104 [5]).relay ⟨0, by decide⟩ = some ⟨1, by decide⟩ := by
    decide
  obtain ⟨-, -, -, -, -, -, hrun⟩ := planBranchRelays_relay guardSites 104 [5] _ _ hr
  exact ⟨hr, hrun _ fun _ => .inr rfl⟩

end Run

end Brass.Codegen.BranchRelay
