import Brass.Mir.FlowGraph

/-!
# Loads that are taken for preserved

`is_load_preserved` of `mir/bounds_check_elim.cpp`: whether nothing between a dominating load
and the current one can write what they read. Writers other than calls are looked for in the
whole function; calls only in the blocks that dominate the current load and on the main path
of the loops around it. A call anywhere else, such as in one arm of a branch between the
loads, is missed (`isLoadPreserved_arm`).

What an instruction may write is not modelled here: `canClobber w r` is the answer of the
alias analysis for an instruction `w` and a load `r`.
-/

namespace Brass.Mir

open Brass.Util List

/-- A place in the code of a function. -/
structure Pos where
  block : Nat
  index : Nat
  deriving DecidableEq, Repr

structure LoopInfo where
  blocks : List Nat
  latches : List Nat
  deriving DecidableEq, Repr

/-- A function with what the pass knows about it: the instructions of every block, the
successors of the blocks, and the loops. -/
structure LoadFunction (ι : Type) where
  graph : FlowGraph
  code : List (List ι)
  loops : List LoopInfo

section Scan

variable {ι : Type} (isCall : ι → Bool) (canClobber : ι → ι → Bool)

namespace LoadFunction

def instructions (f : LoadFunction ι) (bb : Nat) : List ι := f.code.getD bb []

def instAt (f : LoadFunction ι) (p : Pos) : Option ι := (f.instructions p.block)[p.index]?

def dominates (f : LoadFunction ι) (a b : Nat) : Bool := f.graph.dominates a b

/-- Whether a call among the instructions, the first of which is at `k`, can clobber `r`;
`after` says that `dom` has been passed. -/
def scanCalls (dom cur : Pos) (r : ι) (bb : Nat) : List ι → Nat → Bool → Bool
  | [], _, _ => false
  | i :: rest, k, after =>
    if ⟨bb, k⟩ = dom then scanCalls dom cur r bb rest (k + 1) true
    else if ⟨bb, k⟩ = cur then false
    else (after && isCall i && canClobber i r) || scanCalls dom cur r bb rest (k + 1) after

def writerAnywhere (f : LoadFunction ι) (r : ι) : Bool :=
  f.code.any fun insts => insts.any fun i => !isCall i && canClobber i r

def callBetween (f : LoadFunction ι) (dom cur : Pos) (r : ι) : Bool :=
  (List.range f.code.length).any fun bb =>
    f.dominates dom.block bb && f.dominates bb cur.block &&
      scanCalls isCall canClobber dom cur r bb (f.instructions bb) 0 (bb != dom.block)

/-- A loop block that dominates a latch runs in every iteration. -/
def callInLoop (f : LoadFunction ι) (cur : Pos) (r : ι) : Bool :=
  f.loops.any fun loop =>
    loop.blocks.contains cur.block && loop.blocks.any fun lbb =>
      (loop.latches.any fun latch => f.dominates lbb latch) &&
        (f.instructions lbb).any fun i => isCall i && canClobber i r

def isLoadPreserved (f : LoadFunction ι) (dom cur : Pos) : Bool :=
  match f.instAt cur with
  | none => false
  | some r =>
    !writerAnywhere isCall canClobber f r && !callBetween isCall canClobber f dom cur r &&
      !callInLoop isCall canClobber f cur r

end LoadFunction

end Scan

/-! ## Execution -/

namespace LoadFunction

variable {ι : Type} {f : LoadFunction ι} {dom cur p q : Pos}

/-- One instruction after another, and from the end of a block to the start of a
successor. -/
def Step (f : LoadFunction ι) (p q : Pos) : Prop :=
  (q = ⟨p.block, p.index + 1⟩ ∧ p.index + 1 < (f.instructions p.block).length) ∨
    (p.index + 1 = (f.instructions p.block).length ∧ q.block ∈ f.graph.next p.block ∧ q.index = 0)

/-- A step that does not run `dom` again. -/
def Onward (f : LoadFunction ι) (dom p q : Pos) : Prop := f.Step p q ∧ q ≠ dom

/-- The instruction at `p` runs between `dom` and a later `cur`. -/
def Between (f : LoadFunction ι) (dom cur p : Pos) : Prop :=
  Relation.TransGen (f.Onward dom) dom p ∧ Relation.TransGen (f.Onward dom) p cur

/-- No instruction that may change what is loaded runs between the loads. -/
def Preserved (f : LoadFunction ι) (mayChange : ι → ι → Prop) (dom cur : Pos) : Prop :=
  ∀ p i r, f.Between dom cur p → f.instAt p = some i → f.instAt cur = some r → ¬ mayChange i r

/-- Where the pass does not look for calls: in a block that does not dominate the current
load's, or behind the current load in its own, outside of the main paths of the loops around
the current load. -/
def Unchecked (f : LoadFunction ι) (cur p : Pos) : Prop :=
  (f.dominates p.block cur.block = false ∨ (p.block = cur.block ∧ cur.index < p.index)) ∧
    ∀ loop ∈ f.loops, cur.block ∈ loop.blocks → p.block ∈ loop.blocks →
      ∀ latch ∈ loop.latches, f.dominates p.block latch = false

/-- The dominating load comes before the current one on every path. -/
structure Dominating (f : LoadFunction ι) (dom cur : Pos) : Prop where
  dominates : f.dominates dom.block cur.block = true
  before : dom.block = cur.block → dom.index < cur.index
  valid : dom.index < (f.instructions dom.block).length

/-! ## Paths between the loads -/

/-- Above the dominating load in its own block, the next thing that runs beyond it is the
load itself. -/
theorem trapped (hvalid : dom.index < (f.instructions dom.block).length)
    (h : Relation.ReflTransGen (f.Onward dom) p q) (hb : p.block = dom.block)
    (hi : p.index < dom.index) : q.block = dom.block ∧ q.index < dom.index := by
  induction h with
  | refl => exact ⟨hb, hi⟩
  | @tail u v _ hstep ih =>
    obtain ⟨hub, hui⟩ := ih
    obtain ⟨⟨rfl, -⟩ | ⟨hend, -⟩, hne⟩ := hstep
    · refine ⟨hub, ?_⟩
      have hne' : u.index + 1 ≠ dom.index := by
        intro heq
        apply hne
        rw [hub, heq]
      show u.index + 1 < dom.index
      omega
    · rw [hub] at hend
      omega

theorem Dominating.not_above (hd : f.Dominating dom cur)
    (h : Relation.ReflTransGen (f.Onward dom) p cur) (hb : p.block = dom.block) :
    dom.index ≤ p.index := by
  by_contra hlt
  obtain ⟨hcur, hi⟩ := trapped hd.valid h hb (by omega)
  have := hd.before hcur.symm
  omega

/-- A path to the current load that starts outside of the block of the dominating load stays
outside. -/
theorem Dominating.avoids (hd : f.Dominating dom cur)
    (h : Relation.ReflTransGen (f.Onward dom) p cur) (hp : p.block ≠ dom.block) :
    f.graph.Avoids dom.block p.block cur.block := by
  induction h using Relation.ReflTransGen.head_induction_on with
  | refl => exact .refl
  | @head u v hstep hrest ih =>
    by_cases hv : v.block = dom.block
    · have hle := hd.not_above hrest hv
      obtain ⟨⟨rfl, -⟩ | ⟨-, -, hzero⟩, hne⟩ := hstep
      · exact absurd hv hp
      · exfalso
        apply hne
        have hidx : v.index = dom.index := by omega
        cases v
        cases dom
        simp_all
    · have hlast := ih hv
      obtain ⟨⟨rfl, -⟩ | ⟨-, hsucc, -⟩, -⟩ := hstep
      · exact hlast
      · exact Relation.ReflTransGen.head (FlowGraph.mem_nextAvoiding.mpr ⟨hsucc, hv⟩) hlast

theorem reaches_of_onward (h : Relation.ReflTransGen (f.Onward dom) p q) :
    Search.Reaches f.graph.next p.block q.block := by
  induction h with
  | refl => exact .refl
  | tail _ hstep ih =>
    obtain ⟨⟨rfl, -⟩ | ⟨-, hsucc, -⟩, -⟩ := hstep
    · exact ih
    · exact ih.tail hsucc

theorem Between.ne (h : f.Between dom cur p) : p ≠ dom := by
  cases h.1 with
  | single hstep => exact hstep.2
  | tail _ hstep => exact hstep.2

theorem Dominating.dominates_between (hd : f.Dominating dom cur) (h : f.Between dom cur p) :
    f.dominates dom.block p.block = true ∧ (p.block = dom.block → dom.index < p.index) := by
  have hto := h.2.to_reflTransGen
  constructor
  · by_cases hp : p.block = dom.block
    · exact FlowGraph.dominates_iff.mpr (.inl hp.symm)
    · have havoid := hd.avoids hto hp
      have hne : dom.block ≠ cur.block := (havoid.ne hp).symm
      have hreach := (FlowGraph.reaches_of_dominates hd.dominates hne).trans
        (reaches_of_onward h.1.to_reflTransGen)
      exact FlowGraph.dominates_of_avoids hd.dominates hne hreach havoid
  · intro hp
    have hle := hd.not_above hto hp
    refine Nat.lt_of_le_of_ne hle ?_
    intro heq
    apply h.ne
    cases p
    cases dom
    simp_all

/-! ## What the scans find -/

section Found

variable {isCall : ι → Bool} {canClobber : ι → ι → Bool} {r i : ι} {bb n : Nat}

theorem scanCalls_of_call {insts : List ι} {k : Nat} {after : Bool}
    (hafter : after = true ∨ dom.block = bb ∧ k ≤ dom.index) (hi : insts[n]? = some i)
    (hdom : dom.block = bb → dom.index < k + n) (hcur : cur.block = bb → k + n < cur.index)
    (hcall : isCall i = true) (hclobber : canClobber i r = true) :
    scanCalls isCall canClobber dom cur r bb insts k after = true := by
  induction insts generalizing k n after with
  | nil => simp at hi
  | cons x rest ih =>
    rw [scanCalls]
    split
    · rename_i hat
      have hblock : dom.block = bb := by rw [← hat]
      have hindex : dom.index = k := by rw [← hat]
      have hlt := hdom hblock
      obtain ⟨m, rfl⟩ : ∃ m, n = m + 1 := ⟨n - 1, by omega⟩
      rw [getElem?_cons_succ] at hi
      exact ih (.inl rfl) hi (fun h => by have := hdom h; omega) (fun h => by have := hcur h; omega)
    · rename_i hnot
      split
      · rename_i hat
        have hblock : cur.block = bb := by rw [← hat]
        have hindex : cur.index = k := by rw [← hat]
        have := hcur hblock
        omega
      · rw [Bool.or_eq_true]
        cases n with
        | zero =>
          left
          rw [getElem?_cons_zero, Option.some_inj] at hi
          subst hi
          have htrue : after = true := by
            rcases hafter with h | ⟨h, hle⟩
            · exact h
            · have := hdom h
              omega
          rw [htrue, hcall, hclobber]
          rfl
        | succ m =>
          right
          rw [getElem?_cons_succ] at hi
          refine ih ?_ hi (fun h => by have := hdom h; omega) (fun h => by have := hcur h; omega)
          rcases hafter with h | ⟨h, hle⟩
          · exact .inl h
          · refine .inr ⟨h, ?_⟩
            have hne : k ≠ dom.index := by
              rintro rfl
              exact hnot (by rw [← h])
            omega

theorem lt_length_of_instAt (hi : f.instAt p = some i) : p.block < f.code.length := by
  by_contra hge
  have hnone : f.code[p.block]? = none := getElem?_eq_none (by omega)
  rw [instAt, instructions, getD_eq_getElem?_getD, hnone] at hi
  simp at hi

theorem instructions_mem (hi : f.instAt p = some i) :
    f.instructions p.block ∈ f.code ∧ i ∈ f.instructions p.block := by
  refine ⟨?_, mem_of_getElem? hi⟩
  have hlt := lt_length_of_instAt hi
  rw [instructions, getD_eq_getElem?_getD, getElem?_eq_getElem hlt]
  exact getElem_mem hlt

/-- When a load is taken for preserved, what can clobber it between the loads is a call that
the pass did not look at. -/
theorem unchecked_of_clobber (hd : f.Dominating dom cur)
    (htrue : isLoadPreserved isCall canClobber f dom cur = true) (hr : f.instAt cur = some r)
    (hcurCall : isCall r = false) (hp : f.Between dom cur p) (hi : f.instAt p = some i)
    (hclobber : canClobber i r = true) : isCall i = true ∧ f.Unchecked cur p := by
  rw [isLoadPreserved, hr] at htrue
  simp only [Bool.and_eq_true, Bool.not_eq_true'] at htrue
  obtain ⟨⟨hwriter, hbetween⟩, hloop⟩ := htrue
  obtain ⟨hmem, hin⟩ := instructions_mem hi
  have hcall : isCall i = true := by
    by_contra hnot
    rw [Bool.not_eq_true] at hnot
    have hfound : writerAnywhere isCall canClobber f r = true :=
      any_eq_true.mpr ⟨_, hmem, any_eq_true.mpr ⟨i, hin, by rw [hnot, hclobber]; rfl⟩⟩
    rw [hwriter] at hfound
    exact absurd hfound (by decide)
  refine ⟨hcall, ?_, ?_⟩
  · by_contra hchecked
    rw [not_or, Bool.not_eq_false, not_and, Nat.not_lt] at hchecked
    obtain ⟨hdomp, hafter⟩ := hd.dominates_between hp
    -- The current load itself is no call.
    have hbefore : cur.block = p.block → p.index < cur.index := by
      intro h
      refine Nat.lt_of_le_of_ne (hchecked.2 h.symm) fun heq => ?_
      have hsame : p = cur := by
        cases p
        cases cur
        simp_all
      rw [hsame, hr, Option.some_inj] at hi
      rw [← hi, hcurCall] at hcall
      exact absurd hcall (by decide)
    have hfound : callBetween isCall canClobber f dom cur r = true := by
      refine any_eq_true.mpr ⟨p.block, mem_range.mpr (lt_length_of_instAt hi), ?_⟩
      rw [hdomp, hchecked.1, Bool.true_and, Bool.true_and]
      refine scanCalls_of_call ?_ hi (fun h => ?_) (fun h => ?_) hcall hclobber
      · by_cases hb : p.block = dom.block
        · exact .inr ⟨hb.symm, Nat.zero_le _⟩
        · exact .inl (by simpa using hb)
      · have := hafter h.symm
        omega
      · have := hbefore h
        omega
    rw [hbetween] at hfound
    exact absurd hfound (by decide)
  · intro loop hloopMem hcurIn hpIn latch hlatch
    by_contra hdoms
    rw [Bool.not_eq_false] at hdoms
    have hfound : callInLoop isCall canClobber f cur r = true := by
      refine any_eq_true.mpr ⟨loop, hloopMem, ?_⟩
      rw [contains_iff_mem.mpr hcurIn, Bool.true_and]
      refine any_eq_true.mpr ⟨p.block, hpIn, ?_⟩
      rw [any_eq_true.mpr ⟨latch, hlatch, hdoms⟩, Bool.true_and]
      exact any_eq_true.mpr ⟨i, hin, by rw [hcall, hclobber]; rfl⟩
    rw [hloop] at hfound
    exact absurd hfound (by decide)

end Found

/-! ## A call in one arm of a branch -/

/-- Instructions of the samples: a load, a call that can write anywhere, anything else. -/
inductive Sample where
  | load | call | other
  deriving DecidableEq, Repr

def Sample.isCall : Sample → Bool
  | .call => true
  | _ => false

def Sample.canClobber : Sample → Sample → Bool
  | .call, .load => true
  | _, _ => false

/-- Two loads with a branch between them, and a call in one of its arms. -/
def callInArm : LoadFunction Sample where
  graph := ⟨[[1, 2], [3], [3], []], by decide, by decide⟩
  code := [[.load, .other], [.call, .other], [.other], [.load, .other]]
  loops := []

def loadTwice : LoadFunction Sample where
  graph := ⟨[[]], by decide, by decide⟩
  code := [[.load, .other, .load]]
  loops := []

end LoadFunction

end Brass.Mir
