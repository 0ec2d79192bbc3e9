import Brass.Mir.PreLocal
import Mathlib.Order.Bounds.Basic

/-!
# Anticipation

The walk backwards admits every block of every solution of the equations: a solution holds at a
block for an evaluation on each path to an exit, which the walk starts from, or at a block no exit
is reached from, and such blocks are admitted outright. Blocks then fall until the rest support one
another, and none of a solution falls.
-/

namespace Brass.Mir.Pre

open Brass.Util List

variable {fuel : Nat} {l : List Nat}

namespace Function

variable {f : Function} {b p s : Nat}

theorem mem_succs : s ∈ f.succs b ↔ some s ∈ (f.block b).successors := by
  unfold succs
  rw [mem_filterMap]
  constructor
  · rintro ⟨o, ho, rfl⟩
    exact ho
  · intro h
    exact ⟨some s, h, rfl⟩

theorem block_of_getElem? {c : BasicBlock} (h : f.blocks[b]? = some c) : f.block b = c := by
  rw [block, getD_eq_getElem?_getD, h, Option.getD_some]

theorem getElem?_block (h : b < f.blocks.length) : f.blocks[b]? = some (f.block b) := by
  rw [block, getD_eq_getElem?_getD, getElem?_eq_getElem h, Option.getD_some]

theorem block_of_le (h : f.blocks.length ≤ b) :
    f.block b = { insts := [], successors := [], predecessors := [] } := by
  rw [block, getD_eq_getElem?_getD, getElem?_eq_none h, Option.getD_none]

theorem lt_of_mem_succs (h : s ∈ f.succs b) : b < f.blocks.length := by
  by_contra hge
  rw [mem_succs, block_of_le (Nat.le_of_not_lt hge)] at h
  cases h

theorem succs_lt (h : s ∈ f.succs b) : s < f.blocks.length :=
  f.successors_lt _ (mem_of_getElem? (getElem?_block (lt_of_mem_succs h))) s (mem_succs.1 h)

theorem mem_succOf : p ∈ f.succOf b ↔ b ∈ f.succs p := by
  unfold succOf
  simp only [mem_flatMap, mem_range, mem_filterMap]
  constructor
  · rintro ⟨c, -, s, hs, hp⟩
    split at hp
    · next heq =>
      obtain rfl := Option.some.inj hp
      exact heq ▸ hs
    · cases hp
  · intro h
    exact ⟨p, lt_of_mem_succs h, b, h, if_pos rfl⟩

theorem succOf_lt (h : p ∈ f.succOf b) : p < f.blocks.length := lt_of_mem_succs (mem_succOf.1 h)

inductive ReachesExit (f : Function) : Nat → Prop
  | exit {b : Nat} : b < f.blocks.length → (f.block b).successors = [] → ReachesExit f b
  | step {b s : Nat} : s ∈ f.succs b → ReachesExit f s → ReachesExit f b

/-! ### The blocks no exit is reached from -/

theorem exitVisit_spec {reaches : Nat → Bool} {b : Nat} : (exitVisit f reaches b).2.length +
        remaining (range f.blocks.length) (fun _ => 1) (fun c => !(exitVisit f reaches b).1 c) ≤
      remaining (range f.blocks.length) (fun _ => 1) (fun c => !reaches c) ∧
    (∀ c ∈ (exitVisit f reaches b).2, c ∈ f.succOf b) ∧
    ∀ c, (exitVisit f reaches b).1 c = true → reaches c = true ∨ c ∈ f.succOf b := by
  unfold exitVisit
  refine foldlRecOn (motive := fun acc : (Nat → Bool) × List Nat =>
    acc.2.length + remaining (range f.blocks.length) (fun _ => 1) (fun c => !acc.1 c) ≤
        remaining (range f.blocks.length) (fun _ => 1) (fun c => !reaches c) ∧
      (∀ c ∈ acc.2, c ∈ f.succOf b) ∧ ∀ c, acc.1 c = true → reaches c = true ∨ c ∈ f.succOf b)
    (f.succOf b) _ ⟨by simp, by simp, fun c hc => .inl hc⟩ fun acc ⟨hpay, hmem, hsound⟩ p hp => ?_
  split
  · exact ⟨hpay, hmem, hsound⟩
  · next hnew =>
    refine ⟨?_, fun c hc => ?_, fun c hc => ?_⟩
    · have hdrop := remaining_drop (fun _ => 1) (fun c => !acc.1 c)
        (fun c => !Function.update acc.1 p true c) nodup_range
        (mem_range.2 (succOf_lt hp)) (by simpa using hnew) (by simp)
        (fun u hu => by simp [hu])
      rw [length_append, length_singleton]
      dsimp only at hdrop ⊢
      omega
    · rcases mem_append.1 hc with hc | hc
      · exact hmem c hc
      · rw [mem_singleton.1 hc]
        exact hp
    · dsimp only at hc
      by_cases hcp : c = p
      · rw [hcp]
        exact .inr hp
      · rw [Function.update_of_ne hcp] at hc
        exact hsound c hc

theorem mem_exits {b : Nat} : b ∈ exits f ↔ b < f.blocks.length ∧ (f.block b).successors = [] := by
  unfold exits
  rw [List.mem_filter, List.mem_range, List.isEmpty_iff]

theorem noExitBlocks_ends (f : Function) : ∃ n l, ∀ m, n ≤ m → noExitBlocks f m = some l := by
  obtain ⟨n, t, h⟩ := drain_ends _ (I := fun _ => True) (P := fun b => b < f.blocks.length)
    (c := fun reaches => remaining (range f.blocks.length) (fun _ => 1) (fun c => !reaches c))
    (fun reaches b _ _ => ⟨trivial, fun w hw => succOf_lt (exitVisit_spec.2.1 w hw),
      exitVisit_spec.1⟩) (s := fun b => decide (b ∈ exits f)) trivial
    (fun b hb => (mem_exits.1 (mem_reverse.1 hb)).1)
  refine ⟨n, (range f.blocks.length).filter fun b => !t b, fun m hm => ?_⟩
  rw [noExitBlocks, h m hm]
  rfl

theorem noExitBlocks_spec (h : noExitBlocks f fuel = some l) {b : Nat} (hb : b < f.blocks.length) :
    b ∈ l ∨ f.ReachesExit b := by
  obtain ⟨reaches, hdrain, rfl⟩ := Option.map_eq_some_iff.1 h
  have hinv := (drains_of_drain hdrain).invariant
    (I := fun s todo => (∀ c, s c = true → f.ReachesExit c) ∧ ∀ c ∈ todo, f.ReachesExit c)
    (fun s todo todo' hperm ⟨hs, htodo⟩ => ⟨hs, fun c hc => htodo c (hperm.mem_iff.2 hc)⟩)
    (fun s v todo ⟨hs, htodo⟩ => by
      have hstep : ∀ c ∈ f.succOf v, f.ReachesExit c := fun c hc =>
        .step (mem_succOf.1 hc) (htodo v mem_cons_self)
      refine ⟨fun c hc => ?_, fun c hc => ?_⟩
      · rcases exitVisit_spec.2.2 c hc with hc | hc
        · exact hs c hc
        · exact hstep c hc
      · rcases mem_append.1 hc with hc | hc
        · exact hstep c (exitVisit_spec.2.1 c hc)
        · exact htodo c (mem_cons_of_mem _ hc))
    ⟨fun c hc => .exit (mem_exits.1 (of_decide_eq_true hc)).1 (mem_exits.1 (of_decide_eq_true hc)).2,
      fun c hc => .exit (mem_exits.1 (mem_reverse.1 hc)).1 (mem_exits.1 (mem_reverse.1 hc)).2⟩
  cases hr : reaches b with
  | true => exact .inr (hinv.1 b hr)
  | false => exact .inl (mem_filter.2 ⟨mem_range.2 hb, by simp [hr]⟩)

theorem noExitBlocks_lt (h : noExitBlocks f fuel = some l) {b : Nat} (hb : b ∈ l) :
    b < f.blocks.length := by
  obtain ⟨reaches, -, rfl⟩ := Option.map_eq_some_iff.1 h
  exact mem_range.1 (mem_filter.1 hb).1

end Function

/-! ### The equations -/

namespace Query

variable {q : Query} {s : State} {noExit : List Nat}
variable {x : Nat → Bool} {todo : List Nat}

/-- `AntIn(b) = ant_loc(b) || (transp(b) && b has successors && every successor has AntIn)`. -/
def antEquation (q : Query) (x : Nat → Bool) (b : Nat) : Bool :=
  (q.facts b).antLoc ||
    ((q.facts b).transp && (!(q.fn.block b).successors.isEmpty && (q.fn.succs b).all x))

theorem antEquation_mono {y : Nat → Bool} (h : x ≤ y) : q.antEquation x ≤ q.antEquation y := by
  intro b hb
  unfold antEquation at hb ⊢
  simp only [Bool.or_eq_true, Bool.and_eq_true, all_eq_true] at hb ⊢
  rcases hb with hb | ⟨ht, hne, hall⟩
  · exact .inl hb
  · exact .inr ⟨ht, hne, fun c hc => h c (hall c hc)⟩

/-- A block that may be admitted once a successor is. -/
def mayPass (q : Query) (b : Nat) : Bool := (q.facts b).antLoc || (q.facts b).transp

theorem mayPass_of_antEquation {b : Nat} (h : q.antEquation x b = true) : q.mayPass b = true := by
  unfold antEquation at h
  unfold mayPass
  simp only [Bool.or_eq_true, Bool.and_eq_true] at h ⊢
  exact h.imp_right And.left

theorem facts_of_le {b : Nat} (hb : q.fn.blocks.length ≤ b) : q.facts b = .default := by
  unfold facts scanBlock events Function.insts
  rw [Function.block_of_le hb]
  rfl

theorem antEquation_lt {b : Nat} (h : q.antEquation x b = true) : b < q.fn.blocks.length := by
  by_contra hge
  unfold antEquation at h
  rw [facts_of_le (Nat.le_of_not_lt hge), Function.block_of_le (Nat.le_of_not_lt hge)] at h
  cases h

theorem Known.passes (h : Known q s) (o : Nat) :
    (q.passes s o).1 = q.mayPass o ∧ Known q (q.passes s o).2 ∧
      ∃ v l, (q.passes s o).2 = { s with opacity := v, opacitySet := l } := by
  unfold Query.passes mayPass
  rw [h.antLoc]
  split
  · next hant => exact ⟨by rw [hant, Bool.true_or], h, _, _, rfl⟩
  · next hant =>
    obtain ⟨htransp, hrest⟩ := h.transparent o
    exact ⟨by rw [htransp, Bool.eq_false_iff.2 hant, Bool.false_or], hrest⟩

/-! ### Blocks admitted -/

/-- During the walk, with the `pending` blocks still to be walked back from. -/
structure Admitting (q : Query) (s₀ : State) (pending : Nat → Prop) (s : State) : Prop where
  known : Known q s
  antSet : ∀ o, s.antIn o = true → o ∈ s.antSet
  lt : ∀ o ∈ s.antSet, o < q.fn.blocks.length
  mayPass : ∀ o, s.antIn o = true → q.mayPass o = true
  closed : ∀ b, s.antIn b = true → pending b ∨
    ∀ p ∈ q.fn.succOf b, q.mayPass p = true → s.antIn p = true
  availAtExit : s.availAtExit = s₀.availAtExit
  availSet : s.availSet = s₀.availSet

def unmarked (q : Query) (s : State) : Nat :=
  remaining (List.range q.fn.blocks.length) (fun _ => 1) fun b => !s.antIn b

/-- What one step of a loop over candidates does, where `cond` says whether it admits `o`. -/
structure AdmitStep (q : Query) (s₀ : State) (pending : Nat → Prop) (cond : Bool) (o : Nat)
    (acc acc' : State × List Nat) : Prop where
  admitting : Admitting q s₀ (fun c => c ∈ acc'.2 ∨ pending c) acc'.1
  marked : cond = true → acc'.1.antIn o = true
  mono : acc.1.antIn ≤ acc'.1.antIn
  todo : ∀ c ∈ acc'.2, c ∈ acc.2 ∨ c = o
  pay : acc'.2.length + q.unmarked acc'.1 ≤ acc.2.length + q.unmarked acc.1

variable {s₀ : State} {pending : Nat → Prop} {acc : State × List Nat} {o : Nat}

section

variable (h : Admitting q s₀ (fun c => c ∈ acc.2 ∨ pending c) acc.1)
include h

theorem Admitting.skip : AdmitStep q s₀ pending false o acc acc :=
  ⟨h, fun hc => absurd hc Bool.false_ne_true, le_rfl, fun _ hc => .inl hc, le_rfl⟩

theorem Admitting.admitAt (ho : o < q.fn.blocks.length) (hpass : q.mayPass o = true) :
    AdmitStep q s₀ pending true o acc (State.admitAt acc o) := by
  unfold State.admitAt
  split
  · next hin => exact { h.skip with marked := fun _ => hin }
  · next hin =>
    have hself : Function.update acc.1.antIn o true o = true := Function.update_self ..
    have hmono : acc.1.antIn ≤ Function.update acc.1.antIn o true := by
      intro c hc
      by_cases hco : c = o
      · rw [hco]
        exact hself
      · rw [Function.update_of_ne hco]
        exact hc
    have hcases : ∀ c, Function.update acc.1.antIn o true c = true → acc.1.antIn c = true ∨ c = o := by
      intro c hc
      by_cases hco : c = o
      · exact .inr hco
      · rw [Function.update_of_ne hco] at hc
        exact .inl hc
    refine ⟨⟨⟨h.known.active, h.known.fresh, h.known.touched, h.known.isTouched, h.known.opacity,
      h.known.opacitySet⟩, fun c hc => ?_, fun c hc => ?_, fun c hc => ?_, fun b hb => ?_,
      h.availAtExit, h.availSet⟩, fun _ => hself, hmono, fun c hc => ?_, ?_⟩
    · rcases hcases c hc with hc | rfl
      · exact mem_append.2 (.inl (h.antSet c hc))
      · exact mem_append.2 (.inr (mem_singleton.2 rfl))
    · rcases mem_append.1 hc with hc | hc
      · exact h.lt c hc
      · rw [mem_singleton.1 hc]
        exact ho
    · rcases hcases c hc with hc | rfl
      · exact h.mayPass c hc
      · exact hpass
    · rcases hcases b hb with hb | rfl
      · rcases h.closed b hb with (hmem | hpend) | hall
        · exact .inl (.inl (mem_append.2 (.inl hmem)))
        · exact .inl (.inr hpend)
        · exact .inr fun p hp hpp => hmono p (hall p hp hpp)
      · exact .inl (.inl (mem_append.2 (.inr (mem_singleton.2 rfl))))
    · rcases mem_append.1 hc with hc | hc
      · exact .inl hc
      · exact .inr (mem_singleton.1 hc)
    · have hdrop := remaining_drop (fun _ => 1) (fun c => !acc.1.antIn c)
        (fun c => !Function.update acc.1.antIn o true c) nodup_range
        (mem_range.2 ho) (by simpa using hin) (by simp) (fun u hu => by simp [hu])
      rw [length_append, length_singleton]
      unfold unmarked
      dsimp only at hdrop ⊢
      omega

theorem Admitting.admitIf (ho : o < q.fn.blocks.length) :
    AdmitStep q s₀ pending (q.mayPass o) o acc (q.admitIf acc o) := by
  obtain ⟨hpass, hknown, v, l, heq⟩ := h.known.passes o
  have hrest : Admitting q s₀ (fun c => c ∈ acc.2 ∨ pending c) (q.passes acc.1 o).2 := by
    refine ⟨hknown, ?_, ?_, ?_, ?_, ?_, ?_⟩ <;> rw [heq]
    · exact h.antSet
    · exact h.lt
    · exact h.mayPass
    · exact h.closed
    · exact h.availAtExit
    · exact h.availSet
  have hant : (q.passes acc.1 o).2.antIn = acc.1.antIn := by rw [heq]
  have hunmarked : q.unmarked (q.passes acc.1 o).2 = q.unmarked acc.1 := by
    unfold unmarked
    rw [hant]
  unfold Query.admitIf
  dsimp only
  rw [hpass]
  split
  · next hp =>
    have hstep : AdmitStep q s₀ pending true o ((q.passes acc.1 o).2, acc.2)
        (State.admitAt ((q.passes acc.1 o).2, acc.2) o) := Admitting.admitAt hrest ho hp
    exact ⟨hstep.admitting, fun _ => hstep.marked rfl, hant ▸ hstep.mono, hstep.todo,
      hunmarked ▸ hstep.pay⟩
  · next hp =>
    exact ⟨hrest, fun h => absurd h hp, hant.ge, fun _ hc => .inl hc, by rw [hunmarked]⟩

end

/-- A loop over candidates admits those it is to admit. -/
theorem Admitting.foldl (pending : Nat → Prop) (acc : State × List Nat) (cond : Nat → Bool)
    {g : State × List Nat → Nat → State × List Nat}
    (hg : ∀ acc o, o < q.fn.blocks.length → Admitting q s₀ (fun c => c ∈ acc.2 ∨ pending c) acc.1 →
        AdmitStep q s₀ pending (cond o) o acc (g acc o))
    (h : Admitting q s₀ (fun c => c ∈ acc.2 ∨ pending c) acc.1)
    (hl : ∀ o ∈ l, o < q.fn.blocks.length) :
    Admitting q s₀ (fun c => c ∈ (l.foldl g acc).2 ∨ pending c) (l.foldl g acc).1 ∧
      (∀ o ∈ l, cond o = true → (l.foldl g acc).1.antIn o = true) ∧
      acc.1.antIn ≤ (l.foldl g acc).1.antIn ∧
      (∀ c ∈ (l.foldl g acc).2, c ∈ acc.2 ∨ c ∈ l) ∧
      (l.foldl g acc).2.length + q.unmarked (l.foldl g acc).1 ≤ acc.2.length + q.unmarked acc.1 := by
  induction l generalizing acc with
  | nil => exact ⟨h, by simp, le_rfl, fun _ hc => .inl hc, le_rfl⟩
  | cons o l ih =>
    have hstep := hg acc o (hl o mem_cons_self) h
    obtain ⟨hadm, hmarked, hmono, htodo, hpay⟩ :=
      ih _ hstep.admitting fun p hp => hl p (mem_cons_of_mem _ hp)
    rw [foldl_cons]
    refine ⟨hadm, fun p hp hc => ?_, hstep.mono.trans hmono, fun c hc => ?_, hpay.trans hstep.pay⟩
    · rcases mem_cons.1 hp with rfl | hp
      · exact hmono _ (hstep.marked hc)
      · exact hmarked p hp hc
    · rcases htodo c hc with hc | hc
      · rcases hstep.todo c hc with hc | rfl
        · exact .inl hc
        · exact .inr mem_cons_self
      · exact .inr (mem_cons_of_mem _ hc)

theorem Admitting.visit {b : Nat} (h : Admitting q s₀ (· ∈ b :: todo) s) :
    Admitting q s₀ (· ∈ (q.admitVisit s b).2 ++ todo) (q.admitVisit s b).1 := by
  obtain ⟨hadm, hmarked, -⟩ := Admitting.foldl (· ∈ b :: todo) (s, []) q.mayPass
    (fun _ _ ho h => h.admitIf ho)
    { h with closed := fun c hc => (h.closed c hc).imp_left .inr }
    (l := q.fn.succOf b) fun _ ho => Function.succOf_lt ho
  refine { hadm with closed := fun c hc => ?_ }
  rcases hadm.closed c hc with (hmem | hmem) | hall
  · exact .inl (mem_append.2 (.inl hmem))
  · rcases mem_cons.1 hmem with rfl | hmem
    · exact .inr hmarked
    · exact .inl (mem_append.2 (.inr hmem))
  · exact .inr hall

theorem admitVisit_ends (todo : List Nat) (h : Admitting q s₀ (· ∈ todo) s)
    (htodo : ∀ b ∈ todo, b < q.fn.blocks.length) :
    ∃ n t, (∀ m, n ≤ m → drain q.admitVisit m s todo = some t) ∧
      Admitting q s₀ (fun _ => False) t ∧ s.antIn ≤ t.antIn := by
  obtain ⟨n, t, hend⟩ := drain_ends q.admitVisit (I := fun s => Admitting q s₀ (fun _ => True) s)
    (P := fun b => b < q.fn.blocks.length) (c := q.unmarked)
    (fun s b hs hb => by
      obtain ⟨hadm, -, -, htodo, hpay⟩ := Admitting.foldl (fun _ => True) (s, []) q.mayPass
        (fun _ _ ho h => h.admitIf ho) { hs with closed := fun _ _ => .inl (.inr trivial) }
        (l := q.fn.succOf b) fun _ ho => Function.succOf_lt ho
      refine ⟨{ hadm with closed := fun _ _ => .inl trivial }, fun c hc => ?_, ?_⟩
      · exact Function.succOf_lt ((htodo c hc).resolve_left not_mem_nil)
      · rw [length_nil, Nat.zero_add] at hpay
        exact hpay)
    { h with closed := fun _ _ => .inl trivial } htodo
  have hinv := (drains_of_drain (hend n le_rfl)).invariant
    (I := fun u todo => Admitting q s₀ (· ∈ todo) u ∧ s.antIn ≤ u.antIn)
    (fun u todo todo' hperm ⟨hu, hle⟩ =>
      ⟨{ hu with closed := fun c hc => (hu.closed c hc).imp_left hperm.mem_iff.1 }, hle⟩)
    (fun u b todo ⟨hu, hle⟩ => ⟨hu.visit, hle.trans (Admitting.foldl (· ∈ b :: todo)
      (u, []) q.mayPass (fun _ _ ho h => h.admitIf ho)
      { hu with closed := fun c hc => (hu.closed c hc).imp_left .inr }
      (l := q.fn.succOf b) fun _ ho => Function.succOf_lt ho).2.2.1⟩) ⟨h, le_rfl⟩
  exact ⟨n, t, hend, { hinv.1 with
    closed := fun c hc => (hinv.1.closed c hc).imp_left not_mem_nil }, hinv.2⟩

theorem Admitting.covers (h : Admitting q s₀ (fun _ => False) s)
    (hant : ∀ b, (q.facts b).antLoc = true → s.antIn b = true)
    (hexit : ∀ b, b < q.fn.blocks.length → q.mayPass b = true →
      s.antIn b = true ∨ q.fn.ReachesExit b)
    {x : Nat → Bool} (hx : x ≤ q.antEquation x) : x ≤ s.antIn := by
  have hreach : ∀ b, q.fn.ReachesExit b → x b = true → s.antIn b = true := by
    intro b hb
    induction hb with
    | exit _ hnone =>
      intro hxb
      have heq := hx _ hxb
      unfold antEquation at heq
      rw [hnone] at heq
      simp only [isEmpty_nil, Bool.not_true, Bool.false_and, Bool.and_false, Bool.or_false] at heq
      exact hant _ heq
    | step hs _ ih =>
      intro hxb
      have heq := hx _ hxb
      have hpass := mayPass_of_antEquation heq
      unfold antEquation at heq
      simp only [Bool.or_eq_true, Bool.and_eq_true, all_eq_true] at heq
      rcases heq with heq | ⟨-, -, hall⟩
      · exact hant _ heq
      · exact ((h.closed _ (ih (hall _ hs))).resolve_left id) _ (Function.mem_succOf.2 hs) hpass
  intro b hxb
  have heq := hx b hxb
  rcases hexit b (antEquation_lt heq) (mayPass_of_antEquation heq) with hin | hb
  · exact hin
  · exact hreach b hb hxb

/-! ### Blocks that fall -/

/-- On the way down: no solution has lost a block, and what is not on the list is supported. -/
structure Falling (q : Query) (s₀ : State) (todo : List Nat) (s : State) : Prop where
  known : Known q s
  antSet : ∀ o, s.antIn o = true → o ∈ s.antSet
  mayPass : ∀ o, s.antIn o = true → q.mayPass o = true
  above : ∀ x, x ≤ q.antEquation x → x ≤ s.antIn
  supported : ∀ b, s.antIn b = true → b ∈ todo ∨ (q.facts b).antLoc = true ∨ q.out s b = true
  availAtExit : s.availAtExit = s₀.availAtExit
  availSet : s.availSet = s₀.availSet

theorem Falling.visit {b : Nat} (h : Falling q s₀ (b :: todo) s) :
    Falling q s₀ ((q.fallVisit s b).2 ++ todo) (q.fallVisit s b).1 := by
  unfold Query.fallVisit
  split
  · next hstay =>
    refine { h with supported := fun c hc => ?_ }
    rcases h.supported c hc with hmem | hsup
    · rcases mem_cons.1 hmem with rfl | hmem
      · dsimp only at hc
        rw [hc, Bool.not_true, Bool.false_or, Bool.or_eq_true, h.known.antLoc] at hstay
        exact .inr hstay
      · exact .inl hmem
    · exact .inr hsup
  · next hfall =>
    simp only [Bool.or_eq_true, not_or, Bool.not_eq_true', Bool.not_eq_false, h.known.antLoc]
      at hfall
    obtain ⟨⟨hin, hloc⟩, hout⟩ := hfall
    have hother : ∀ c, Function.update s.antIn b false c = true → c ≠ b ∧ s.antIn c = true := by
      intro c hc
      by_cases hcb : c = b
      · rw [hcb, Function.update_self] at hc
        exact absurd hc Bool.false_ne_true
      · rw [Function.update_of_ne hcb] at hc
        exact ⟨hcb, hc⟩
    refine ⟨⟨h.known.active, h.known.fresh, h.known.touched, h.known.isTouched, h.known.opacity,
      h.known.opacitySet⟩, fun c hc => h.antSet c (hother c hc).2,
      fun c hc => h.mayPass c (hother c hc).2, fun x hx c hc => ?_, fun c hc => ?_, h.availAtExit,
      h.availSet⟩
    · -- A solution that holds at the falling block would have kept it.
      have hcb : c ≠ b := by
        rintro rfl
        have heq := hx c hc
        unfold antEquation at heq
        simp only [Bool.or_eq_true, Bool.and_eq_true, all_eq_true] at heq
        rcases heq with heq | ⟨-, hne, hall⟩
        · exact hloc heq
        · refine hout ?_
          unfold Query.out
          rw [Bool.and_eq_true, all_eq_true]
          exact ⟨hne, fun d hd => h.above x hx d (hall d hd)⟩
      dsimp only
      rw [Function.update_of_ne hcb]
      exact h.above x hx c hc
    · obtain ⟨hcb, hcin⟩ := hother c hc
      rcases h.supported c hcin with hmem | hsup | hsup
      · exact .inl (mem_append.2 (.inr ((mem_cons.1 hmem).resolve_left hcb)))
      · exact .inr (.inl hsup)
      · by_cases hbc : b ∈ q.fn.succs c
        · cases hl : (q.facts c).antLoc with
          | true => exact .inr (.inl rfl)
          | false =>
            refine .inl (mem_append.2 (.inl (mem_filter.2 ⟨Function.mem_succOf.2 hbc, ?_⟩)))
            rw [Bool.and_eq_true]
            refine ⟨hc, ?_⟩
            dsimp only
            rw [h.known.antLoc, hl]
            rfl
        · refine .inr (.inr ?_)
          unfold Query.out at hsup ⊢
          rw [Bool.and_eq_true, all_eq_true] at hsup ⊢
          refine ⟨hsup.1, fun d hd => ?_⟩
          dsimp only
          rw [Function.update_of_ne (by rintro rfl; exact hbc hd)]
          exact hsup.2 d hd

theorem fallVisit_pays {b : Nat} (hb : b < q.fn.blocks.length) :
    (∀ c ∈ (q.fallVisit s b).2, c ∈ q.fn.succOf b) ∧
      (q.fallVisit s b).2.length + remaining (range q.fn.blocks.length)
          (fun c => (q.fn.succOf c).length) (q.fallVisit s b).1.antIn ≤
        remaining (range q.fn.blocks.length) (fun c => (q.fn.succOf c).length) s.antIn := by
  unfold Query.fallVisit
  split
  · exact ⟨fun c hc => absurd hc not_mem_nil, by simp⟩
  · next hfall =>
    have hin : s.antIn b = true := by
      by_contra hne
      exact hfall (by simp [Bool.eq_false_iff.2 hne])
    refine ⟨fun c hc => mem_of_mem_filter hc, ?_⟩
    have hdrop := remaining_drop (fun c => (q.fn.succOf c).length) s.antIn
      (Function.update s.antIn b false) nodup_range (mem_range.2 hb) hin
      (Function.update_self ..) fun u hu => Function.update_of_ne hu ..
    have hlen := length_filter_le (fun p => Function.update s.antIn b false p &&
      !(s.localInfo p).antLoc) (q.fn.succOf b)
    dsimp only at hdrop ⊢
    omega

/-- Blocks that support one another are the greatest solution. -/
theorem Falling.isGreatest (h : Falling q s₀ [] s) :
    IsGreatest {x | q.antEquation x = x} s.antIn := by
  have hpost : s.antIn ≤ q.antEquation s.antIn := by
    intro b hb
    have hpass := h.mayPass b hb
    unfold Query.mayPass at hpass
    unfold antEquation
    rcases h.supported b hb with hmem | hloc | hout
    · exact absurd hmem not_mem_nil
    · rw [hloc, Bool.true_or]
    · rw [show (!(q.fn.block b).successors.isEmpty && (q.fn.succs b).all s.antIn) = true from hout,
        Bool.and_true]
      exact hpass
  refine ⟨le_antisymm (h.above _ (antEquation_mono hpost)) hpost, fun x hx => ?_⟩
  exact h.above x (le_of_eq hx.symm)

/-! ### The anticipation of an expression -/

/-- What is known when the anticipation of an expression has been computed. -/
structure Anticipated (q : Query) (s₀ s : State) : Prop where
  known : Known q s
  antSet : ∀ o, o ∈ s.antSet ↔ s.antIn o = true
  greatest : IsGreatest {x | q.antEquation x = x} s.antIn
  availAtExit : s.availAtExit = s₀.availAtExit
  availSet : s.availSet = s₀.availSet

theorem startAnticipation_spec (hs : Known q s) (hclean : ∀ o, s.antIn o = true → o ∈ s.antSet)
    (hlt : ∀ b ∈ noExit, b < q.fn.blocks.length) :
    Admitting q s (· ∈ (q.startAnticipation noExit s).2) (q.startAnticipation noExit s).1 ∧
      (∀ b ∈ (q.startAnticipation noExit s).2, b < q.fn.blocks.length) ∧
      (∀ b, (q.facts b).antLoc = true → (q.startAnticipation noExit s).1.antIn b = true) ∧
      ∀ b ∈ noExit, q.mayPass b = true → (q.startAnticipation noExit s).1.antIn b = true := by
  have hfalse : ∀ o, clear s.antIn s.antSet false o = false := by
    intro o
    rw [clear_apply]
    split
    · rfl
    · next ho => exact Bool.eq_false_iff.2 fun h => ho (hclean o h)
  have hbegin : Admitting q s (fun c => c ∈ [] ∨ False)
      { s with antIn := clear s.antIn s.antSet false, antSet := [] } :=
    ⟨⟨hs.active, hs.fresh, hs.touched, hs.isTouched, hs.opacity, hs.opacitySet⟩,
      fun o ho => absurd ((hfalse o).symm.trans ho) Bool.false_ne_true,
      fun o ho => absurd ho not_mem_nil,
      fun o ho => absurd ((hfalse o).symm.trans ho) Bool.false_ne_true,
      fun o ho => absurd ((hfalse o).symm.trans ho) Bool.false_ne_true, rfl, rfl⟩
  have htouched : ∀ o ∈ s.touched, o < q.fn.blocks.length := by
    rw [hs.touched]
    exact fun o ho => mem_active_lt ho
  obtain ⟨hadm, hmarked, -, hmem, -⟩ := Admitting.foldl (fun _ => False)
    ({ s with antIn := clear s.antIn s.antSet false, antSet := [] }, [])
    (fun o => (q.facts o).antLoc)
    (g := fun acc o => if (acc.1.localInfo o).antLoc then State.admitAt acc o else acc) (fun acc o ho hacc => by
      rw [hacc.known.antLoc]
      split
      · next hloc =>
        rw [hloc]
        exact hacc.admitAt ho (by rw [Query.mayPass, hloc, Bool.true_or])
      · next hloc =>
        rw [Bool.eq_false_iff.2 hloc]
        exact hacc.skip) hbegin htouched
  obtain ⟨hadm', hmarked', hmono', hmem', -⟩ := Admitting.foldl (fun _ => False) _ q.mayPass
    (fun _ _ ho h => h.admitIf ho) hadm hlt
  refine ⟨{ hadm' with closed := fun c hc => (hadm'.closed c hc).imp_left fun h => h.resolve_right id },
    fun b hb => ?_, fun b hb => ?_, hmarked'⟩
  · rcases hmem' b hb with hb | hb
    · exact htouched b ((hmem b hb).resolve_left not_mem_nil)
    · exact hlt b hb
  · refine hmono' b (hmarked b ?_ hb)
    rw [hs.touched]
    by_contra hnot
    rw [facts_of_not_active hnot] at hb
    exact Bool.false_ne_true hb

/-- The greatest solution is reached, whatever the expressions before it left behind. -/
theorem computeAnticipation_ends (hexit : q.fn.noExitBlocks fuel = some noExit) (hs : Known q s)
    (hclean : ∀ o, s.antIn o = true → o ∈ s.antSet) :
    ∃ n t, (∀ m, n ≤ m → q.computeAnticipation noExit m s = some t) ∧ Anticipated q s t := by
  obtain ⟨hadm, hlt, hant, hno⟩ := startAnticipation_spec hs hclean
    fun b hb => Function.noExitBlocks_lt hexit hb
  obtain ⟨n₁, u, hwalk, hu, hmono⟩ := admitVisit_ends (q.startAnticipation noExit s).2.reverse
    { hadm with closed := fun c hc => (hadm.closed c hc).imp_left mem_reverse.2 }
    fun b hb => hlt b (mem_reverse.1 hb)
  have hbegin : Falling q s u.antSet.reverse u :=
    ⟨hu.known, hu.antSet, hu.mayPass, fun x hx => hu.covers (fun b hb => hmono b (hant b hb))
      (fun b hb hp => (Function.noExitBlocks_spec hexit hb).imp_left
        fun hmem => hmono b (hno b hmem hp)) hx,
      fun b hb => .inl (mem_reverse.2 (hu.antSet b hb)), hu.availAtExit, hu.availSet⟩
  obtain ⟨n₂, v, hfall⟩ := drain_ends q.fallVisit (s := u)
    (I := fun _ => True) (P := fun b => b < q.fn.blocks.length)
    (c := fun s => remaining (range q.fn.blocks.length) (fun c => (q.fn.succOf c).length) s.antIn)
    (fun s b _ hb => ⟨trivial, fun w hw => Function.succOf_lt ((fallVisit_pays hb).1 w hw),
      (fallVisit_pays hb).2⟩) trivial (fun b (hb : b ∈ u.antSet.reverse) => hu.lt b (mem_reverse.1 hb))
  have hv : Falling q s [] v := (drains_of_drain (hfall n₂ le_rfl)).invariant
    (I := fun s' todo => Falling q s todo s')
    (fun _ _ _ hperm h =>
      { h with supported := fun b hb => (h.supported b hb).imp_left hperm.mem_iff.1 })
    (fun _ _ _ h => h.visit) hbegin
  refine ⟨max n₁ n₂, { v with antSet := (v.antSet.filter v.antIn).mergeSort (· ≤ ·) }, fun m hm => ?_,
    ⟨⟨hv.known.active, hv.known.fresh, hv.known.touched, hv.known.isTouched, hv.known.opacity,
      hv.known.opacitySet⟩, fun o => ?_, hv.isGreatest, hv.availAtExit, hv.availSet⟩⟩
  · unfold computeAnticipation
    simp only [hwalk m (le_trans (le_max_left _ _) hm), hfall m (le_trans (le_max_right _ _) hm),
      Option.bind_eq_bind, Option.bind_some, Option.pure_def]
  · dsimp only
    rw [mem_mergeSort, mem_filter]
    exact ⟨And.right, fun ho => ⟨hv.antSet o ho, ho⟩⟩

end Query

end Brass.Mir.Pre
