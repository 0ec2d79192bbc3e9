import Brass.Mir.PreAnticipation

/-!
# Availability, and the answers for one expression after another

Values spread forwards from the blocks that make one. A value that has been set keeps being the one
the predecessors agree on, and a block whose predecessors have come to agree is on the list, so that
what is left when the list is empty is the least solution, in whatever order the blocks were
visited.
-/

namespace Brass.Mir.Pre

open Brass.Util List

variable {x : Nat → Option Nat} {v : Nat}

theorem commonVal_eq_some {ps : List Nat} :
    commonVal x ps = some v ↔ ps ≠ [] ∧ ∀ p ∈ ps, x p = some v := by
  cases ps with
  | nil => simp [commonVal]
  | cons p ps =>
    unfold commonVal
    simp only [all_eq_true, decide_eq_true_eq]
    constructor
    · intro h
      split at h
      · next hall =>
        refine ⟨cons_ne_nil _ _, fun r hr => ?_⟩
        rcases mem_cons.1 hr with rfl | hr
        · exact h
        · exact (hall r hr).trans h
      · cases h
    · rintro ⟨-, hall⟩
      rw [hall p mem_cons_self]
      exact if_pos fun r hr => hall r (mem_cons_of_mem _ hr)

namespace Function

variable {f : Function} {b p : Nat}

theorem mem_preds : p ∈ f.preds b ↔ some p ∈ (f.block b).predecessors := by
  unfold preds
  rw [mem_filterMap]
  constructor
  · rintro ⟨o, ho, rfl⟩
    exact ho
  · intro h
    exact ⟨some p, h, rfl⟩

theorem mem_succs_of_mem_preds (h : p ∈ f.preds b) : b ∈ f.succs p := by
  have hb : b < f.blocks.length := by
    by_contra hge
    rw [mem_preds, block_of_le (Nat.le_of_not_lt hge)] at h
    cases h
  obtain ⟨c, hc, hmem⟩ := f.predecessors_edge b _ (getElem?_block hb) p (mem_preds.1 h)
  rw [mem_succs, block_of_getElem? hc]
  exact hmem

end Function

def Extends (x y : Nat → Option Nat) : Prop := ∀ b v, x b = some v → y b = some v

namespace Query

variable {q : Query} {s s₀ t : State} {noExit : List Nat}
variable {y : Nat → Option Nat} {i : Nat} {todo : List Nat}

/-- The value of a block: its own, or the one all its predecessors agree on. -/
def availEquation (q : Query) (x : Nat → Option Nat) (b : Nat) : Option Nat :=
  if (q.facts b).availLoc then (q.facts b).availVal
  else if (q.facts b).transp && !(q.fn.block b).predecessors.isEmpty &&
      !(q.fn.block b).predecessors.contains none then
    commonVal x (q.fn.preds b)
  else none

theorem availEquation_mono (h : Extends x y) : Extends (q.availEquation x) (q.availEquation y) := by
  intro b v hv
  unfold availEquation at hv ⊢
  split at hv
  · next hloc => rwa [if_pos hloc]
  · next hloc =>
    rw [if_neg hloc]
    split at hv
    · next hpass =>
      rw [if_pos hpass]
      rw [commonVal_eq_some] at hv ⊢
      exact ⟨hv.1, fun p hp => h p v (hv.2 p hp)⟩
    · cases hv

theorem availEquation_congr {b : Nat} (h : ∀ p ∈ q.fn.preds b, x p = y p) :
    q.availEquation x b = q.availEquation y b := by
  have hcommon : commonVal x (q.fn.preds b) = commonVal y (q.fn.preds b) := by
    cases hx : commonVal x (q.fn.preds b) with
    | some v =>
      rw [commonVal_eq_some] at hx
      exact (commonVal_eq_some.2 ⟨hx.1, fun p hp => (h p hp).symm.trans (hx.2 p hp)⟩).symm
    | none =>
      cases hy : commonVal y (q.fn.preds b) with
      | some v =>
        rw [commonVal_eq_some] at hy
        rw [commonVal_eq_some.2 ⟨hy.1, fun p hp => (h p hp).trans (hy.2 p hp)⟩] at hx
        cases hx
      | none => rfl
  unfold availEquation
  rw [hcommon]

def IsLeastAvail (q : Query) (x : Nat → Option Nat) : Prop :=
  q.availEquation x = x ∧ ∀ y, q.availEquation y = y → Extends x y

theorem IsLeastAvail.unique (hx : q.IsLeastAvail x) (hy : q.IsLeastAvail y) : x = y := by
  funext b
  cases hxb : x b with
  | some v => exact (hx.2 y hy.1 b v hxb).symm
  | none =>
    cases hyb : y b with
    | some v =>
      rw [hy.2 x hx.1 b v hyb] at hxb
      cases hxb
    | none => rfl

/-- While values spread. -/
structure Spreading (q : Query) (s₀ : State) (todo : List Nat) (s : State) : Prop where
  known : Known q s
  availSet : ∀ o, s.availAtExit o ≠ none → o ∈ s.availSet
  own : ∀ b, (q.facts b).availLoc = true → s.availAtExit b = (q.facts b).availVal
  justified : Extends s.availAtExit (q.availEquation s.availAtExit)
  below : ∀ y, q.availEquation y = y → Extends s.availAtExit y
  pending : ∀ b v, q.availEquation s.availAtExit b = some v →
    s.availAtExit b = some v ∨ b ∈ todo
  antIn : s.antIn = s₀.antIn
  antSet : s.antSet = s₀.antSet

theorem Spreading.isLeast (h : Spreading q s₀ [] s) : q.IsLeastAvail s.availAtExit := by
  refine ⟨funext fun b => ?_, h.below⟩
  cases hb : s.availAtExit b with
  | some v => exact h.justified b v hb
  | none =>
    cases hv : q.availEquation s.availAtExit b with
    | some v =>
      have hset := (h.pending b v hv).resolve_right not_mem_nil
      rw [hb] at hset
      cases hset
    | none => rfl

theorem Spreading.skip (h : Spreading q s₀ (i :: todo) s)
    (hi : ∀ v, q.availEquation s.availAtExit i = some v → s.availAtExit i = some v) :
    Spreading q s₀ todo s := by
  refine { h with pending := fun b v hb => ?_ }
  rcases h.pending b v hb with hset | hmem
  · exact .inl hset
  · rcases mem_cons.1 hmem with rfl | hmem
    · exact .inl (hi v hb)
    · exact .inr hmem

theorem Spreading.take (h : Spreading q s₀ (i :: todo) s) (hloc : (q.facts i).availLoc = false)
    (hv : q.availEquation s.availAtExit i = some v) (hnone : s.availAtExit i = none) :
    Spreading q s₀ (q.fn.succs i ++ todo) { s with
        availAtExit := Function.update s.availAtExit i (some v)
        availSet := s.availSet ++ [i] } := by
  have hext : Extends s.availAtExit (Function.update s.availAtExit i (some v)) := by
    intro b w hb
    by_cases hbi : b = i
    · rw [hbi, hnone] at hb
      cases hb
    · rw [Function.update_of_ne hbi]
      exact hb
  have hi := availEquation_mono hext i v hv
  refine ⟨⟨h.known.active, h.known.fresh, h.known.touched, h.known.isTouched, h.known.opacity,
    h.known.opacitySet⟩, fun o ho => ?_, fun b hb => ?_, fun b w hb => ?_, fun y hy b w hb => ?_,
    fun b w hb => ?_, h.antIn, h.antSet⟩
  · by_cases hoi : o = i
    · exact mem_append.2 (.inr (mem_singleton.2 hoi))
    · dsimp only at ho
      rw [Function.update_of_ne hoi] at ho
      exact mem_append.2 (.inl (h.availSet o ho))
  · have hbi : b ≠ i := by
      rintro rfl
      rw [hloc] at hb
      cases hb
    dsimp only
    rw [Function.update_of_ne hbi]
    exact h.own b hb
  · dsimp only at hb ⊢
    by_cases hbi : b = i
    · subst hbi
      rw [Function.update_self] at hb
      rw [← hb]
      exact hi
    · rw [Function.update_of_ne hbi] at hb
      exact availEquation_mono hext b w (h.justified b w hb)
  · dsimp only at hb
    by_cases hbi : b = i
    · subst hbi
      rw [Function.update_self] at hb
      rw [← hb, ← hy]
      exact availEquation_mono (h.below y hy) b v hv
    · rw [Function.update_of_ne hbi] at hb
      exact h.below y hy b w hb
  · dsimp only at hb ⊢
    by_cases hbi : b = i
    · subst hbi
      rw [Function.update_self]
      exact .inl (hi.symm.trans hb)
    · rw [Function.update_of_ne hbi]
      by_cases hsucc : b ∈ q.fn.succs i
      · exact .inr (mem_append.2 (.inl hsucc))
      · have hsame : ∀ p ∈ q.fn.preds b,
            Function.update s.availAtExit i (some v) p = s.availAtExit p := by
          intro p hp
          refine Function.update_of_ne ?_ ..
          rintro rfl
          exact hsucc (Function.mem_succs_of_mem_preds hp)
        rw [availEquation_congr hsame] at hb
        refine (h.pending b w hb).imp_right fun hmem => ?_
        exact mem_append.2 (.inr ((mem_cons.1 hmem).resolve_left hbi))

/-- A visit either changes no value or gives the block the one its predecessors agree on. -/
theorem Spreading.visit (h : Spreading q s₀ (i :: todo) s) :
    Spreading q s₀ ((q.availVisit s i).2 ++ todo) (q.availVisit s i).1 ∧
      ((q.availVisit s i).2 = [] ∧ (q.availVisit s i).1.availAtExit = s.availAtExit ∨
        (q.availVisit s i).2 = q.fn.succs i ∧ s.availAtExit i = none ∧
          ∃ v, (q.availVisit s i).1.availAtExit = Function.update s.availAtExit i (some v)) := by
  unfold Query.availVisit
  rw [h.known.availLoc]
  split
  · next hloc =>
    refine ⟨h.skip fun v hv => ?_, .inl ⟨rfl, rfl⟩⟩
    rw [availEquation, if_pos hloc] at hv
    rw [h.own i hloc, hv]
  · next hloc =>
    obtain ⟨htransp, hknown, v, l, heq⟩ := h.known.transparent i
    dsimp only
    have hr : Spreading q s₀ (i :: todo) (q.transparent s i).2 := by
      refine ⟨hknown, ?_, ?_, ?_, ?_, ?_, ?_, ?_⟩ <;> rw [heq]
      · exact h.availSet
      · exact h.own
      · exact h.justified
      · exact h.below
      · exact h.pending
      · exact h.antIn
      · exact h.antSet
    have havail : (q.transparent s i).2.availAtExit = s.availAtExit := by rw [heq]
    have hequation : q.availEquation (q.transparent s i).2.availAtExit i =
        if (q.transparent s i).1 && !(q.fn.block i).predecessors.isEmpty &&
          !(q.fn.block i).predecessors.contains none then
          commonVal (q.transparent s i).2.availAtExit (q.fn.preds i) else none := by
      rw [availEquation, if_neg hloc, htransp]
    have hstops : ∀ x y z : Bool, (!x || y || z) = !(x && !y && !z) := by decide
    rw [hstops]
    split
    · next hstop =>
      rw [(Bool.not_eq_true' _).mp hstop, if_neg Bool.false_ne_true] at hequation
      refine ⟨hr.skip fun w hw => ?_, .inl ⟨rfl, havail⟩⟩
      rw [hequation] at hw
      cases hw
    · next hgo =>
      rw [if_pos (by simpa only [Bool.not_eq_true', Bool.not_eq_false] using hgo)] at hequation
      split
      · next hcommon =>
        rw [hcommon] at hequation
        refine ⟨hr.skip fun w hw => ?_, .inl ⟨rfl, havail⟩⟩
        rw [hequation] at hw
        cases hw
      · next w hcommon =>
        rw [hcommon] at hequation
        split
        · next hset =>
          refine ⟨hr.skip fun w' hw => ?_, .inl ⟨rfl, havail⟩⟩
          rw [hequation] at hw
          rw [hset, hw]
        · next hset =>
          have hnone : (q.transparent s i).2.availAtExit i = none := by
            by_contra hne
            obtain ⟨w', hw'⟩ := Option.ne_none_iff_exists'.1 hne
            exact hset (hw'.trans ((hr.justified i w' hw').symm.trans hequation))
          rw [if_pos hnone]
          refine ⟨hr.take (Bool.eq_false_iff.2 hloc) hequation hnone, .inr ⟨rfl, ?_, w, ?_⟩⟩
          · rw [← havail]
            exact hnone
          · rw [havail]

/-! ### The start -/

/-- While the blocks with a value of their own are gone through: what has been set is such a value,
and the successors of its block are on the list. -/
structure Seeded (q : Query) (s : State) (acc : State × List Nat) : Prop where
  same : ∃ v l, acc.1 = { s with availAtExit := v, availSet := l }
  set : ∀ o v, acc.1.availAtExit o = some v → (q.facts o).availLoc = true ∧
    (q.facts o).availVal = some v ∧ o ∈ acc.1.availSet ∧ ∀ c ∈ q.fn.succs o, c ∈ acc.2
  lt : ∀ c ∈ acc.2, c < q.fn.blocks.length

theorem Seeded.begin (hclean : ∀ o, s.availAtExit o ≠ none → o ∈ s.availSet) :
    q.Seeded s ({ s with availAtExit := clear s.availAtExit s.availSet none, availSet := [] }, []) where
  same := ⟨_, _, rfl⟩
  set o v ho := by
    dsimp only at ho
    rw [clear_apply] at ho
    split at ho
    · cases ho
    · next hnot => exact absurd (hclean o (by rw [ho]; exact Option.some_ne_none v)) hnot
  lt c hc := absurd hc not_mem_nil

theorem Seeded.step {acc : State × List Nat} {o : Nat} (hs : Known q s) (h : q.Seeded s acc) :
    q.Seeded s (q.seedAvail acc o) := by
  obtain ⟨v, l, heq⟩ := h.same
  have hinfo : acc.1.localInfo = s.localInfo := by rw [heq]
  unfold seedAvail
  rw [hinfo, hs.availLoc, hs.availVal]
  split
  · next w hloc hval =>
    refine ⟨⟨_, _, by rw [heq]⟩, fun c w' hc => ?_, fun c hc => ?_⟩
    · dsimp only at hc ⊢
      by_cases hco : c = o
      · subst hco
        rw [Function.update_self] at hc
        obtain rfl := Option.some.inj hc
        exact ⟨hloc, hval, mem_append.2 (.inr (mem_singleton.2 rfl)),
          fun d hd => mem_append.2 (.inr hd)⟩
      · rw [Function.update_of_ne hco] at hc
        obtain ⟨hloc', hval', hmem, hsuccs⟩ := h.set c w' hc
        exact ⟨hloc', hval', mem_append.2 (.inl hmem),
          fun d hd => mem_append.2 (.inl (hsuccs d hd))⟩
    · rcases mem_append.1 hc with hc | hc
      · exact h.lt c hc
      · exact Function.succs_lt hc
  · exact h

/-- A block with a value of its own has it once it has been gone through. -/
theorem Seeded.own {acc : State × List Nat} {o : Nat} (hs : Known q s) (h : q.Seeded s acc)
    {l : List Nat} (ho : o ∈ l) (hloc : (q.facts o).availLoc = true)
    (hval : (q.facts o).availVal = some v) :
    q.Seeded s (l.foldl q.seedAvail acc) ∧ (l.foldl q.seedAvail acc).1.availAtExit o = some v := by
  refine foldl_brings (G := q.Seeded s) (P := fun acc => acc.1.availAtExit o = some v) h
    (fun acc c _ hacc => hacc.step hs) (fun acc c _ hacc hset => ?_) (.inr ⟨o, ho, fun acc hacc => ?_⟩)
  · obtain ⟨w, l, heq⟩ := hacc.same
    have hinfo : acc.1.localInfo = s.localInfo := by rw [heq]
    unfold seedAvail
    rw [hinfo, hs.availLoc, hs.availVal]
    split
    · next w hlocc hvalc =>
      dsimp only
      by_cases hoc : o = c
      · subst hoc
        rw [Function.update_self, ← hvalc, hval]
      · rw [Function.update_of_ne hoc]
        exact hset
    · exact hset
  · obtain ⟨w, l, heq⟩ := hacc.same
    have hinfo : acc.1.localInfo = s.localInfo := by rw [heq]
    unfold seedAvail
    rw [hinfo, hs.availLoc, hs.availVal, hloc, hval]
    exact Function.update_self ..

theorem startAvailability_spec (hs : Known q s)
    (hclean : ∀ o, s.availAtExit o ≠ none → o ∈ s.availSet) :
    Spreading q s (q.startAvailability s).2 (q.startAvailability s).1 ∧
      ∀ b ∈ (q.startAvailability s).2, b < q.fn.blocks.length := by
  have hbegin := Seeded.begin (q := q) hclean
  have hseeded : q.Seeded s (q.startAvailability s) :=
    foldlRecOn s.touched q.seedAvail hbegin fun acc hacc o _ => hacc.step hs
  have hown : ∀ o v, (q.facts o).availLoc = true → (q.facts o).availVal = some v →
      (q.startAvailability s).1.availAtExit o = some v := by
    intro o v hloc hval
    refine (hbegin.own hs ?_ hloc hval).2
    rw [show s.touched = q.active from hs.touched]
    by_contra hnot
    rw [facts_of_not_active hnot] at hloc
    exact Bool.false_ne_true hloc
  obtain ⟨v, l, heq⟩ := hseeded.same
  refine ⟨⟨?_, fun o ho => ?_, fun b hloc => ?_, fun b w hb => ?_, fun y hy b w hb => ?_,
    fun b w hb => ?_, ?_, ?_⟩, hseeded.lt⟩
  · rw [heq]
    exact ⟨hs.active, hs.fresh, hs.touched, hs.isTouched, hs.opacity, hs.opacitySet⟩
  · obtain ⟨w, hw⟩ := Option.ne_none_iff_exists'.1 ho
    exact (hseeded.set o w hw).2.2.1
  · cases hval : (q.facts b).availVal with
    | some w => exact hown b w hloc hval
    | none =>
      cases hb : (q.startAvailability s).1.availAtExit b with
      | none => rfl
      | some w =>
        rw [(hseeded.set b w hb).2.1] at hval
        cases hval
  · obtain ⟨hloc, hval, -⟩ := hseeded.set b w hb
    rw [availEquation, if_pos hloc, hval]
  · obtain ⟨hloc, hval, -⟩ := hseeded.set b w hb
    rw [← hy, availEquation, if_pos hloc, hval]
  · unfold availEquation at hb
    split at hb
    · next hloc => exact .inl (hown b w hloc hb)
    · split at hb
      · obtain ⟨hne, hall⟩ := commonVal_eq_some.1 hb
        obtain ⟨p, hp⟩ := exists_mem_of_ne_nil _ hne
        exact .inr ((hseeded.set p w (hall p hp)).2.2.2 b (Function.mem_succs_of_mem_preds hp))
      · cases hb
  · rw [heq]
  · rw [heq]

/-! ### The availability of an expression -/

/-- What is known when an expression has been analyzed; `s` is the state its availability was
computed from. -/
structure Available (q : Query) (s t : State) : Prop where
  known : Known q t
  availSet : ∀ o, t.availAtExit o ≠ none → o ∈ t.availSet
  least : q.IsLeastAvail t.availAtExit
  antIn : t.antIn = s.antIn
  antSet : t.antSet = s.antSet

theorem available_of_drains (hs : Known q s) (hclean : ∀ o, s.availAtExit o ≠ none → o ∈ s.availSet)
    (h : Drains q.availVisit (q.startAvailability s).1 (q.startAvailability s).2 t) :
    Available q s t := by
  have hend : Spreading q s [] t := h.invariant (I := fun u todo => Spreading q s todo u)
    (fun _ _ _ hperm h => { h with
      pending := fun b v hb => (h.pending b v hb).imp_right hperm.mem_iff.1 })
    (fun _ _ _ h => h.visit.1) (startAvailability_spec hs hclean).1
  exact ⟨hend.known, hend.availSet, hend.isLeast, hend.antIn, hend.antSet⟩

theorem computeAvailability_ends (hs : Known q s)
    (hclean : ∀ o, s.availAtExit o ≠ none → o ∈ s.availSet) :
    ∃ n t, (∀ m, n ≤ m → q.computeAvailability m s = some t) ∧ Available q s t := by
  obtain ⟨hstart, hlt⟩ := startAvailability_spec hs hclean
  obtain ⟨n, t, hend⟩ := drain_ends q.availVisit (s := (q.startAvailability s).1) (P := fun b => b < q.fn.blocks.length)
    (I := fun u => Spreading q s (range q.fn.blocks.length) u)
    (c := fun u => remaining (range q.fn.blocks.length) (fun c => (q.fn.succs c).length)
      fun c => (u.availAtExit c).isNone)
    (fun u b hu hb => by
      have hmem : ∀ c, c ∈ range q.fn.blocks.length → c ∈ b :: range q.fn.blocks.length :=
        fun c hc => mem_cons_of_mem _ hc
      have hpending : Spreading q s (b :: range q.fn.blocks.length) u :=
        { hu with pending := fun c v hc => (hu.pending c v hc).imp_right (hmem c) }
      obtain ⟨hvisit, hcases⟩ := hpending.visit
      have hsuccs : ∀ c ∈ (q.availVisit u b).2, c < q.fn.blocks.length := by
        rcases hcases with ⟨hnil, -⟩ | ⟨hsuccs, -⟩
        · rw [hnil]
          exact fun c hc => absurd hc not_mem_nil
        · rw [hsuccs]
          exact fun c hc => Function.succs_lt hc
      refine ⟨{ hvisit with pending := fun c v hc => (hvisit.pending c v hc).imp_right fun h => ?_ },
        hsuccs, ?_⟩
      · rcases mem_append.1 h with h | h
        · exact mem_range.2 (hsuccs c h)
        · exact h
      · rcases hcases with ⟨hnil, havail⟩ | ⟨hsuccs, hnone, v, havail⟩
        · rw [hnil, havail, length_nil, Nat.zero_add]
        · rw [hsuccs, havail]
          have hdrop := remaining_drop (fun c => (q.fn.succs c).length)
            (fun c => (u.availAtExit c).isNone)
            (fun c => (Function.update u.availAtExit b (some v) c).isNone)
            nodup_range (mem_range.2 hb) (by simp [hnone]) (by simp)
            (fun c hc => by simp [hc])
          omega)
    { hstart with
      pending := fun b v hb => (hstart.pending b v hb).imp_right fun hb =>
        mem_range.2 (hlt b hb) }
    fun b (hb : b ∈ (q.startAvailability s).2.reverse) => hlt b (mem_reverse.1 hb)
  refine ⟨n, t, hend, available_of_drains hs hclean ?_⟩
  exact (drains_of_drain (hend n le_rfl)).of_perm (reverse_perm _).symm

/-! ### One expression after another -/

/-- The answers for an expression are those of the equations over full scans of the blocks, and
visiting blocks in another order would give the same. -/
structure Exact (q : Query) (u t : State) : Prop where
  facts : ∀ b, (t.localInfo b).evaluations = (q.facts b).evaluations ∧
    (t.localInfo b).antLoc = (q.facts b).antLoc ∧ (q.transparent t b).1 = (q.facts b).transp ∧
    (t.localInfo b).availLoc = (q.facts b).availLoc ∧ (t.localInfo b).availVal = (q.facts b).availVal
  antIn : IsGreatest {x | q.antEquation x = x} t.antIn
  availAtExit : q.IsLeastAvail t.availAtExit
  anyOrder : ∀ t', Drains q.availVisit (q.startAvailability u).1 (q.startAvailability u).2 t' →
    t'.availAtExit = t.availAtExit

theorem analyze_ends {fuel : Nat} (hexit : q.fn.noExitBlocks fuel = some noExit) (hs : s.Clean) :
    ∃ n u t, (∀ m, n ≤ m →
        q.computeAnticipation noExit m (q.computeLocalInfo s.resetLocal) = some u ∧
          q.analyze noExit m s = some t) ∧ t.Clean ∧ Exact q u t := by
  have hlocal : q.computeLocalInfo s.resetLocal = _ := computeLocalInfo_eq
  obtain ⟨n₁, u, hant, hu⟩ := computeAnticipation_ends hexit (known_computeLocalInfo hs) (by
    rw [hlocal]
    exact hs.antIn)
  have hclean : ∀ o, u.availAtExit o ≠ none → o ∈ u.availSet := by
    rw [hu.availAtExit, hu.availSet, hlocal]
    exact hs.availAtExit
  obtain ⟨n₂, t, havail, ht⟩ := computeAvailability_ends hu.known hclean
  refine ⟨max n₁ n₂, u, t, fun m hm => ⟨hant m (le_trans (le_max_left _ _) hm), ?_⟩,
    ht.known.clean (fun o ho => ?_) ht.availSet, fun b => ?_, ?_, ht.least, fun t' h => ?_⟩
  · unfold analyze
    rw [hant m (le_trans (le_max_left _ _) hm)]
    exact havail m (le_trans (le_max_right _ _) hm)
  · rw [ht.antIn] at ho
    rw [ht.antSet]
    exact (hu.antSet o).2 ho
  · exact ⟨ht.known.evaluations b, ht.known.antLoc b, (ht.known.transparent b).1,
      ht.known.availLoc b, ht.known.availVal b⟩
  · rw [ht.antIn]
    exact hu.greatest
  · exact (available_of_drains hu.known hclean h).least.unique ht.least

end Query

theorem foldlM_analyze_ends {f : Function} (aa : AliasAnalysis) {noExit : List Nat} {fuel : Nat}
    (hexit : f.noExitBlocks fuel = some noExit) (asked : List (PreExpression × Option Position))
    {s : State} (hs : s.Clean) :
    ∃ n t, (∀ m, n ≤ m →
      asked.foldlM (fun s e => (Query.mk f aa e.1 e.2).analyze noExit m s) s = some t) ∧ t.Clean := by
  induction asked generalizing s with
  | nil => exact ⟨0, s, fun _ _ => rfl, hs⟩
  | cons e asked ih =>
    obtain ⟨n₁, _, u, hend, hu, -⟩ := Query.analyze_ends (q := ⟨f, aa, e.1, e.2⟩) hexit hs
    obtain ⟨n₂, t, hrest, ht⟩ := ih hu
    refine ⟨max n₁ n₂, t, fun m hm => ?_, ht⟩
    rw [foldlM_cons, (hend m (le_trans (le_max_left _ _) hm)).2]
    exact hrest m (le_trans (le_max_right _ _) hm)

/-- Whatever the dataflow was asked about before, it ends and its answers are exact. -/
theorem analyze_exact (f : Function) (aa : AliasAnalysis)
    (asked : List (PreExpression × Option Position)) (expr : PreExpression)
    (exemplar : Option Position) :
    ∃ n noExit s u t, (∀ m, n ≤ m → f.noExitBlocks m = some noExit ∧
        analyzeAll f aa m asked = some s ∧
        (Query.mk f aa expr exemplar).computeAnticipation noExit m
          ((Query.mk f aa expr exemplar).computeLocalInfo s.resetLocal) = some u ∧
        analyzeAll f aa m (asked ++ [(expr, exemplar)]) = some t) ∧
      (Query.mk f aa expr exemplar).Exact u t := by
  obtain ⟨n₁, noExit, hexit⟩ := f.noExitBlocks_ends
  obtain ⟨n₂, s, hasked, hs⟩ :=
    foldlM_analyze_ends aa (hexit n₁ le_rfl) asked State.clean_init
  obtain ⟨n₃, u, t, hend, -, hexact⟩ :=
    Query.analyze_ends (q := ⟨f, aa, expr, exemplar⟩) (hexit n₁ le_rfl) hs
  refine ⟨max n₁ (max n₂ n₃), noExit, s, u, t, fun m hm => ?_, hexact⟩
  have hm₁ := hexit m (le_trans (le_max_left _ _) hm)
  have hm₂ := hasked m (le_trans (le_trans (le_max_left _ _) (le_max_right _ _)) hm)
  have hm₃ := hend m (le_trans (le_trans (le_max_right _ _) (le_max_right _ _)) hm)
  have hall : analyzeAll f aa m asked = some s := by
    unfold analyzeAll
    rw [hm₁]
    exact hm₂
  refine ⟨hm₁, hall, hm₃.1, ?_⟩
  unfold analyzeAll
  rw [hm₁]
  simp only [Option.bind_eq_bind, Option.bind_some, List.foldlM_append, hm₂, List.foldlM_cons,
    hm₃.2, List.foldlM_nil, Option.pure_def]

end Brass.Mir.Pre
