import Brass.Codegen.LinearScanSound
import Brass.Codegen.RootIntervals

/-!
# The homes of references

The scan spills the piece of a reference whose interval spans a call when it takes it, and
touches no piece of it otherwise: what it does for another piece leaves the pieces of such a
reference as they are (`Aside`). So in every state of a run they are in their slot or wait to
be taken (`scanRun_atHome`).
-/

namespace Brass.Codegen

open ScanState List
open Brass.Util

namespace ScanData

variable {d : ScanData} {s t u : ScanState} {i k q pos v : Nat} {r : PReg}

/-! ## Pieces of other registers -/

/-- A reference whose interval spans a call and has a piece. -/
structure Homed (d : ScanData) (v : Nat) : Prop where
  lt : v < d.intervals.length
  valid : (d.interval v).vreg.isValid = true
  gcref : (d.interval v).vreg.isGcref = true
  spans : (d.interval v).spansCall = true
  segments : (d.interval v).segments ≠ []
  ends : (d.interval v).startId ≤ (d.interval v).endId

/-- A piece of another register. -/
def Loose (d : ScanData) (s : ScanState) (i : Nat) : Prop :=
  i < s.pieces.length ∧ ¬ d.Homed (s.piece i).base

/-- From `s` to `t` nothing happens to the pieces of the registers at home. -/
structure Aside (d : ScanData) (s t : ScanState) : Prop where
  length_le : s.pieces.length ≤ t.pieces.length
  homed : ∀ k < s.pieces.length, d.Homed (s.piece k).base → t.piece k = s.piece k
  loose : ∀ k < t.pieces.length, s.pieces.length ≤ k ∨ ¬ d.Homed (s.piece k).base → d.Loose t k
  piecesOf : ∀ v, d.Homed v → t.piecesOf v = s.piecesOf v
  active : ∀ a ∈ t.active, a ∈ s.active ∨ d.Loose t a
  unhandled : ∀ k ∈ s.unhandled, k ∈ t.unhandled
  waiting : ∀ k ∈ t.unhandled, k ∈ s.unhandled ∨ k < t.pieces.length

namespace Aside

theorem refl (s : ScanState) : d.Aside s s where
  length_le := Nat.le_refl _
  homed := fun _ _ _ => rfl
  loose := fun _ hk h => ⟨hk, h.resolve_left (Nat.not_le.mpr hk)⟩
  piecesOf := fun _ _ => rfl
  active := fun _ ha => .inl ha
  unhandled := fun _ hk => hk
  waiting := fun _ hk => .inl hk

theorem of_loose (h : d.Aside s t) (hi : d.Loose s i) : d.Loose t i :=
  h.loose i (Nat.lt_of_lt_of_le hi.1 h.length_le) (.inr hi.2)

theorem trans (h : d.Aside s t) (h' : d.Aside t u) : d.Aside s u where
  length_le := h.length_le.trans h'.length_le
  homed := by
    intro k hk hhome
    have hsame := h.homed k hk hhome
    rw [← hsame]
    exact h'.homed k (Nat.lt_of_lt_of_le hk h.length_le) (hsame ▸ hhome)
  loose := by
    intro k hk hor
    by_cases hkt : k < t.pieces.length
    · exact h'.of_loose (h.loose k hkt hor)
    · exact h'.loose k hk (.inl (Nat.le_of_not_lt hkt))
  piecesOf := fun v hv => (h'.piecesOf v hv).trans (h.piecesOf v hv)
  active := by
    intro a ha
    rcases h'.active a ha with ha | ha
    · exact (h.active a ha).imp_right h'.of_loose
    · exact .inr ha
  unhandled := fun k hk => h'.unhandled k (h.unhandled k hk)
  waiting := by
    intro k hk
    rcases h'.waiting k hk with hk | hk
    · exact (h.waiting k hk).imp_right fun hk => Nat.lt_of_lt_of_le hk h'.length_le
    · exact .inr hk

end Aside

/-! ## Steps for a piece of another register -/

theorem setPiece_aside (hi : d.Loose s i) {f : AllocPiece → AllocPiece}
    (hbase : ∀ p, (f p).base = p.base) : d.Aside s (s.setPiece i f) where
  length_le := Nat.le_of_eq (length_setPiece f).symm
  homed := by
    intro k _ hhome
    rw [piece_setPiece, if_neg]
    rintro ⟨rfl, -⟩
    exact hi.2 hhome
  loose := by
    intro k hk hor
    have hks : k < s.pieces.length := length_setPiece (s := s) (i := i) f ▸ hk
    refine ⟨hk, ?_⟩
    rw [piece_setPiece]
    split
    · rw [hbase]
      exact hor.resolve_left (Nat.not_le.mpr hks)
    · exact hor.resolve_left (Nat.not_le.mpr hks)
  piecesOf := fun _ _ => rfl
  active := fun _ ha => .inl ha
  unhandled := fun _ hk => hk
  waiting := fun _ hk => .inl hk

theorem spill_aside (hi : d.Loose s i) : d.Aside s (s.spill i) :=
  setPiece_aside hi fun _ => rfl

theorem assign_aside (hi : d.Loose s i) (r : PReg) : d.Aside s (s.assign i r) := by
  have h : d.Aside s (s.setPiece i (fun p => { p with reg := r, spilled := false })) :=
    setPiece_aside hi fun _ => rfl
  refine ⟨h.length_le, h.homed, h.loose, h.piecesOf, fun a ha => ?_, h.unhandled, h.waiting⟩
  rcases mem_append.mp ha with ha | ha
  · exact .inl ha
  · rw [mem_singleton.mp ha]
    exact .inr (h.of_loose hi)

theorem pushUnhandled_aside (hk : k < s.pieces.length) : d.Aside s (s.pushUnhandled k) where
  length_le := Nat.le_refl _
  homed := fun _ _ _ => rfl
  loose := fun _ hk h => ⟨hk, h.resolve_left (Nat.not_le.mpr hk)⟩
  piecesOf := fun _ _ => rfl
  active := fun _ ha => .inl ha
  unhandled := fun _ hk => mem_append_left _ hk
  waiting := by
    intro j hj
    rcases mem_append.mp hj with hj | hj
    · exact .inl hj
    · rw [mem_singleton.mp hj]
      exact .inr hk

theorem splitPiece_aside (hi : d.Loose s i) (q : Nat) : d.Aside s (d.splitPiece s i q).2 where
  length_le := by
    rw [length_splitPiece]
    exact Nat.le_succ _
  homed := by
    intro k hk hhome
    rw [piece_splitPiece hi.1, if_neg (Nat.ne_of_lt hk), if_neg]
    rintro rfl
    exact hi.2 hhome
  loose := by
    intro k hk hor
    refine ⟨hk, ?_⟩
    rw [length_splitPiece] at hk
    rw [piece_splitPiece hi.1]
    split
    · exact hi.2
    · have hnot := hor.resolve_left (by omega)
      split <;> exact hnot
  piecesOf := by
    intro v hv
    have hne : (s.piece i).base ≠ v := fun h => hi.2 (h ▸ hv)
    simp only [ScanState.piecesOf, splitPiece, getD_eq_getElem?_getD]
    rw [getElem?_set_ne hne]
  active := fun _ ha => .inl ha
  unhandled := fun _ hk => hk
  waiting := fun _ hk => .inl hk

theorem splitPiece_loose (hi : d.Loose s i) (q : Nat) :
    d.Loose (d.splitPiece s i q).2 s.pieces.length := by
  refine ⟨by rw [length_splitPiece]; exact Nat.lt_succ_self _, ?_⟩
  rw [piece_splitPiece hi.1, if_pos rfl]
  exact hi.2

theorem spillAndRequeue_aside (hi : d.Loose s i) (after : Nat) :
    d.Aside s (d.spillAndRequeue s i after) := by
  have hspill := spill_aside hi
  unfold spillAndRequeue
  dsimp only
  split
  · exact hspill
  · rename_i q _
    have hi' := hspill.of_loose hi
    exact (hspill.trans (splitPiece_aside hi' q)).trans
      (pushUnhandled_aside (splitPiece_loose hi' q).1)

theorem filter_aside (s : ScanState) (p : Nat → Bool) :
    d.Aside s { s with active := s.active.filter p } where
  length_le := Nat.le_refl _
  homed := fun _ _ _ => rfl
  loose := fun _ hk h => ⟨hk, h.resolve_left (Nat.not_le.mpr hk)⟩
  piecesOf := fun _ _ => rfl
  active := fun _ ha => .inl (mem_filter.mp ha).1
  unhandled := fun _ hk => hk
  waiting := fun _ hk => .inl hk

theorem evictFrom_aside (hi : d.Loose s i) (pos : Nat) : d.Aside s (d.evictFrom pos s i) := by
  have hfilter : d.Aside s { s with active := s.active.filter (· ≠ i) } := filter_aside s _
  have hi' := hfilter.of_loose hi
  unfold evictFrom
  dsimp only
  split
  · exact hfilter.trans (spill_aside hi')
  · split
    · exact hfilter.trans (spillAndRequeue_aside hi' pos)
    · rename_i q _
      have hsplit := splitPiece_aside hi' q
      exact (hfilter.trans hsplit).trans (spillAndRequeue_aside (splitPiece_loose hi' q) pos)

theorem foldl_aside {f : ScanState → Nat → ScanState} (hf : ∀ s a, d.Loose s a → d.Aside s (f s a))
    {as : List Nat} (has : ∀ a ∈ as, d.Loose s a) : d.Aside s (as.foldl f s) := by
  induction as generalizing s with
  | nil => exact Aside.refl s
  | cons a as ih =>
    have hstep := hf s a (has a mem_cons_self)
    rw [foldl_cons]
    exact hstep.trans (ih fun x hx => hstep.of_loose (has x (mem_cons_of_mem _ hx)))

theorem evictHolders_aside (i pos : Nat) {as : List Nat} (has : ∀ a ∈ as, d.Loose s a) :
    d.Aside s (d.evictHolders i pos s as) := by
  refine foldl_aside (fun s a ha => ?_) has
  split
  · exact evictFrom_aside ha pos
  · exact Aside.refl s

theorem tryAllocateFree_aside (hi : d.Loose s i) (ht : d.tryAllocateFree s i = some t) :
    d.Aside s t := by
  unfold tryAllocateFree at ht
  dsimp only at ht
  split at ht
  · cases ht
    exact assign_aside hi _
  · split at ht
    · cases ht
    · split at ht
      · cases ht
      · split at ht
        · cases ht
        · split at ht
          · cases ht
          · cases ht
            have hsplit := splitPiece_aside (d := d) hi
            generalize d.splitPosition _ _ = q
            have hplace := assign_aside ((hsplit q).of_loose hi)
            refine ((hsplit q).trans (hplace _)).trans (pushUnhandled_aside ?_)
            exact ((hplace _).of_loose (splitPiece_loose hi q)).1

section Take

variable (hi : d.Loose s i) (hactive : ∀ a ∈ s.active, d.Loose s a)

include hi hactive

theorem takeRegister_aside (wholeOnly : Bool) (first : Nat) (best : PReg) :
    d.Aside s (d.takeRegister s i (d.blocked s (s.piece i) wholeOnly) first best) := by
  have hold : ∀ a ∈ (d.blocked s (s.piece i) wholeOnly).holdersOf best, d.Loose s a :=
    fun a ha => hactive a (blocked_holders_active ha)
  unfold takeRegister
  dsimp only
  generalize limitOf (d.blocked s (s.piece i) wholeOnly).hardQ best = hard
  split
  · generalize (if hard > first then d.splitPosition (first + 1) hard else kNever) = q
    split
    · exact spillAndRequeue_aside hi _
    · have hpush := (splitPiece_aside hi q).trans (pushUnhandled_aside (splitPiece_loose hi q).1)
      have htake := hpush.trans (assign_aside (hpush.of_loose hi) best)
      exact htake.trans (evictHolders_aside i _ fun a ha => htake.of_loose (hold a ha))
  · have htake := assign_aside hi best
    exact htake.trans (evictHolders_aside i _ fun a ha => htake.of_loose (hold a ha))

theorem allocateBlocked_aside : d.Aside s (d.allocateBlocked s i) := by
  unfold allocateBlocked
  dsimp only
  split
  · split
    · exact spill_aside hi
    · rename_i best _
      have hevict : d.Aside s (((d.blocked s (s.piece i) true).holdersOf best).foldl
          (d.evictFrom (s.piece i).start) s) :=
        foldl_aside (fun s a ha => evictFrom_aside ha _)
          fun a ha => hactive a (blocked_holders_active ha)
      exact hevict.trans (assign_aside (hevict.of_loose hi) _)
  · split
    · exact spillAndRequeue_aside hi _
    · split_ifs
      · exact spillAndRequeue_aside hi _
      · exact spillAndRequeue_aside hi _
      · exact takeRegister_aside hi hactive _ _ _

end Take

/-! ## Runs -/

/-- The pieces of the registers at home reach over the whole life, and are in their slot or
wait to be taken. -/
structure AtHome (d : ScanData) (s : ScanState) : Prop where
  some : ∀ v, d.Homed v → s.piecesOf v ≠ []
  lt : ∀ v, d.Homed v → ∀ k ∈ s.piecesOf v, k < s.pieces.length
  whole : ∀ v, d.Homed v → ∀ k ∈ s.piecesOf v,
    (s.piece k).base = v ∧ (s.piece k).fromPos = 0 ∧ (s.piece k).toPos = kNever
  home : ∀ v, d.Homed v → ∀ k ∈ s.piecesOf v, (s.piece k).spilled = true ∨ k ∈ s.unhandled
  active : ∀ a ∈ s.active, d.Loose s a
  waiting : ∀ k ∈ s.unhandled, k < s.pieces.length

theorem AtHome.aside (h : d.AtHome s) (ha : d.Aside s t) : d.AtHome t := by
  have hsame : ∀ v, d.Homed v → ∀ k ∈ s.piecesOf v, t.piece k = s.piece k := fun v hv k hk =>
    ha.homed k (h.lt v hv k hk) ((h.whole v hv k hk).1 ▸ hv)
  refine ⟨fun v hv => ?_, fun v hv k hk => ?_, fun v hv k hk => ?_, fun v hv k hk => ?_,
    fun a hact => ?_, fun k hk => ?_⟩
  · rw [ha.piecesOf v hv]
    exact h.some v hv
  · rw [ha.piecesOf v hv] at hk
    exact Nat.lt_of_lt_of_le (h.lt v hv k hk) ha.length_le
  · rw [ha.piecesOf v hv] at hk
    rw [hsame v hv k hk]
    exact h.whole v hv k hk
  · rw [ha.piecesOf v hv] at hk
    rw [hsame v hv k hk]
    exact (h.home v hv k hk).imp_right (ha.unhandled k)
  · rcases ha.active a hact with hact | hloose
    · exact ha.of_loose (h.active a hact)
    · exact hloose
  · rcases ha.waiting k hk with hk | hk
    · exact Nat.lt_of_lt_of_le (h.waiting k hk) ha.length_le
    · exact hk

theorem scanStep_atHome (h : d.AtHome s) (ht : d.scanStep s = some t) : d.AtHome t := by
  unfold scanStep at ht
  obtain ⟨i, hi, ht⟩ := Option.map_eq_some_iff.mp ht
  dsimp only at ht
  have hlt := h.waiting i (nextPiece_mem hi)
  set u : ScanState := { s with
    unhandled := s.unhandled.filter (· ≠ i)
    active := s.active.filter (fun a => ¬ (s.piece a).stop ≤ (s.piece i).start) } with hu
  by_cases hhome : d.Homed (s.piece i).base
  · -- the piece goes to its slot
    rw [if_pos ⟨hhome.gcref, hhome.spans⟩] at ht
    subst ht
    have hlen : (u.spill i).pieces.length = s.pieces.length := length_setPiece _
    have hbase : ∀ k, ((u.spill i).piece k).base = (s.piece k).base ∧
        ((u.spill i).piece k).fromPos = (s.piece k).fromPos ∧
        ((u.spill i).piece k).toPos = (s.piece k).toPos := by
      intro k
      rw [piece_spill]
      split <;> exact ⟨rfl, rfl, rfl⟩
    refine ⟨h.some, fun v hv k hk => hlen ▸ h.lt v hv k hk, fun v hv k hk => ?_,
      fun v hv k hk => ?_, fun a ha => ?_, fun k hk => ?_⟩
    · obtain ⟨h₁, h₂, h₃⟩ := hbase k
      rw [h₁, h₂, h₃]
      exact h.whole v hv k hk
    · rw [piece_spill]
      by_cases hik : i = k
      · rw [if_pos ⟨hik, h.lt v hv k hk⟩]
        exact .inl rfl
      · rw [if_neg fun hh => hik hh.1]
        refine (h.home v hv k hk).imp_right fun hw => mem_filter.mpr ⟨hw, ?_⟩
        exact decide_eq_true (Ne.symm hik)
    · obtain ⟨hlt', hno⟩ := h.active a (mem_filter.mp ha).1
      refine ⟨hlen ▸ hlt', ?_⟩
      rw [(hbase a).1]
      exact hno
    · exact hlen ▸ h.waiting k (mem_filter.mp hk).1
  · have hloose : d.Loose u i := ⟨hlt, hhome⟩
    have hus : d.AtHome u := by
      refine ⟨h.some, h.lt, h.whole, fun v hv k hk => ?_,
        fun a ha => h.active a (mem_filter.mp ha).1,
        fun k hk => h.waiting k (mem_filter.mp hk).1⟩
      refine (h.home v hv k hk).imp_right fun hw => mem_filter.mpr ⟨hw, ?_⟩
      refine decide_eq_true fun hki => hhome ?_
      rw [← hki, (h.whole v hv k hk).1]
      exact hv
    split at ht
    · exact ht ▸ hus.aside (spill_aside hloose)
    · split at ht
      · rename_i t' htry
        exact ht ▸ hus.aside (tryAllocateFree_aside hloose htry)
      · exact ht ▸ hus.aside (allocateBlocked_aside hloose hus.active)

/-! ## The initial state -/

/-- Every piece waits and is the whole life of its register. -/
structure Entering (d : ScanData) (s : ScanState) : Prop where
  length : s.vregPieces.length = d.intervals.length
  active : s.active = []
  waiting : ∀ k ∈ s.unhandled, k < s.pieces.length
  whole : ∀ v, ∀ k ∈ s.piecesOf v, k ∈ s.unhandled ∧
    (s.piece k).base = v ∧ (s.piece k).fromPos = 0 ∧ (s.piece k).toPos = kNever

theorem addInterval_entering (h : d.Entering s) (iv : LiveInterval × Nat) :
    d.Entering (d.addInterval s iv) := by
  unfold addInterval
  split
  · exact h
  · dsimp only
    refine ⟨(length_modify ..).trans h.length, h.active, fun k hk => ?_, fun v k hk => ?_⟩
    · show k < (s.pieces ++ [_]).length
      rw [length_append, length_singleton]
      rcases mem_append.mp hk with hk | hk
      · exact Nat.lt_succ_of_lt (h.waiting k hk)
      · rw [mem_singleton.mp hk]
        exact Nat.lt_succ_self _
    · have hold : ∀ k, k ∈ s.piecesOf v → k < s.pieces.length := fun k hk =>
        h.waiting k (h.whole v k hk).1
      have hmem : k ∈ s.piecesOf v ∨ (k = s.pieces.length ∧ iv.2 = v) := by
        simp only [pushUnhandled, ScanState.piecesOf, getD_eq_getElem?_getD,
          getElem?_modify] at hk ⊢
        cases hv : s.vregPieces[v]? with
        | none =>
          rw [hv] at hk
          exact absurd hk not_mem_nil
        | some ks =>
          by_cases hiv : iv.2 = v
          · simp only [hv, if_pos hiv] at hk
            exact (mem_append.mp hk).imp_right fun hk => ⟨mem_singleton.mp hk, hiv⟩
          · simp only [hv, if_neg hiv] at hk
            exact .inl hk
      rcases hmem with hk | ⟨rfl, rfl⟩
      · obtain ⟨hw, hwhole⟩ := h.whole v k hk
        refine ⟨mem_append_left _ hw, ?_⟩
        simp only [piece, pushUnhandled, getD_eq_getElem?_getD] at hwhole ⊢
        rw [getElem?_append_left (hold k hk)]
        exact hwhole
      · refine ⟨mem_append_right _ (mem_singleton.mpr rfl), ?_⟩
        simp only [piece, pushUnhandled, getD_eq_getElem?_getD]
        rw [getElem?_append_right (Nat.le_refl _), Nat.sub_self]
        exact ⟨rfl, rfl, rfl⟩

theorem addIntervals_some (hv : d.Homed v) (hs : d.Entering s) :
    (d.intervals.zipIdx.foldl d.addInterval s).piecesOf v ≠ [] := by
  have hkeep : ∀ (s : ScanState) (iv : LiveInterval × Nat), s.piecesOf v ≠ [] →
      (d.addInterval s iv).piecesOf v ≠ [] := by
    intro s iv hne
    unfold addInterval
    split
    · exact hne
    · simp only [pushUnhandled, ScanState.piecesOf, getD_eq_getElem?_getD, getElem?_modify] at hne ⊢
      cases hget : s.vregPieces[v]? with
      | none =>
        rw [hget] at hne
        exact absurd rfl hne
      | some ks =>
        rw [hget] at hne
        by_cases hiv : iv.2 = v
        · simp [hiv]
        · simpa [hiv] using hne
  refine (foldl_brings (G := d.Entering) (P := fun s => s.piecesOf v ≠ []) hs
    (fun s iv _ h => addInterval_entering h iv) (fun s iv _ _ h => hkeep s iv h) (.inr ?_)).2
  refine ⟨(d.interval v, v), mem_zipIdx_iff_getElem?.mpr ?_, fun s h => ?_⟩
  · rw [interval, getD_eq_getElem?_getD, getElem?_eq_getElem hv.lt]
    rfl
  · unfold addInterval
    rw [if_neg]
    · have hlt : v < s.vregPieces.length := h.length ▸ hv.lt
      simp [pushUnhandled, ScanState.piecesOf, getElem?_eq_getElem hlt]
    · rintro (hno | hno | hno)
      · exact hno hv.valid
      · exact Nat.not_lt.mpr hv.ends hno
      · exact hv.segments hno

/-- Settling marks registers, and its candidates are no references. -/
theorem settleOne_loose (calls : List Nat) (st : ScanState × List Cand) (i : Nat) :
    (d.settleOne calls st i).1.vregPieces = st.1.vregPieces ∧
      ∀ c ∈ (d.settleOne calls st i).2, c ∈ st.2 ∨ c.1 = i ∧ ¬ d.Homed (st.1.piece i).base := by
  obtain ⟨s, cands⟩ := st
  unfold settleOne
  dsimp only
  split
  · exact ⟨rfl, fun c hc => .inl hc⟩
  · rename_i hno
    simp only [not_or, not_not] at hno
    have hloose : ¬ d.Homed (s.piece i).base := fun hh => hno.2.1 hh.gcref
    refine ⟨?_, ?_⟩
    · split_ifs <;> rfl
    · split_ifs
      · exact fun c hc => .inl hc
      · exact fun c hc => .inl hc
      all_goals
        intro c hc
        rcases mem_append.mp hc with hc | hc
        · exact .inl hc
        · rw [mem_singleton.mp hc]
          exact .inr ⟨rfl, hloose⟩

theorem takeCalleeSaved_aside (st : ScanState × List Nat) {c : Cand} (hc : d.Loose st.1 c.1) :
    d.Aside st.1 (d.takeCalleeSaved st c).1 ∧
      ∀ k ∈ (d.takeCalleeSaved st c).2, k ∈ st.2 ∨ k = c.1 := by
  obtain ⟨s, taken⟩ := st
  unfold takeCalleeSaved
  dsimp only
  split
  · exact ⟨Aside.refl s, fun k hk => .inl hk⟩
  · rename_i r _
    have h := assign_aside (d := d) hc r
    refine ⟨⟨h.length_le, h.homed, h.loose, h.piecesOf, h.active, h.unhandled, h.waiting⟩,
      fun k hk => ?_⟩
    exact (mem_append.mp hk).imp_right mem_singleton.mp

theorem initialState_atHome : d.AtHome d.initialState := by
  have hstart : d.Entering { vregPieces := replicate d.intervals.length []
                             unsplittable := d.unsplittable } := by
    refine ⟨length_replicate, rfl, by simp, fun v k hk => ?_⟩
    simp only [ScanState.piecesOf, getD_eq_getElem?_getD, getElem?_replicate] at hk
    split at hk <;> exact absurd hk not_mem_nil
  have hsome := fun v (hv : d.Homed v) => addIntervals_some hv hstart
  have hentering : d.Entering (d.intervals.zipIdx.foldl d.addInterval
      { vregPieces := replicate d.intervals.length [], unsplittable := d.unsplittable }) :=
    foldlRecOn _ _ hstart fun s hs iv _ => addInterval_entering hs iv
  unfold initialState
  generalize d.intervals.zipIdx.foldl d.addInterval _ = s at hsome hentering ⊢
  have hs : d.AtHome s := by
    refine ⟨hsome, fun v _ k hk => hentering.waiting k (hentering.whole v k hk).1,
      fun v _ k hk => (hentering.whole v k hk).2,
      fun v _ k hk => .inr (hentering.whole v k hk).1, fun a ha => ?_, hentering.waiting⟩
    rw [hentering.active] at ha
    exact absurd ha not_mem_nil
  unfold settleCallSpanning
  dsimp only
  generalize (d.gprConstraints.filter _).map Prod.fst = calls
  have hmarked : let st := s.unhandled.foldl (d.settleOne calls) (s, [])
      d.AtHome st.1 ∧ st.1.pieces = s.pieces ∧ ∀ c ∈ st.2, d.Loose s c.1 := by
    refine foldlRecOn (motive := fun st : ScanState × List Cand =>
      d.AtHome st.1 ∧ st.1.pieces = s.pieces ∧ ∀ c ∈ st.2, d.Loose s c.1) _ _
      ⟨hs, rfl, by simp⟩ fun st hst i hi => ?_
    obtain ⟨hst, hpieces, hcands⟩ := hst
    obtain ⟨h₁, h₂, h₃, -⟩ := settleOne_keeps (d := d) calls st i
    obtain ⟨h₄, h₅⟩ := settleOne_loose (d := d) calls st i
    generalize d.settleOne calls st i = st' at h₁ h₂ h₃ h₄ h₅ ⊢
    have haside : d.Aside st.1 st'.1 := by
      have hpiece : ∀ k, st'.1.piece k = st.1.piece k := fun k => by rw [piece, piece, h₁]
      refine ⟨Nat.le_of_eq (congrArg length h₁).symm, fun k _ _ => hpiece k,
        fun k hk hor => ?_, fun v _ => by rw [ScanState.piecesOf, ScanState.piecesOf, h₄],
        fun a ha => .inl (h₂ ▸ ha), fun k hk => h₃ ▸ hk, fun k hk => .inl (h₃ ▸ hk)⟩
      refine ⟨hk, ?_⟩
      rw [h₁] at hk
      rw [hpiece]
      exact hor.resolve_left (Nat.not_le.mpr hk)
    refine ⟨hst.aside haside, h₁.trans hpieces, fun c hc => ?_⟩
    rcases h₅ c hc with hc | ⟨rfl, hno⟩
    · exact hcands c hc
    · refine ⟨hs.waiting _ hi, ?_⟩
      rwa [piece, hpieces] at hno
  generalize s.unhandled.foldl (d.settleOne calls) (s, []) = st at hmarked ⊢
  obtain ⟨u, cands⟩ := st
  obtain ⟨hu, hpieces, hcands⟩ := hmarked
  dsimp only at hu hpieces hcands ⊢
  have hcands' : ∀ c ∈ cands, d.Loose u c.1 := fun c hc => by
    have := hcands c hc
    rwa [Loose, piece, ← hpieces] at this
  have htaken : ∀ sorted : List Cand, (∀ c ∈ sorted, d.Loose u c.1) →
      let st := sorted.foldl d.takeCalleeSaved (u, [])
      d.Aside u st.1 ∧ ∀ k ∈ st.2, d.Loose u k := by
    intro sorted hsorted
    refine foldlRecOn (motive := fun st : ScanState × List Nat =>
      d.Aside u st.1 ∧ ∀ k ∈ st.2, d.Loose u k) _ _ ⟨Aside.refl u, by simp⟩ fun st hst c hc => ?_
    obtain ⟨haside, hall⟩ := hst
    obtain ⟨h₁, h₂⟩ := takeCalleeSaved_aside st (haside.of_loose (hsorted c hc))
    refine ⟨haside.trans h₁, fun k hk => ?_⟩
    rcases h₂ k hk with hk | rfl
    · exact hall k hk
    · exact hsorted c hc
  specialize htaken (cands.insertionSort (fun a b =>
    a.2 > b.2 ∨ (a.2 = b.2 ∧ (u.piece a.1).seq ≤ (u.piece b.1).seq)))
    fun c hc => hcands' c ((mem_insertionSort _).mp hc)
  generalize foldl d.takeCalleeSaved (u, []) _ = st at htaken ⊢
  obtain ⟨w, taken⟩ := st
  obtain ⟨haside, hall⟩ := htaken
  have hw := hu.aside haside
  refine ⟨hw.some, hw.lt, hw.whole, fun v hv k hk => ?_, hw.active,
    fun k hk => hw.waiting k (mem_filter.mp hk).1⟩
  -- what took a register is no reference
  refine (hw.home v hv k hk).imp_right fun hwait => mem_filter.mpr ⟨hwait, ?_⟩
  refine decide_eq_true fun hk' => (hall k hk').2 ?_
  have hku : k ∈ u.piecesOf v := haside.piecesOf v hv ▸ hk
  rw [(hu.whole v hv k hku).1]
  exact hv

theorem scanRun_atHome (h : d.ScanRun s) : d.AtHome s := by
  induction h with
  | init => exact initialState_atHome
  | step _ ht ih => exact scanStep_atHome ih ht

end ScanData

end Brass.Codegen
