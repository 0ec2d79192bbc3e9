import Brass.Codegen.PieceQueries
import Mathlib.Algebra.Order.BigOperators.Group.List

/-!
# The data of a function is well formed

What `ScanData.of` computes has what the scan relies on (`wellFormed_of`): live intervals are
built from ranges inside the function and stay separated, the ids of the instructions increase
in layout order, and with them the constrained ids, the blocks and the windows.
-/

namespace Brass.Codegen

open Brass.Util List

/-! ## Positions -/

namespace LirFunction

variable {fn : LirFunction} {b b' : Nat} {e : Nat × Inst}

theorem getD_startIds (id : Nat) (bs : List LirBlock) (hb : b < bs.length) :
    (startIds id bs).getD b 0 =
      id + 2 * ((bs.take b).map (fun b => b.instructions.length)).sum := by
  induction bs generalizing id b with
  | nil => cases hb
  | cons bl bs ih =>
    cases b with
    | zero => simp [startIds]
    | succ b =>
      rw [startIds, getD_cons_succ, ih _ (by simpa using hb)]
      simp only [take_succ_cons, map_cons, sum_cons]
      omega

/-- The number of instructions in the first `b` blocks. -/
def countBefore (fn : LirFunction) (b : Nat) : Nat :=
  ((fn.blocks.take b).map (fun b => b.instructions.length)).sum

theorem countBefore_mono (h : b ≤ b') : fn.countBefore b ≤ fn.countBefore b' := by
  have htake : (fn.blocks.take b).Sublist (fn.blocks.take b') := by
    rw [← Nat.min_eq_left h, ← take_take]
    exact take_sublist _ _
  exact (htake.map _).sum_le_sum (by simp)

theorem countBefore_succ (hb : b < fn.blocks.length) :
    fn.countBefore (b + 1) = fn.countBefore b + (fn.block b).instructions.length := by
  simp only [countBefore, block, take_add_one, getElem?_eq_getElem hb,
    getD_eq_getElem?_getD, Option.toList_some, Option.getD_some, map_append,
    sum_append, map_cons, map_nil, sum_cons, sum_nil, Nat.add_zero]

theorem startId_eq (hb : b < fn.blocks.length) : fn.startId b = 2 * fn.countBefore b := by
  rw [startId, getD_startIds 0 fn.blocks hb, Nat.zero_add, countBefore]

theorem startId_add_le (h : b < b') (hb' : b' < fn.blocks.length) :
    fn.startId b + 2 * (fn.block b).instructions.length ≤ fn.startId b' := by
  have hb : b < fn.blocks.length := Nat.lt_trans h hb'
  have hmono : fn.countBefore (b + 1) ≤ fn.countBefore b' := countBefore_mono (Nat.succ_le_of_lt h)
  rw [countBefore_succ hb] at hmono
  rw [startId_eq hb, startId_eq hb']
  omega

theorem startId_add_le_count (hb : b < fn.blocks.length) :
    fn.startId b + 2 * (fn.block b).instructions.length ≤ 2 * fn.instCount := by
  have hmono : fn.countBefore (b + 1) ≤ fn.countBefore fn.blocks.length :=
    countBefore_mono (Nat.succ_le_of_lt hb)
  rw [countBefore_succ hb] at hmono
  have hall : fn.countBefore fn.blocks.length = fn.instCount := by
    rw [countBefore, take_length, instCount]
  rw [startId_eq hb]
  omega

theorem mem_numbered (h : e ∈ fn.numbered b) :
    fn.startId b ≤ e.1 ∧ e.1 + 2 ≤ fn.startId b + 2 * (fn.block b).instructions.length := by
  unfold numbered at h
  obtain ⟨i, hi, rfl⟩ := mem_mapIdx.mp h
  dsimp only
  omega

theorem numbered_pairwise (b : Nat) : (fn.numbered b).Pairwise (fun x y => x.1 < y.1) := by
  rw [pairwise_iff_getElem]
  intro i j hi hj hij
  simp only [numbered, getElem_mapIdx]
  omega

end LirFunction

/-! ## Intervals -/

/-- The segments are separated and end at `bound` at the latest. -/
structure LiveInterval.Within (bound : Nat) (iv : LiveInterval) : Prop where
  separated : Separated iv.segments
  le : ∀ seg ∈ iv.segments, seg.stop ≤ bound

namespace LiveInterval.Within

variable {bound s e : Nat} {iv : LiveInterval}

theorem mem_mergeRange {segs : List LiveRangeSegment} {seg : LiveRangeSegment}
    (hseg : seg ∈ LiveInterval.mergeRange segs s e) (hle : ∀ seg ∈ segs, seg.stop ≤ bound)
    (he : e ≤ bound) : seg.stop ≤ bound := by
  unfold LiveInterval.mergeRange at hseg
  dsimp only at hseg
  rcases mem_append.mp hseg with hseg | hseg
  · exact hle seg (mem_of_mem_take hseg)
  · rcases mem_cons.mp hseg with rfl | hseg
    · split
      · rename_i first last hfirst hlast
        have := hle last (mem_of_mem_drop (mem_of_mem_take (mem_of_getLast? hlast)))
        show max e last.stop ≤ bound
        omega
      · exact he
    · exact hle seg (mem_of_mem_drop (mem_of_mem_drop hseg))

theorem addRange (h : iv.Within bound) (he : e ≤ bound) : (iv.addRange s e).Within bound := by
  refine ⟨addRange_separated h.separated, ?_⟩
  unfold LiveInterval.addRange
  split
  · exact h.le
  · exact fun seg hseg => mem_mergeRange hseg h.le he

theorem cutAt_stop {fromId : Nat} {segs segs' : List LiveRangeSegment}
    (hle : ∀ seg ∈ segs, seg.stop ≤ bound) (hcut : LiveInterval.cutAt fromId segs = some segs') :
    ∀ seg ∈ segs', seg.stop ≤ bound := by
  induction segs generalizing segs' with
  | nil => cases hcut
  | cons x segs ih =>
    rw [LiveInterval.cutAt] at hcut
    split at hcut
    · cases hcut
      intro seg hseg
      rcases mem_cons.mp hseg with rfl | hseg
      · exact hle x (by simp)
      · exact hle seg (mem_cons_of_mem _ hseg)
    · obtain ⟨cut, hcut', rfl⟩ := Option.map_eq_some_iff.mp hcut
      intro seg hseg
      rcases mem_cons.mp hseg with rfl | hseg
      · exact hle seg (by simp)
      · exact ih (fun y hy => hle y (mem_cons_of_mem _ hy)) hcut' seg hseg

theorem shortenStart {fromId : Nat} (h : iv.Within bound) (he : fromId + 1 ≤ bound) :
    (iv.shortenStart fromId).Within bound := by
  refine ⟨shortenStart_separated h.separated fromId, ?_⟩
  unfold LiveInterval.shortenStart
  split
  · intro seg hseg
    rw [mem_singleton.mp hseg]
    exact he
  · split
    · exact (h.addRange he).le
    · rename_i hcut
      exact cutAt_stop h.le hcut

end LiveInterval.Within

theorem forall_mem_modify {α : Type} {P : α → Prop} {l : List α} (n : Nat) {f : α → α}
    (hl : ∀ x ∈ l, P x) (hf : ∀ x, P x → P (f x)) : ∀ x ∈ l.modify n f, P x := by
  intro x hx
  obtain ⟨i, hi⟩ := mem_iff_getElem?.mp hx
  rw [getElem?_modify] at hi
  split at hi
  · obtain ⟨y, hy, rfl⟩ := Option.map_eq_some_iff.mp hi
    exact hf y (hl y (mem_of_getElem? hy))
  · simp only [id_map'] at hi
    exact hl x (mem_of_getElem? (by simpa using hi))

def AllWithin (bound : Nat) (ivs : List LiveInterval) : Prop := ∀ iv ∈ ivs, iv.Within bound

namespace LirFunction

variable {fn : LirFunction} {bound id liveFrom : Nat} {ivs : List LiveInterval}

theorem addUseAt_within (h : AllWithin bound ivs) (hid : id ≤ bound) (requiresReg : Bool)
    (fixed : PReg) (v : VReg) : AllWithin bound (addUseAt liveFrom id requiresReg fixed ivs v) := by
  unfold addUseAt
  split
  · exact forall_mem_modify _ h (fun iv hiv =>
      @LiveInterval.Within.addRange _ _ _ (iv.addUsePos id false requiresReg fixed)
        ⟨hiv.separated, hiv.le⟩ hid)
  · exact h

theorem addDefAt_within (h : AllWithin bound ivs) (hid : id + 1 ≤ bound) (fixed : PReg) (v : VReg) :
    AllWithin bound (addDefAt id fixed ivs v) := by
  unfold addDefAt
  split
  · exact forall_mem_modify _ h (fun iv hiv =>
      @LiveInterval.Within.shortenStart _ (iv.addUsePos id true true fixed) _
        ⟨hiv.separated, hiv.le⟩ hid)
  · exact h

theorem addInstRanges_within (exits : List (UInt32 × Inst)) {e : Nat × Inst}
    (h : AllWithin bound ivs) (he : e.1 + 1 ≤ bound) :
    AllWithin bound (addInstRanges exits liveFrom ivs e) := by
  have hle : e.1 ≤ bound := Nat.le_of_succ_le he
  have huses : ∀ (ivs : List LiveInterval) (vs : List VReg) (requiresReg : Bool),
      AllWithin bound ivs → AllWithin bound (vs.foldl (addUseAt liveFrom e.1 requiresReg {}) ivs) :=
    fun ivs vs requiresReg hivs => foldlRecOn vs _ hivs
      (fun ivs hivs v _ => addUseAt_within hivs hle requiresReg {} v)
  unfold addInstRanges
  dsimp only
  refine foldlRecOn (motive := AllWithin bound) _ _ ?_ (fun ivs hivs u _ => ?_)
  · split
    on_goal 1 => refine huses _ _ _ ?_
    all_goals
      refine foldlRecOn (motive := AllWithin bound) _ _ h (fun ivs hivs d _ => ?_)
      split
      · exact addDefAt_within hivs he _ _
      · exact huses _ _ _ hivs
  · split
    · exact addUseAt_within hivs hle _ _ _
    · exact huses _ _ _ hivs

/-- Every range ends before the position after the last instruction. -/
theorem buildIntervals_within (table : List (List Nat)) :
    AllWithin (2 * fn.instCount + 1) (fn.buildIntervals table) := by
  intro iv hiv
  obtain ⟨iv, hmem, rfl⟩ := mem_map.mp hiv
  suffices hall : AllWithin (2 * fn.instCount + 1)
      ((range fn.blocks.length).reverse.foldl (fn.addBlockRanges table)
        (fn.vregTable.map (fun v => { vreg := v }))) from
    ⟨(hall iv hmem).separated, (hall iv hmem).le⟩
  refine foldlRecOn (motive := AllWithin (2 * fn.instCount + 1)) _ _ ?_ ?_
  · intro iv hiv
    obtain ⟨v, -, rfl⟩ := mem_map.mp hiv
    exact ⟨separated_nil, by simp⟩
  · intro ivs hivs b hb
    have hcount := startId_add_le_count (mem_range.mp (mem_reverse.mp hb))
    have hend : fn.endId b + 1 ≤ 2 * fn.instCount + 1 := by
      rw [endId]
      omega
    unfold addBlockRanges
    dsimp only
    have hout : AllWithin (2 * fn.instCount + 1) ((fn.liveOut table b).foldl
        (fun ivs v => ivs.modify v (fun iv => iv.addRange (fn.liveFrom b) (fn.endId b + 1))) ivs) :=
      foldlRecOn _ _ hivs (fun ivs hivs v _ =>
        forall_mem_modify v hivs (fun iv hiv => hiv.addRange hend))
    split
    · exact hout
    · refine foldlRecOn (motive := AllWithin (2 * fn.instCount + 1)) _ _ hout
        (fun ivs hivs e he => ?_)
      have hid := (mem_numbered (mem_reverse.mp he)).2
      exact addInstRanges_within _ hivs (by omega)

end LirFunction

theorem markFoldedUses_within {bound : Nat} (arch : Arch) (fn : LirFunction)
    (ranges : List BlockRange) {ivs : List LiveInterval} (h : AllWithin bound ivs) :
    AllWithin bound (markFoldedUses arch fn ranges ivs) := by
  unfold markFoldedUses
  split
  · exact h
  · refine foldlRecOn (motive := AllWithin bound) _ _ h (fun ivs hivs b _ => ?_)
    refine foldlRecOn (motive := AllWithin bound) _ _ hivs (fun ivs hivs e _ => ?_)
    split
    · refine forall_mem_modify _ hivs (fun iv hiv => ?_)
      unfold foldUseAt
      dsimp only
      split
      · exact ⟨hiv.separated, hiv.le⟩
      · exact hiv
    · exact hivs

/-! ## Sorted tables -/

theorem constraintIndex_pairwise (cc : CallingConv) (fn : LirFunction) (cls : RegClass) :
    (constraintIndex cc fn cls).Pairwise (fun a b => a.1 < b.1) := by
  unfold constraintIndex
  have hmem : ∀ b, ∀ x ∈ ((fn.numbered b).zip
      (computeHeldPregs (fn.block b).instructions)).filterMap (fun e =>
        (constraintWord cc fn.reservedGprs cls e.1.2 e.2).map (fun w => (e.1.1, w))),
      ∃ e ∈ fn.numbered b, e.1 = x.1 := by
    intro b x hx
    obtain ⟨e, he, hex⟩ := mem_filterMap.mp hx
    obtain ⟨w, -, rfl⟩ := Option.map_eq_some_iff.mp hex
    exact ⟨e.1, (of_mem_zip he).1, rfl⟩
  refine pairwise_flatMap.mpr ⟨fun b _ => ?_, ?_⟩
  · refine pairwise_filterMap.mpr ?_
    have hzip : ((fn.numbered b).zip (computeHeldPregs (fn.block b).instructions)).Pairwise
        (fun x y => x.1.1 < y.1.1) := by
      rw [pairwise_iff_getElem]
      intro i j hi hj hij
      simp only [length_zip] at hi hj
      simp only [getElem_zip]
      exact pairwise_iff_getElem.mp (fn.numbered_pairwise b) i j (by omega) (by omega) hij
    refine hzip.imp (fun {x y} hxy a ha b hb => ?_)
    obtain ⟨w, -, rfl⟩ := Option.map_eq_some_iff.mp ha
    obtain ⟨w', -, rfl⟩ := Option.map_eq_some_iff.mp hb
    exact hxy
  · refine pairwise_lt_range.imp_of_mem (fun {b b'} _ hb' hlt x hx y hy => ?_)
    obtain ⟨e, he, hex⟩ := hmem b x hx
    obtain ⟨e', he', hey⟩ := hmem b' y hy
    have h₁ := LirFunction.mem_numbered he
    have h₂ := LirFunction.mem_numbered he'
    have h₃ := LirFunction.startId_add_le hlt (mem_range.mp hb')
    omega

theorem blockRanges_pairwise (fn : LirFunction) :
    fn.blockRanges.Pairwise (fun a b => a.startId < b.startId) := by
  unfold LirFunction.blockRanges
  dsimp only
  refine pairwise_map.mpr ?_
  refine (pairwise_lt_range.sublist filter_sublist).imp_of_mem (fun {b b'} hb hb' hlt => ?_)
  obtain ⟨-, hne⟩ := mem_filter.mp hb
  have h := LirFunction.startId_add_le hlt (mem_range.mp (mem_filter.mp hb').1)
  have hpos : 0 < (fn.block b).instructions.length := length_pos_iff.mpr (by simpa using hne)
  show fn.startId b < fn.startId b'
  omega

theorem map_start_buildBlockSpans (fn : LirFunction) (before ranges : List BlockRange) :
    (buildBlockSpans fn before ranges).map BlockSpan.start = ranges.map BlockRange.startId := by
  induction ranges generalizing before with
  | nil => rfl
  | cons r ranges ih =>
    rw [buildBlockSpans, map_cons, map_cons, ih]
    rfl

theorem noSplitWindows_pairwise (fn : LirFunction) :
    fn.noSplitWindows.Pairwise (fun a b => a.1 ≤ b.1) := by
  unfold LirFunction.noSplitWindows
  set r : Nat × Nat → Nat × Nat → Prop := fun a b => a.1 < b.1 ∨ (a.1 = b.1 ∧ a.2 ≤ b.2) with hr
  have : Std.Total r := ⟨fun a b => by simp only [hr]; omega⟩
  have : IsTrans (Nat × Nat) r := ⟨fun a b c => by simp only [hr]; omega⟩
  exact (pairwise_insertionSort r _).imp (fun {a b} hab => by simp only [hr] at hab; omega)

/-! ## Pools -/

theorem map_gpr_pool {codes : List UInt8} (h : ∀ c ∈ codes, c < 32) {r : PReg}
    (hr : r ∈ codes.map PReg.gpr) : r.regClass = .gpr ∧ r.code < 32 := by
  obtain ⟨c, hc, rfl⟩ := mem_map.mp hr
  exact ⟨rfl, h c hc⟩

theorem availableGprs_pool (cc : CallingConv) (reserved : BitVec 32) {r : PReg}
    (hr : r ∈ availableGprs cc reserved) : r.regClass = .gpr ∧ r.code < 32 := by
  unfold availableGprs at hr
  split at hr
  · rcases mem_append.mp hr with hr | hr
    · rcases mem_append.mp hr with hr | hr
      · exact map_gpr_pool (by simp) hr
      · split at hr
        · rw [mem_singleton.mp hr]
          exact ⟨rfl, by decide⟩
        · cases hr
    · exact map_gpr_pool (fun c hc => (by simp : ∀ c ∈
        ([19, 20, 21, 22, 23, 24, 25, 26, 27, 28] : List UInt8), c < 32) c (mem_filter.mp hc).1) hr
  · exact map_gpr_pool (fun c hc => (by simp : ∀ c ∈
      ([0, 1, 2, 8, 9, 3, 6, 7, 12, 13, 14, 15] : List UInt8), c < 32) c (mem_filter.mp hc).1) hr

theorem availableXmms_pool (cc : CallingConv) {r : PReg} (hr : r ∈ availableXmms cc) :
    r.regClass = .xmm ∧ r.code < 32 := by
  unfold availableXmms at hr
  split at hr <;>
  · obtain ⟨c, hc, rfl⟩ := mem_map.mp hr
    refine ⟨rfl, ?_⟩
    revert c
    simp [PReg.xmm]

/-! ## The data -/

/-- No life ends at position 0: what the first instruction reads was written before. -/
def ScanData.EndsLater (d : ScanData) : Prop :=
  ∀ iv ∈ d.intervals, ∀ seg ∈ iv.segments, 0 < seg.stop

instance (d : ScanData) : Decidable d.EndsLater :=
  inferInstanceAs (Decidable (∀ iv ∈ d.intervals, ∀ seg ∈ iv.segments, 0 < seg.stop))

theorem ScanData.wellFormed_of (fn : LirFunction) (cc : CallingConv)
    (hsize : 2 * fn.instCount + 1 < kNever) (hends : (ScanData.of fn cc).EndsLater) :
    (ScanData.of fn cc).WellFormed := by
  have hivs : AllWithin (2 * fn.instCount + 1) (ScanData.of fn cc).intervals :=
    markFoldedUses_within _ _ _ (LirFunction.buildIntervals_within _)
  refine ⟨fun iv hiv => (hivs iv hiv).separated, fun iv hiv seg hseg =>
    ⟨hends iv hiv seg hseg, Nat.lt_of_le_of_lt ((hivs iv hiv).le seg hseg) hsize⟩, ?_, ?_, ?_,
    noSplitWindows_pairwise fn⟩
  · intro cls
    cases cls
    · exact constraintIndex_pairwise cc fn .gpr
    · exact constraintIndex_pairwise cc fn .xmm
  · intro cls r hr
    cases cls
    · exact availableGprs_pool cc _ hr
    · exact availableXmms_pool cc hr
  · have hpw := blockRanges_pairwise fn
    rw [← pairwise_map (f := BlockRange.startId) (R := (· < ·)),
      ← map_start_buildBlockSpans fn []] at hpw
    exact pairwise_map.mp hpw

end Brass.Codegen
