import Brass.Codegen.LiveGcrefs

/-!
# The intervals of references

A reference that is live behind a collection point has an interval that holds the point, so its
interval spans a call (`spansCall_of_live`). What a reader of the scan needs of an interval
besides its segments: it keeps the register of the table, and its ends hold its segments.
-/

namespace Brass.Codegen

open Brass.Util List ScanData

/-! ## Edits of an interval -/

/-- The ends hold the segments. -/
def LiveInterval.Bounded (iv : LiveInterval) : Prop :=
  ∀ seg ∈ iv.segments, iv.startId ≤ seg.start ∧ seg.stop ≤ iv.endId

/-- What `build_intervals` does to an interval. -/
inductive LiveInterval.Edit : (LiveInterval → LiveInterval) → Prop
  | range (s e : Nat) : Edit (fun iv => iv.addRange s e)
  | use (id s : Nat) (requiresReg : Bool) (fixed : PReg) :
    Edit (fun iv => (iv.addUsePos id false requiresReg fixed).addRange s id)
  | cut (id : Nat) (fixed : PReg) :
    Edit (fun iv => (iv.addUsePos id true true fixed).shortenStart id)

namespace LiveInterval

variable {iv : LiveInterval} {s e id : Nat}

theorem Bounded.addUsePos (h : iv.Bounded) (isDef requiresReg : Bool) (fixed : PReg) :
    (iv.addUsePos id isDef requiresReg fixed).Bounded := by
  intro seg hseg
  obtain ⟨h₁, h₂⟩ := h seg hseg
  exact ⟨Nat.le_trans (Nat.min_le_left _ _) h₁, Nat.le_trans h₂ (Nat.le_max_left _ _)⟩

theorem mergeRange_bounds {segs : List LiveRangeSegment} {lo hi : Nat}
    (h : ∀ seg ∈ segs, lo ≤ seg.start ∧ seg.stop ≤ hi) (hs : lo ≤ s) (he : e ≤ hi) :
    ∀ seg ∈ mergeRange segs s e, lo ≤ seg.start ∧ seg.stop ≤ hi := by
  intro seg hseg
  unfold mergeRange at hseg
  dsimp only at hseg
  rcases mem_append.mp hseg with hseg | hseg
  · exact h seg (mem_of_mem_take hseg)
  · rcases mem_cons.mp hseg with rfl | hseg
    · split
      · rename_i first last hfirst hlast
        have hf := h first (mem_of_mem_drop (mem_of_mem_take (mem_of_head? hfirst)))
        have hl := h last (mem_of_mem_drop (mem_of_mem_take (mem_of_getLast? hlast)))
        show lo ≤ min s first.start ∧ max e last.stop ≤ hi
        omega
      · exact ⟨hs, he⟩
    · exact h seg (mem_of_mem_drop (mem_of_mem_drop hseg))

theorem Bounded.addRange (h : iv.Bounded) : (iv.addRange s e).Bounded := by
  unfold LiveInterval.addRange
  split
  · exact h
  · refine mergeRange_bounds (fun seg hseg => ?_) (Nat.min_le_right _ _) (Nat.le_max_right _ _)
    obtain ⟨h₁, h₂⟩ := h seg hseg
    exact ⟨Nat.le_trans (Nat.min_le_left _ _) h₁, Nat.le_trans h₂ (Nat.le_max_left _ _)⟩

theorem foldl_min_le (segs : List LiveRangeSegment) (m : Nat) :
    segs.foldl (fun m seg => min m seg.start) m ≤ m ∧
      ∀ seg ∈ segs, segs.foldl (fun m seg => min m seg.start) m ≤ seg.start := by
  induction segs generalizing m with
  | nil => simp
  | cons seg segs ih =>
    obtain ⟨h₁, h₂⟩ := ih (min m seg.start)
    rw [foldl_cons]
    refine ⟨Nat.le_trans h₁ (Nat.min_le_left _ _), fun x hx => ?_⟩
    rcases mem_cons.mp hx with rfl | hx
    · exact Nat.le_trans h₁ (Nat.min_le_right _ _)
    · exact h₂ x hx

theorem Bounded.shortenStart (h : iv.Bounded) : (iv.shortenStart id).Bounded := by
  unfold LiveInterval.shortenStart
  split
  · intro seg hseg
    rw [mem_singleton.mp hseg]
    exact ⟨Nat.le_refl _, Nat.le_max_right _ _⟩
  · split
    · exact h.addRange
    · rename_i segs hcut
      intro seg hseg
      exact ⟨(foldl_min_le segs kNever).2 seg hseg,
        Within.cutAt_stop (fun seg hseg => (h seg hseg).2) hcut seg hseg⟩

theorem Edit.bounded {f : LiveInterval → LiveInterval} (hf : Edit f) (h : iv.Bounded) :
    (f iv).Bounded := by
  cases hf with
  | range s e => exact h.addRange
  | use id s requiresReg fixed => exact (h.addUsePos false requiresReg fixed).addRange
  | cut id fixed => exact (h.addUsePos true true fixed).shortenStart

theorem Edit.vreg {f : LiveInterval → LiveInterval} (hf : Edit f) : (f iv).vreg = iv.vreg := by
  have hrange : ∀ (iv : LiveInterval) s e, (iv.addRange s e).vreg = iv.vreg := by
    intro iv s e
    unfold addRange
    split <;> rfl
  cases hf with
  | range s e => exact hrange iv s e
  | use id s requiresReg fixed => exact hrange _ s id
  | cut id fixed =>
    dsimp only
    unfold shortenStart
    split
    · rfl
    · split
      · exact hrange _ _ _
      · rfl

end LiveInterval

namespace LirFunction

variable {fn : LirFunction} {ivs : List LiveInterval}

open LiveInterval

/-- What every edit keeps holds in the end. -/
theorem buildRanges_induct {Q : List LiveInterval → Prop} (table : List (List Nat))
    (hinit : Q (fn.vregTable.map (fun v => { vreg := v })))
    (hstep : ∀ ivs n f, Edit f → Q ivs → Q (ivs.modify n f)) :
    Q ((range fn.blocks.length).reverse.foldl (fn.addBlockRanges table)
      (fn.vregTable.map (fun v => { vreg := v }))) := by
  have huse : ∀ id liveFrom requiresReg fixed ivs (r : VReg), Q ivs →
      Q (addUseAt liveFrom id requiresReg fixed ivs r) := by
    intro id liveFrom requiresReg fixed ivs r h
    unfold addUseAt
    split
    · exact hstep ivs _ _ (Edit.use id liveFrom requiresReg fixed) h
    · exact h
  have huses : ∀ id liveFrom requiresReg fixed (rs : List VReg) ivs, Q ivs →
      Q (rs.foldl (addUseAt liveFrom id requiresReg fixed) ivs) := fun id liveFrom req fixed rs ivs h =>
    foldlRecOn rs _ h fun _ hb r _ => huse id liveFrom req fixed _ r hb
  have hinst : ∀ liveFrom ivs (e : Nat × Inst), Q ivs →
      Q (addInstRanges fn.guardExits liveFrom ivs e) := by
    intro liveFrom ivs e h
    refine foldlRecOn e.2.uses.zipIdx _ ?_ fun ivs hb u _ => ?_
    · have hdefs : Q (addDefs liveFrom e.1 e.2 ivs) := by
        refine foldlRecOn e.2.defs.zipIdx _ h fun ivs hb d _ => ?_
        split
        · unfold addDefAt
          split
          · exact hstep ivs _ _ (Edit.cut e.1 _) hb
          · exact hb
        · exact huses _ _ _ _ _ _ hb
      split
      · exact huses _ _ _ _ _ _ hdefs
      · exact hdefs
    · split
      · exact huse _ _ _ _ _ _ hb
      · exact huses _ _ _ _ _ _ hb
  refine foldlRecOn _ _ hinit fun ivs h b _ => ?_
  have hout : Q ((fn.liveOut table b).foldl
      (fun ivs v => ivs.modify v (fun iv => iv.addRange (fn.liveFrom b) (fn.endId b + 1))) ivs) :=
    foldlRecOn _ _ h fun ivs hb v _ => hstep ivs v _ (Edit.range _ _) hb
  rw [addBlockRanges]
  split
  · exact hout
  · exact foldlRecOn _ _ hout fun ivs hb e _ => hinst _ ivs e hb

theorem buildIntervals_spec (table : List (List Nat)) :
    (fn.buildIntervals table).map (fun iv => iv.vreg) = fn.vregTable ∧
      ∀ iv ∈ fn.buildIntervals table, iv.Bounded := by
  have hranges := @buildRanges_induct fn
    (fun ivs => ivs.map (fun iv => iv.vreg) = fn.vregTable ∧ ∀ iv ∈ ivs, iv.Bounded) table
    ⟨by simp [Function.comp_def], ?_⟩ ?_
  · obtain ⟨hvregs, hbounded⟩ := hranges
    rw [buildIntervals]
    refine ⟨by rw [map_map]; exact hvregs, fun iv hiv => ?_⟩
    obtain ⟨iv, hmem, rfl⟩ := mem_map.mp hiv
    exact hbounded iv hmem
  · intro iv hiv
    obtain ⟨v, -, rfl⟩ := mem_map.mp hiv
    exact fun seg hseg => absurd hseg not_mem_nil
  · intro ivs n f hf ⟨hvregs, hbounded⟩
    refine ⟨?_, forall_mem_modify n hbounded fun iv hiv => hf.bounded hiv⟩
    rw [← hvregs]
    refine ext_getElem? fun i => ?_
    rw [getElem?_map, getElem?_map, getElem?_modify]
    cases ivs[i]? with
    | none => rfl
    | some iv =>
      by_cases hn : n = i
      · simp [hn, hf.vreg]
      · simp [hn]

end LirFunction

/-- What folding the uses leaves alone. -/
structure SameLife (iv iv' : LiveInterval) : Prop where
  vreg : iv'.vreg = iv.vreg
  startId : iv'.startId = iv.startId
  endId : iv'.endId = iv.endId
  segments : iv'.segments = iv.segments
  spansCall : iv'.spansCall = iv.spansCall

theorem markFoldedUses_sameLife (arch : Arch) (fn : LirFunction) (ranges : List BlockRange)
    (ivs : List LiveInterval) {v : Nat} {iv : LiveInterval} (h : ivs[v]? = some iv) :
    ∃ iv', (markFoldedUses arch fn ranges ivs)[v]? = some iv' ∧ SameLife iv iv' := by
  have hrefl : SameLife iv iv := ⟨rfl, rfl, rfl, rfl, rfl⟩
  unfold markFoldedUses
  split
  · exact ⟨iv, h, hrefl⟩
  · refine foldlRecOn (motive := fun l => ∃ iv', l[v]? = some iv' ∧ SameLife iv iv') _ _
      ⟨iv, h, hrefl⟩ fun ivs hivs b _ => ?_
    refine foldlRecOn (motive := fun l => ∃ iv', l[v]? = some iv' ∧ SameLife iv iv') _ _
      hivs fun ivs hivs e _ => ?_
    split
    · rename_i r _
      obtain ⟨iv', hiv', hsame⟩ := hivs
      rw [getElem?_modify, hiv']
      by_cases hr : r.id.toNat = v
      · refine ⟨foldUseAt ranges e.1 iv', by simp [hr], ?_⟩
        unfold foldUseAt
        dsimp only
        split
        · exact ⟨hsame.vreg, hsame.startId, hsame.endId, hsame.segments, hsame.spansCall⟩
        · exact hsame
      · exact ⟨iv', by simp [hr], hsame⟩
    · exact hivs

theorem ScanData.intervals_bounded (fn : LirFunction) (cc : CallingConv) :
    ∀ iv ∈ (of fn cc).intervals, iv.Bounded := by
  have hbuilt := (fn.buildIntervals_spec fn.liveTable).2
  show ∀ iv ∈ markFoldedUses cc.arch fn fn.blockRanges (fn.buildIntervals fn.liveTable), iv.Bounded
  unfold markFoldedUses
  split
  · exact hbuilt
  · refine foldlRecOn (motive := fun ivs : List LiveInterval => ∀ iv ∈ ivs, iv.Bounded) _ _ hbuilt
      fun ivs hivs b _ => ?_
    refine foldlRecOn (motive := fun ivs : List LiveInterval => ∀ iv ∈ ivs, iv.Bounded) _ _ hivs
      fun ivs hivs e _ => ?_
    split
    · refine forall_mem_modify _ hivs fun iv hiv => ?_
      unfold foldUseAt
      dsimp only
      split <;> exact hiv
    · exact hivs

/-! ## Calls in an interval -/

namespace LirFunction

variable {fn : LirFunction} {b k v : Nat} {inst : Inst}

theorem allNumbered_pairwise (fn : LirFunction) :
    fn.allNumbered.Pairwise (fun x y => x.1 < y.1) := by
  refine pairwise_flatMap.mpr ⟨fun b _ => fn.numbered_pairwise b, ?_⟩
  refine (pairwise_lt_range).imp_of_mem fun {b b'} _ hb' hbb x hx y hy => ?_
  have h₁ := (mem_numbered hx).2
  have h₂ := (mem_numbered hy).1
  have h₃ := startId_add_le hbb (mem_range.mp hb')
  omega

theorem callInstIds_pairwise (fn : LirFunction) : fn.callInstIds.Pairwise (· < ·) :=
  (fn.allNumbered_pairwise.filter _).map _ fun _ _ h => h

theorem mem_callInstIds (hi : (fn.code b)[k]? = some inst) (hgc : IsGcPoint inst) :
    fn.startId b + 2 * k ∈ fn.callInstIds := by
  have hcode := code_of_getElem? hi
  refine mem_map.mpr ⟨(fn.startId b + 2 * k, inst), mem_filter.mpr ⟨?_, ?_⟩, rfl⟩
  · refine mem_flatMap.mpr ⟨b, mem_range.mpr (code_lt hi), mem_of_getElem? (i := k) ?_⟩
    rw [numbered, getElem?_mapIdx, ← hcode, hi]
    rfl
  · obtain ⟨hsite, hno⟩ := hgc
    simp only [isSite] at hsite
    simp only [hno, Bool.not_false, Bool.and_true]
    exact hsite

theorem holdsCall_of_mem {calls : List Nat} (hcalls : calls.Pairwise (· < ·))
    {segs : List LiveRangeSegment} {x : Nat} (hx : x ∈ calls)
    (hseg : ∃ seg ∈ segs, seg.contains x = true) : holdsCall calls segs = true := by
  obtain ⟨seg, hmem, hin⟩ := hseg
  obtain ⟨hle, hge⟩ := contains_iff.mp hin
  refine any_eq_true.mpr ⟨seg, hmem, ?_⟩
  have hmono : calls.Pairwise (fun a b => decide (b < seg.start) = true →
      decide (a < seg.start) = true) := by
    refine hcalls.imp fun {a b} hab hb => ?_
    simp only [decide_eq_true_eq] at hb ⊢
    omega
  have hxd : x ∈ calls.drop (partitionPoint calls (fun c => c < seg.start)) := by
    have hsplit := take_append_drop (partitionPoint calls (fun c => c < seg.start)) calls
    rw [← hsplit] at hx
    rcases mem_append.mp hx with hx | hx
    · rw [take_partitionPoint hmono] at hx
      have := mem_takeWhile_imp hx
      simp only [decide_eq_true_eq] at this
      omega
    · exact hx
  have hlt : partitionPoint calls (fun c => c < seg.start) < calls.length := by
    by_contra hge'
    rw [drop_eq_nil_of_le (by omega)] at hxd
    exact absurd hxd not_mem_nil
  rw [getElem?_eq_getElem hlt]
  rw [drop_eq_getElem_cons hlt] at hxd
  have hsorted : (calls[partitionPoint calls (fun c => c < seg.start)] ::
      calls.drop (partitionPoint calls (fun c => c < seg.start) + 1)).Pairwise (· < ·) := by
    rw [← drop_eq_getElem_cons hlt]
    exact hcalls.drop
  rw [decide_eq_true_eq]
  rcases mem_cons.mp hxd with heq | hlater
  · rw [← heq]
    exact hge
  · have := (pairwise_cons.mp hsorted).1 x hlater
    omega

end LirFunction

open LirFunction in
/-- The interval of a reference that is live behind a collection point: it has a place in the
scan, and it spans a call. -/
theorem ScanData.interval_of_live {fn : LirFunction} (cc : CallingConv) {b k v : Nat} {inst : Inst}
    (hi : (fn.code b)[k]? = some inst) (hgc : IsGcPoint inst) (hroot : fn.IsRoot v)
    (hc : fn.CountsReadsOf v) (hlive : fn.LiveAt v b (k + 1)) :
    v < (of fn cc).intervals.length ∧ ((of fn cc).interval v).vreg.isValid = true ∧
      ((of fn cc).interval v).vreg.isGcref = true ∧
      ((of fn cc).interval v).spansCall = true ∧
      ((of fn cc).interval v).segments ≠ [] ∧
      ((of fn cc).interval v).startId ≤ ((of fn cc).interval v).endId := by
  obtain ⟨iv, hiv, hat⟩ := coveredAt_of_livePosition hc (Or.inr ⟨b, k, inst, hi, Or.inr hlive, rfl⟩)
  obtain ⟨hvregs, hbounded⟩ := fn.buildIntervals_spec fn.liveTable
  obtain ⟨iv', hiv', hsame⟩ := markFoldedUses_sameLife cc.arch fn fn.blockRanges _ hiv
  have hinterval : (of fn cc).interval v = iv' := by
    rw [interval, getD_eq_getElem?_getD]
    show (((markFoldedUses cc.arch fn fn.blockRanges (fn.buildIntervals fn.liveTable))[v]?).getD _) = _
    rw [hiv']
    rfl
  have hvreg : iv.vreg = fn.vregTable.getD v {} := by
    rw [← hvregs, getD_eq_getElem?_getD, getElem?_map, hiv]
    rfl
  obtain ⟨hlt, hvalid, hg⟩ := isRoot_iff.mp hroot
  obtain ⟨seg, hseg, hx⟩ := hat
  have hspans : iv.spansCall = true := by
    obtain ⟨iv₀, -, rfl⟩ := mem_map.mp (mem_of_getElem? hiv)
    exact holdsCall_of_mem fn.callInstIds_pairwise (mem_callInstIds hi hgc) ⟨seg, hseg, hx⟩
  rw [hinterval, hsame.vreg, hsame.spansCall, hsame.segments, hsame.startId, hsame.endId, hvreg]
  refine ⟨(List.getElem?_eq_some_iff.mp hiv').1, hvalid, hg, hspans, List.ne_nil_of_mem hseg, ?_⟩
  obtain ⟨h₁, h₂⟩ := hbounded iv (List.mem_of_getElem? hiv) seg hseg
  obtain ⟨h₃, h₄⟩ := contains_iff.mp hx
  omega

end Brass.Codegen
