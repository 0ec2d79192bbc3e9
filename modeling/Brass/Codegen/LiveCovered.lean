import Brass.Codegen.LiveEquations
import Brass.Codegen.ScanDataWellFormed
import Brass.Util.Accumulate

/-!
# Intervals cover what is live

`build_intervals` walks the blocks backwards. Behind the instruction that it looks at, all
positions at which a register is live are covered, and if the register is live in front of the
instruction, so are all positions back to the start of the block (`Covered`): a definition
cuts only what lies in front of it, and a read adds everything from the start of the block.
-/

namespace Brass.Codegen

open Brass.Util List LirFunction LiveInterval

/-! ## The positions of an interval -/

def LiveInterval.At (iv : LiveInterval) (x : Nat) : Prop := ∃ seg ∈ iv.segments, seg.contains x = true

section Points

variable {segs : List LiveRangeSegment} {seg : LiveRangeSegment} {s e x : Nat} {iv : LiveInterval}

theorem contains_iff : seg.contains x = true ↔ seg.start ≤ x ∧ x ≤ seg.stop := by
  rw [LiveRangeSegment.contains, Bool.and_eq_true, decide_eq_true_eq, decide_eq_true_eq]

theorem Separated.run_bounds {first last : LiveRangeSegment} (h : Separated segs)
    (hf : segs.head? = some first) (hl : segs.getLast? = some last) (hseg : seg ∈ segs) :
    first.start ≤ seg.start ∧ seg.stop ≤ last.stop := by
  constructor
  · obtain ⟨rest, rfl⟩ := head?_eq_some_iff.mp hf
    rcases mem_cons.mp hseg with rfl | hmem
    · exact Nat.le_refl _
    · have hlt := (pairwise_cons.mp h.apart).1 seg hmem
      have hle := h.proper first mem_cons_self
      omega
  · obtain ⟨init, rfl⟩ := getLast?_eq_some_iff.mp hl
    rcases mem_append.mp hseg with hmem | hmem
    · have hlt := (pairwise_append.mp h.apart).2.2 seg hmem last (by simp)
      have hle := h.proper last (by simp)
      omega
    · rw [mem_singleton.mp hmem]

/-- The segments that a new range touches are a run between those that end before it and
those that start behind it. -/
theorem mergeRange_split (h : Separated segs) (s e : Nat) : ∃ pre run post,
    segs = pre ++ (run ++ post) ∧
    mergeRange segs s e = pre ++ (match run.head?, run.getLast? with
      | some first, some last => ⟨min s first.start, max e last.stop⟩
      | _, _ => ⟨s, e⟩) :: post ∧
    (∀ a ∈ run, s ≤ a.stop + 1 ∧ a.start ≤ e + 1) := by
  have hrest : Separated (segs.drop (partitionPoint segs (fun seg => seg.stop + 1 < s))) :=
    (take_append_drop _ segs ▸ h).of_append_right
  refine ⟨_, _, _, ?_, rfl, fun a ha => ⟨?_, ?_⟩⟩
  · rw [take_append_drop, take_append_drop]
  · have hmem := mem_of_mem_take ha
    rw [drop_partitionPoint (h.mono_stop s)] at hmem
    have := not_of_mem_dropWhile (h.mono_stop s) hmem
    simpa using this
  · rw [take_partitionPoint (hrest.mono_start (e + 1))] at ha
    simpa using mem_takeWhile_imp ha

theorem mem_mergeRange_iff (h : Separated segs) :
    (∃ seg ∈ mergeRange segs s e, seg.contains x = true) ↔
      (∃ seg ∈ segs, seg.contains x = true) ∨ (s ≤ x ∧ x ≤ e) := by
  obtain ⟨pre, run, post, rfl, hmerge, hrun⟩ := mergeRange_split h s e
  have hsep : Separated run := h.of_append_right.of_append_left
  have hnew : (match run.head?, run.getLast? with
      | some first, some last => (⟨min s first.start, max e last.stop⟩ : LiveRangeSegment)
      | _, _ => ⟨s, e⟩).contains x = true ↔
      (∃ seg ∈ run, seg.contains x = true) ∨ (s ≤ x ∧ x ≤ e) := by
    simp only [contains_iff]
    cases hf : run.head? with
    | none =>
      rw [head?_eq_none_iff] at hf
      simp [hf]
    | some first =>
      cases hl : run.getLast? with
      | none =>
        rw [getLast?_eq_none_iff] at hl
        simp [hl]
      | some last =>
        have hfm : first ∈ run := mem_of_head? hf
        have hlm : last ∈ run := mem_of_getLast? hl
        obtain ⟨hf₁, hf₂⟩ := hrun first hfm
        obtain ⟨hl₁, hl₂⟩ := hrun last hlm
        show min s first.start ≤ x ∧ x ≤ max e last.stop ↔ _
        constructor
        · rintro ⟨hmin, hmax⟩
          by_cases hxs : x < s
          · exact .inl ⟨first, hfm, by omega, by omega⟩
          · by_cases hxe : e < x
            · exact .inl ⟨last, hlm, by omega, by omega⟩
            · exact .inr ⟨by omega, by omega⟩
        · rintro (⟨seg, hseg, hle, hge⟩ | ⟨hle, hge⟩)
          · obtain ⟨hb₁, hb₂⟩ := hsep.run_bounds hf hl hseg
            omega
          · omega
  rw [hmerge]
  simp only [mem_append, mem_cons, or_and_right, exists_or, exists_eq_left, hnew]
  rw [or_assoc, or_assoc, or_assoc, or_comm (b := ∃ seg ∈ post, _)]

namespace LiveInterval

theorem at_addRange (h : Separated iv.segments) (hse : s ≤ e) :
    (iv.addRange s e).At x ↔ iv.At x ∨ (s ≤ x ∧ x ≤ e) := by
  rw [At, addRange, if_neg (by omega)]
  exact mem_mergeRange_iff h

theorem at_addRange_of_at (h : Separated iv.segments) (hx : iv.At x) : (iv.addRange s e).At x := by
  by_cases hse : s ≤ e
  · exact (at_addRange h hse).mpr (.inl hx)
  · rw [addRange, if_pos (by omega)]
    exact hx

theorem mem_cutAt {fromId : Nat} {segs' : List LiveRangeSegment}
    (hcut : cutAt fromId segs = some segs') (hx : fromId ≤ x)
    (hat : ∃ seg ∈ segs, seg.contains x = true) : ∃ seg ∈ segs', seg.contains x = true := by
  induction segs generalizing segs' with
  | nil => cases hcut
  | cons seg segs ih =>
    rw [cutAt] at hcut
    simp only [exists_mem_cons_iff] at hat
    split at hcut
    · cases hcut
      rcases hat with h | ⟨b, hb, hbx⟩
      · exact ⟨_, mem_cons_self, contains_iff.mpr ⟨hx, (contains_iff.mp h).2⟩⟩
      · exact ⟨b, mem_cons_of_mem _ hb, hbx⟩
    · obtain ⟨cut, hcut', rfl⟩ := Option.map_eq_some_iff.mp hcut
      refine hat.elim (fun h => ⟨seg, mem_cons_self, h⟩) fun h => ?_
      obtain ⟨b, hb, hbx⟩ := ih hcut' h
      exact ⟨b, mem_cons_of_mem _ hb, hbx⟩

theorem at_shortenStart {fromId : Nat} (h : Separated iv.segments) (hx : fromId ≤ x)
    (hat : iv.At x) : (iv.shortenStart fromId).At x := by
  unfold shortenStart
  split
  · rename_i hnil
    obtain ⟨seg, hseg, -⟩ := hat
    rw [hnil] at hseg
    exact absurd hseg (by simp)
  · split
    · exact at_addRange_of_at h hat
    · rename_i segs hcut
      exact mem_cutAt hcut hx hat

theorem at_foldl_addRange (ranges : List (Nat × Nat)) (h : Separated iv.segments) :
    (ranges.foldl (fun iv r => iv.addRange r.1 r.2) iv).At x ↔
      iv.At x ∨ ∃ r ∈ ranges, r.1 ≤ x ∧ x ≤ r.2 := by
  induction ranges generalizing iv with
  | nil => simp
  | cons r ranges ih =>
    rw [foldl_cons, ih (addRange_separated h), exists_mem_cons_iff]
    by_cases hr : r.1 ≤ r.2
    · rw [at_addRange h hr, or_assoc]
    · have hsame : iv.addRange r.1 r.2 = iv := if_pos (by omega)
      rw [hsame]
      constructor
      · exact Or.imp_right .inr
      · exact Or.imp_right fun h => h.resolve_left (by omega)

end LiveInterval

end Points

/-! ## One instruction -/

namespace LirFunction

variable {fn : LirFunction} {ivs : List LiveInterval} {v x id liveFrom : Nat} {inst : Inst}
  {r : VReg}

/-- The intervals while they are built: one for each register, with separated segments. -/
structure Building (fn : LirFunction) (ivs : List LiveInterval) : Prop where
  length : ivs.length = fn.vregTable.length
  separated : ∀ iv ∈ ivs, Separated iv.segments

def CoveredAt (ivs : List LiveInterval) (v x : Nat) : Prop := ∃ iv, ivs[v]? = some iv ∧ iv.At x

theorem Building.modify (h : fn.Building ivs) (n : Nat) {f : LiveInterval → LiveInterval}
    (hf : ∀ iv : LiveInterval, Separated iv.segments → Separated (f iv).segments) :
    fn.Building (ivs.modify n f) :=
  ⟨by rw [length_modify, h.length], forall_mem_modify n h.separated hf⟩

theorem coveredAt_modify (h : fn.Building ivs) {n : Nat} {f : LiveInterval → LiveInterval}
    (hf : n = v → ∀ iv : LiveInterval, Separated iv.segments → iv.At x → (f iv).At x)
    (hat : CoveredAt ivs v x) : CoveredAt (ivs.modify n f) v x := by
  obtain ⟨iv, hiv, hx⟩ := hat
  rw [CoveredAt, getElem?_modify, hiv]
  by_cases hn : n = v
  · refine ⟨f iv, by simp [hn], hf hn iv (h.separated iv (mem_of_getElem? hiv)) hx⟩
  · exact ⟨iv, by simp [hn], hx⟩

theorem known_iff : fn.known r = some v ↔
    r.isValid = true ∧ r.id.toNat = v ∧ v < fn.vregTable.length := by
  rw [known]
  split
  · rename_i h
    rw [Bool.and_eq_true, decide_eq_true_eq] at h
    rw [Option.some_inj]
    constructor
    · rintro rfl
      exact ⟨h.1, rfl, h.2⟩
    · exact fun h' => h'.2.1
  · rename_i h
    rw [Bool.and_eq_true, decide_eq_true_eq, not_and] at h
    simp only [false_iff, reduceCtorEq, not_and]
    rintro hr rfl
    exact h hr

section

variable (h : fn.Building ivs)
include h

theorem Building.addUseAt (requiresReg : Bool) (fixed : PReg) (r : VReg) :
    fn.Building (addUseAt liveFrom id requiresReg fixed ivs r) := by
  unfold LirFunction.addUseAt
  split
  · exact h.modify _ fun iv hiv => addRange_separated hiv
  · exact h

theorem coveredAt_addUseAt {requiresReg : Bool} {fixed : PReg}
    (hat : CoveredAt ivs v x) : CoveredAt (addUseAt liveFrom id requiresReg fixed ivs r) v x := by
  unfold addUseAt
  split
  · exact coveredAt_modify h (fun _ iv hiv hx => at_addRange_of_at hiv hx) hat
  · exact hat

theorem coveredAt_addUseAt_self {requiresReg : Bool} {fixed : PReg}
    (hr : fn.known r = some v) (hx : liveFrom ≤ x) (hid : x ≤ id) :
    CoveredAt (addUseAt liveFrom id requiresReg fixed ivs r) v x := by
  obtain ⟨hvalid, rfl, hlt⟩ := known_iff.mp hr
  rw [← h.length] at hlt
  unfold addUseAt
  rw [if_pos hvalid, CoveredAt, getElem?_modify, getElem?_eq_getElem hlt]
  have hsep := h.separated _ (getElem_mem hlt)
  refine ⟨(ivs[r.id.toNat].addUsePos id false requiresReg fixed).addRange liveFrom id, by simp, ?_⟩
  exact (@at_addRange _ _ x (addUsePos _ id false requiresReg fixed) hsep
    (Nat.le_trans hx hid)).mpr (.inr ⟨hx, hid⟩)

theorem Building.addDefAt (fixed : PReg) (r : VReg) : fn.Building (addDefAt id fixed ivs r) := by
  unfold LirFunction.addDefAt
  split
  · exact h.modify _ fun iv hiv =>
      @shortenStart_separated (iv.addUsePos id true true fixed) hiv id
  · exact h

theorem coveredAt_addDefAt {fixed : PReg} (hv : v < fn.vregTable.length)
    (hkeep : id ≤ x ∨ fn.known r ≠ some v) (hat : CoveredAt ivs v x) :
    CoveredAt (addDefAt id fixed ivs r) v x := by
  unfold addDefAt
  split
  · rename_i hvalid
    refine coveredAt_modify h (fun hr iv hiv hx => ?_) hat
    have hle : id ≤ x := hkeep.resolve_right fun hne => hne (known_iff.mpr ⟨hvalid, hr, hv⟩)
    exact @at_shortenStart x (iv.addUsePos id true true fixed) id hiv hle hx
  · exact hat

theorem Building.addUses (vs : List VReg) (requiresReg : Bool) (fixed : PReg) :
    fn.Building (vs.foldl (LirFunction.addUseAt liveFrom id requiresReg fixed) ivs) :=
  foldlRecOn vs _ h fun _ hb r _ => hb.addUseAt requiresReg fixed r

theorem coveredAt_addUses {vs : List VReg} (requiresReg : Bool) (fixed : PReg)
    (hcov : CoveredAt ivs v x ∨ (liveFrom ≤ x ∧ x ≤ id ∧ ∃ r ∈ vs, fn.known r = some v)) :
    CoveredAt (vs.foldl (addUseAt liveFrom id requiresReg fixed) ivs) v x := by
  refine (foldl_brings (G := fn.Building) (P := fun ivs => CoveredAt ivs v x) h
    (fun _ r _ hb => hb.addUseAt requiresReg fixed r) (fun _ _ _ hb => coveredAt_addUseAt hb) ?_).2
  exact hcov.imp_right fun ⟨h₁, h₂, r, hr, hk⟩ =>
    ⟨r, hr, fun _ hb => coveredAt_addUseAt_self hb hk h₁ h₂⟩

end

def addDefs (liveFrom id : Nat) (inst : Inst) (ivs : List LiveInterval) : List LiveInterval :=
  inst.defs.zipIdx.foldl (fun ivs d =>
    match d.1.vreg? with
    | some v => LirFunction.addDefAt id (inst.defConstraint d.2).fixedPreg ivs v
    | none => d.1.memVregs.foldl (LirFunction.addUseAt liveFrom id true {}) ivs) ivs

def addUses (liveFrom id : Nat) (inst : Inst) (ivs : List LiveInterval) : List LiveInterval :=
  inst.uses.zipIdx.foldl (fun ivs u =>
    match u.1.vreg? with
    | some v => LirFunction.addUseAt liveFrom id true (inst.useConstraint u.2).fixedPreg ivs v
    | none => u.1.memVregs.foldl (LirFunction.addUseAt liveFrom id true {}) ivs) ivs

theorem memVregs_of_vreg? {op : LirOperand} (h : op.vreg? = some r) : op.memVregs = [] := by
  rw [LirOperand.memVregs, LirOperand.mem?]
  rw [LirOperand.vreg?] at h
  cases hk : op.kind <;> rw [hk] at h
  all_goals first | rfl | cases h

theorem Building.addDefs (h : fn.Building ivs) : fn.Building (addDefs liveFrom id inst ivs) := by
  refine foldlRecOn inst.defs.zipIdx _ h fun _ hb d _ => ?_
  split
  · exact hb.addDefAt _ _
  · exact hb.addUses _ _ _

theorem Building.addInstUses (h : fn.Building ivs) :
    fn.Building (LirFunction.addUses liveFrom id inst ivs) := by
  refine foldlRecOn inst.uses.zipIdx _ h fun _ hb d _ => ?_
  split
  · exact hb.addUseAt _ _ _
  · exact hb.addUses _ _ _

/-- The definitions cut only in front of the instruction, and only what it writes; the memory
operands among them count for the registers that it does not write. -/
theorem coveredAt_addDefs (h : fn.Building ivs) (hv : v < fn.vregTable.length)
    (hx : id ≤ x ∨ ¬ fn.Writes inst v)
    (hcov : CoveredAt ivs v x ∨
      (liveFrom ≤ x ∧ x ≤ id ∧ ∃ r ∈ defMemRegs inst, fn.known r = some v)) :
    CoveredAt (addDefs liveFrom id inst ivs) v x := by
  refine (foldl_brings (G := fn.Building) (P := fun ivs => CoveredAt ivs v x) h
    (fun ivs d hd hb => ?_) (fun ivs d hd hb hat => ?_) ?_).2
  · split
    · exact hb.addDefAt _ _
    · exact hb.addUses _ _ _
  · split
    · rename_i r hr
      refine coveredAt_addDefAt hb hv (hx.imp_right fun hw hk => hw ⟨r, ?_, hk⟩) hat
      exact mem_filterMap.mpr ⟨d.1, fst_mem_of_mem_zipIdx hd, hr⟩
    · exact coveredAt_addUses hb true {} (.inl hat)
  · refine hcov.imp_right fun ⟨h₁, h₂, r, hr, hk⟩ => ?_
    obtain ⟨d, hd, hrd⟩ := mem_flatMap.mp hr
    obtain ⟨i, hi, rfl⟩ := mem_iff_getElem.mp hd
    refine ⟨(inst.defs[i], i), mem_zipIdx_iff_getElem?.mpr (getElem?_eq_getElem hi),
      fun ivs hb => ?_⟩
    dsimp only
    split
    · rename_i hr'
      rw [memVregs_of_vreg? hr'] at hrd
      exact absurd hrd (by simp)
    · exact coveredAt_addUses hb true {} (.inr ⟨h₁, h₂, r, hrd, hk⟩)

theorem coveredAt_addInstUses (h : fn.Building ivs) (hcov : CoveredAt ivs v x ∨
      (liveFrom ≤ x ∧ x ≤ id ∧ ∃ r ∈ useRegs inst, fn.known r = some v)) :
    CoveredAt (addUses liveFrom id inst ivs) v x := by
  refine (foldl_brings (G := fn.Building) (P := fun ivs => CoveredAt ivs v x) h
    (fun ivs d hd hb => ?_) (fun ivs d hd hb hat => ?_) ?_).2
  · split
    · exact hb.addUseAt _ _ _
    · exact hb.addUses _ _ _
  · split
    · exact coveredAt_addUseAt hb hat
    · exact coveredAt_addUses hb true {} (.inl hat)
  · refine hcov.imp_right fun ⟨h₁, h₂, r, hr, hk⟩ => ?_
    obtain ⟨u, hu, hru⟩ := mem_flatMap.mp hr
    obtain ⟨i, hi, rfl⟩ := mem_iff_getElem.mp hu
    refine ⟨(inst.uses[i], i), mem_zipIdx_iff_getElem?.mpr (getElem?_eq_getElem hi),
      fun ivs hb => ?_⟩
    rw [LirOperand.readVregs] at hru
    dsimp only
    split
    · rename_i r' hr'
      rw [memVregs_of_vreg? hr', hr', append_nil, Option.mem_toList, Option.some_inj] at hru
      rw [hru]
      exact coveredAt_addUseAt_self hb hk h₁ h₂
    · rename_i hnone
      rw [hnone] at hru
      exact coveredAt_addUses hb true {} (.inr ⟨h₁, h₂, r, by simpa using hru, hk⟩)

/-- What a `Jcc` reads for the guard exit that it may take. -/
def addExitUses (fn : LirFunction) (liveFrom id : Nat) (inst : Inst) (ivs : List LiveInterval) :
    List LiveInterval :=
  match guardExitTakenBy fn.guardExits inst with
  | some exit => (exit.uses.filterMap LirOperand.vreg?).foldl (addUseAt liveFrom id false {}) ivs
  | none => ivs

theorem addInstRanges_eq : addInstRanges fn.guardExits liveFrom ivs (id, inst) =
    addUses liveFrom id inst (fn.addExitUses liveFrom id inst (addDefs liveFrom id inst ivs)) := rfl

theorem Building.addExitUses (h : fn.Building ivs) :
    fn.Building (fn.addExitUses liveFrom id inst ivs) := by
  unfold LirFunction.addExitUses
  split
  · exact h.addUses _ _ _
  · exact h

theorem coveredAt_addExitUses (h : fn.Building ivs)
    (hcov : CoveredAt ivs v x ∨ (liveFrom ≤ x ∧ x ≤ id ∧
      ∃ exit, guardExitTakenBy fn.guardExits inst = some exit ∧
        ∃ r ∈ exit.uses.filterMap LirOperand.vreg?, fn.known r = some v)) :
    CoveredAt (fn.addExitUses liveFrom id inst ivs) v x := by
  unfold addExitUses
  split
  · rename_i exit hexit
    refine coveredAt_addUses h false {} (hcov.imp_right fun ⟨h₁, h₂, exit', hexit', hr⟩ => ?_)
    rw [hexit, Option.some_inj] at hexit'
    rw [hexit']
    exact ⟨h₁, h₂, hr⟩
  · rename_i hnone
    refine hcov.resolve_right fun ⟨_, _, exit, hexit, _⟩ => ?_
    rw [hnone] at hexit
    cases hexit

theorem Building.addInstRanges (h : fn.Building ivs) :
    fn.Building (addInstRanges fn.guardExits liveFrom ivs (id, inst)) := by
  rw [addInstRanges_eq]
  exact h.addDefs.addExitUses.addInstUses

/-- One instruction keeps what lies at it or behind it, loses nothing of what it does not
write, and brings what it reads. -/
theorem coveredAt_addInstRanges (h : fn.Building ivs) (hv : v < fn.vregTable.length)
    (hcov : (CoveredAt ivs v x ∧ (id ≤ x ∨ ¬ fn.Writes inst v)) ∨
      (liveFrom ≤ x ∧ x ≤ id ∧ fn.Counted inst v)) :
    CoveredAt (addInstRanges fn.guardExits liveFrom ivs (id, inst)) v x := by
  rw [addInstRanges_eq]
  have hdefs : fn.Building (addDefs liveFrom id inst ivs) := h.addDefs
  have hexit : fn.Building (fn.addExitUses liveFrom id inst (addDefs liveFrom id inst ivs)) :=
    hdefs.addExitUses
  rcases hcov with ⟨hat, hx⟩ | ⟨h₁, h₂, hr | hr | ⟨hw, hr⟩⟩
  · exact coveredAt_addInstUses hexit
      (.inl (coveredAt_addExitUses hdefs (.inl (coveredAt_addDefs h hv hx (.inl hat)))))
  · exact coveredAt_addInstUses hexit (.inr ⟨h₁, h₂, hr⟩)
  · exact coveredAt_addInstUses hexit (.inl (coveredAt_addExitUses hdefs (.inr ⟨h₁, h₂, hr⟩)))
  · exact coveredAt_addInstUses hexit (.inl (coveredAt_addExitUses hdefs
      (.inl (coveredAt_addDefs h hv (.inr hw) (.inr ⟨h₁, h₂, hr⟩)))))

/-! ## The walk over the blocks -/

theorem liveAt_known {b k : Nat} (h : fn.LiveAt v b k) : v < fn.vregTable.length := by
  induction h with
  | read _ hr =>
    obtain ⟨r, -, hk⟩ := hr
    exact known_lt hk
  | skip _ _ _ ih => exact ih
  | edge _ _ _ _ ih => exact ih

theorem code_lt {b k : Nat} (h : (fn.code b)[k]? = some inst) : b < fn.blocks.length := by
  by_contra hge
  have hnil : fn.code b = [] := by
    rw [code, block, getD_eq_getElem?_getD, getElem?_eq_none (by omega)]
    split <;> rfl
  rw [hnil] at h
  cases h

theorem liveAt_lt {b k : Nat} (h : fn.LiveAt v b k) : b < fn.blocks.length := by
  cases h with
  | read hi _ => exact code_lt hi
  | skip hi _ _ => exact code_lt hi
  | edge hb _ _ _ => exact hb

theorem reads_known (h : fn.Reads inst v) : v < fn.vregTable.length := by
  obtain ⟨r, -, hk⟩ := h
  exact known_lt hk

/-- The walk has come to the point in front of instruction `k` of block `b`. -/
structure Covered (fn : LirFunction) (v b k : Nat) (ivs : List LiveInterval) : Prop where
  building : fn.Building ivs
  points : ∀ b' k', b' < fn.blocks.length → (b < b' ∨ (b' = b ∧ k ≤ k')) → fn.LiveAt v b' k' →
    ∀ x, x + 1 = fn.startId b' + 2 * k' → CoveredAt ivs v x
  insts : ∀ b' k' inst, b' < fn.blocks.length → (b < b' ∨ (b' = b ∧ k ≤ k')) →
    (fn.code b')[k']? = some inst → (fn.Reads inst v ∨ fn.LiveAt v b' (k' + 1)) →
    CoveredAt ivs v (fn.startId b' + 2 * k')
  back : fn.LiveAt v b k → ∀ x, fn.liveFrom b ≤ x → x + 1 ≤ fn.startId b + 2 * k →
    CoveredAt ivs v x

/-- The step from behind an instruction to the point in front of it. -/
theorem Covered.step (hc : fn.CountsReadsOf v) {b k : Nat} (hb : b < fn.blocks.length)
    (hi : (fn.code b)[k]? = some inst) (h : fn.Covered v b (k + 1) ivs) :
    fn.Covered v b k (addInstRanges fn.guardExits (fn.liveFrom b) ivs (fn.startId b + 2 * k, inst)) := by
  have hlt := (List.getElem?_eq_some_iff.mp hi).1
  have hcode : fn.code b = (fn.block b).instructions := by
    unfold code at hlt ⊢
    split
    · rename_i hexit
      rw [if_pos hexit] at hlt
      exact absurd hlt (Nat.not_lt_zero _)
    · rfl
  have hmem : inst ∈ fn.code b := mem_of_getElem? hi
  have hfrom : fn.liveFrom b ≤ fn.startId b + 2 * k := by
    rw [liveFrom]
    omega
  -- What lies at the instruction or behind it stays.
  have hkeep : ∀ x, v < fn.vregTable.length → fn.startId b + 2 * k ≤ x → CoveredAt ivs v x →
      CoveredAt (addInstRanges fn.guardExits (fn.liveFrom b) ivs (fn.startId b + 2 * k, inst)) v x :=
    fun x hv hx hat => coveredAt_addInstRanges h.building hv (.inl ⟨hat, .inl hx⟩)
  have hback : fn.LiveAt v b k → ∀ x, fn.liveFrom b ≤ x → x + 1 ≤ fn.startId b + 2 * k →
      CoveredAt (addInstRanges fn.guardExits (fn.liveFrom b) ivs (fn.startId b + 2 * k, inst)) v x := by
    intro hlive x hx hxk
    have hv := liveAt_known hlive
    have hthrough := (liveAt_iff (Nat.le_of_lt hlt)).mp hlive
    rw [drop_eq_cons hi] at hthrough
    rcases hthrough with hr | ⟨hw, hrest⟩
    · exact coveredAt_addInstRanges h.building hv (.inr ⟨hx, by omega, hc b hb inst hmem hr⟩)
    · have hat := h.back ((liveAt_iff (by omega)).mpr hrest) x hx (by omega)
      exact coveredAt_addInstRanges h.building hv (.inl ⟨hat, .inr hw⟩)
  have hlater : ∀ b', b' < fn.blocks.length → b < b' →
      fn.startId b + 2 * k + 2 ≤ fn.startId b' := by
    intro b' hb' hbb
    have hle := startId_add_le hbb hb'
    rw [← hcode] at hle
    omega
  refine ⟨h.building.addInstRanges, fun b' k' hb' hbk hlive x hx => ?_,
    fun b' k' inst' hb' hbk hi' hwant => ?_, hback⟩
  · have hv := liveAt_known hlive
    rcases hbk with hbb | ⟨rfl, hkk⟩
    · have := hlater b' hb' hbb
      exact hkeep x hv (by omega) (h.points b' k' hb' (.inl hbb) hlive x hx)
    · rcases Nat.eq_or_lt_of_le hkk with rfl | hlt'
      · refine hback hlive x ?_ (by omega)
        rw [liveFrom]
        omega
      · exact hkeep x hv (by omega) (h.points b' k' hb' (.inr ⟨rfl, hlt'⟩) hlive x hx)
  · have hv : v < fn.vregTable.length := hwant.elim reads_known liveAt_known
    rcases hbk with hbb | ⟨rfl, hkk⟩
    · have := hlater b' hb' hbb
      exact hkeep _ hv (by omega) (h.insts b' k' inst' hb' (.inl hbb) hi' hwant)
    · rcases Nat.eq_or_lt_of_le hkk with rfl | hlt'
      · rw [hi, Option.some_inj] at hi'
        subst hi'
        rcases hwant with hr | hlive
        · exact coveredAt_addInstRanges h.building hv
            (.inr ⟨hfrom, Nat.le_refl _, hc b' hb inst hmem hr⟩)
        · refine hkeep _ hv (Nat.le_refl _) (h.back hlive _ hfrom (by omega))
      · exact hkeep _ hv (by omega) (h.insts b' k' inst' hb' (.inr ⟨rfl, hlt'⟩) hi' hwant)

theorem Covered.block (hc : fn.CountsReadsOf v) {b : Nat} (hb : b < fn.blocks.length)
    (hexit : fn.isGuardExit b = false) (n : Nat) : ∀ k, k + n = (fn.code b).length →
    fn.Covered v b (fn.code b).length ivs →
    fn.Covered v b k (((fn.numbered b).drop k).reverse.foldl
      (addInstRanges fn.guardExits (fn.liveFrom b)) ivs) := by
  have hcode : fn.code b = (fn.block b).instructions := by
    rw [code, hexit]
    rfl
  have hlen : (fn.numbered b).length = (fn.code b).length := by
    rw [numbered, length_mapIdx, hcode]
  induction n with
  | zero =>
    intro k hk h
    rw [drop_eq_nil_of_le (by omega)]
    obtain rfl : k = (fn.code b).length := hk
    exact h
  | succ n ih =>
    intro k hk h
    have hlt : k < (fn.code b).length := by omega
    have hi := getElem?_eq_getElem hlt
    have hnum : (fn.numbered b)[k]? = some (fn.startId b + 2 * k, (fn.code b)[k]) := by
      rw [numbered, getElem?_mapIdx, ← hcode, hi]
      rfl
    rw [drop_eq_cons hnum, reverse_cons, foldl_append]
    exact (ih (k + 1) (by omega) h).step hc hb hi

theorem coveredAt_liveOut (h : fn.Building ivs) {s e : Nat} {out : List Nat} :
    fn.Building (out.foldl (fun ivs v => ivs.modify v (fun iv => iv.addRange s e)) ivs) ∧
      ∀ v x, (CoveredAt ivs v x ∨ (v < fn.vregTable.length ∧ v ∈ out ∧ s ≤ x ∧ x ≤ e)) →
        CoveredAt (out.foldl (fun ivs v => ivs.modify v (fun iv => iv.addRange s e)) ivs) v x := by
  have hgood : ∀ ivs (w : Nat), fn.Building ivs →
      fn.Building (ivs.modify w (fun iv => iv.addRange s e)) := fun ivs w hb =>
    hb.modify w fun iv hiv => addRange_separated hiv
  refine ⟨foldlRecOn out _ h fun ivs hb w _ => hgood ivs w hb, fun v x hcov => ?_⟩
  refine (foldl_brings (G := fn.Building) (P := fun ivs => CoveredAt ivs v x) h
    (fun ivs w _ hb => hgood ivs w hb) (fun ivs w _ hb hat => ?_) ?_).2
  · exact coveredAt_modify hb (fun _ iv hiv hx => at_addRange_of_at hiv hx) hat
  · refine hcov.imp_right fun ⟨hv, hmem, hs, he⟩ => ⟨v, hmem, fun ivs hb => ?_⟩
    rw [← hb.length] at hv
    rw [CoveredAt, getElem?_modify, getElem?_eq_getElem hv]
    refine ⟨(ivs[v]).addRange s e, by simp, ?_⟩
    exact (at_addRange (hb.separated _ (getElem_mem hv)) (Nat.le_trans hs he)).mpr (.inr ⟨hs, he⟩)

theorem Covered.before (hc : fn.CountsReadsOf v) {b : Nat} (hb : b < fn.blocks.length)
    (h : fn.Covered v (b + 1) 0 ivs) : fn.Covered v b 0 (fn.addBlockRanges fn.liveTable ivs b) := by
  obtain ⟨hbuild, hcov⟩ := @coveredAt_liveOut fn ivs h.building (fn.liveFrom b) (fn.endId b + 1)
    (fn.liveOut fn.liveTable b)
  have hback : fn.LiveAt v b (fn.code b).length → ∀ x, fn.liveFrom b ≤ x →
      x + 1 ≤ fn.startId b + 2 * (fn.code b).length →
      CoveredAt ((fn.liveOut fn.liveTable b).foldl (fun ivs v => ivs.modify v
        (fun iv => iv.addRange (fn.liveFrom b) (fn.endId b + 1))) ivs) v x := by
    intro hlive x hx hxe
    refine hcov v x (.inr ⟨liveAt_known hlive, (liveIn_iff_liveAt hc hb).2.mpr hlive, hx, ?_⟩)
    have hlen : (fn.code b).length ≤ (fn.block b).instructions.length := by
      rw [code]
      split
      · exact Nat.zero_le _
      · exact Nat.le_refl _
    rw [endId]
    omega
  have hend : fn.Covered v b (fn.code b).length ((fn.liveOut fn.liveTable b).foldl
      (fun ivs v => ivs.modify v (fun iv => iv.addRange (fn.liveFrom b) (fn.endId b + 1))) ivs) := by
    refine ⟨hbuild, fun b' k' hb' hbk hlive x hx => ?_,
      fun b' k' inst hb' hbk hi hwant => ?_, hback⟩
    · rcases hbk with hbb | ⟨rfl, hkk⟩
      · refine hcov v x (.inl (h.points b' k' hb' ?_ hlive x hx))
        omega
      · obtain rfl : k' = (fn.code b').length := Nat.le_antisymm (liveAt_le hlive) hkk
        refine hback hlive x ?_ (by omega)
        rw [liveFrom]
        omega
    · rcases hbk with hbb | ⟨rfl, hkk⟩
      · refine hcov v _ (.inl (h.insts b' k' inst hb' ?_ hi hwant))
        omega
      · have hlt := (List.getElem?_eq_some_iff.mp hi).1
        omega
  rw [addBlockRanges]
  split
  · rename_i hexit
    have hcode : fn.code b = [] := by rw [code, if_pos hexit]
    rwa [hcode] at hend
  · rename_i hexit
    rw [Bool.not_eq_true] at hexit
    exact Covered.block hc hb hexit (fn.code b).length 0 (Nat.zero_add _) hend

theorem covered_all (hc : fn.CountsReadsOf v) (n : Nat) : ∀ b, b + n = fn.blocks.length →
    fn.Covered v b 0 (((range fn.blocks.length).drop b).reverse.foldl
      (fn.addBlockRanges fn.liveTable) (fn.vregTable.map (fun v => { vreg := v }))) := by
  induction n with
  | zero =>
    intro b hb
    rw [drop_eq_nil_of_le (by simpa using Nat.le_of_eq hb.symm)]
    refine ⟨⟨length_map _, ?_⟩, fun b' k' hb' hbk _ => ?_, fun b' k' inst hb' hbk _ => ?_,
      fun hlive => ?_⟩
    · intro iv hiv
      obtain ⟨v, -, rfl⟩ := mem_map.mp hiv
      exact separated_nil
    · omega
    · omega
    · have := liveAt_lt hlive
      omega
  | succ n ih =>
    intro b hb
    have hrange : (range fn.blocks.length)[b]? = some b := getElem?_range (by omega)
    rw [drop_eq_cons hrange, reverse_cons, foldl_append]
    exact (ih (b + 1) (by omega)).before hc (by omega)

/-! ## The result -/

/-- The register is live at the position: between two instructions, or at one that reads it or
that it is live behind. -/
def LivePosition (fn : LirFunction) (v x : Nat) : Prop :=
  (∃ b k, fn.LiveAt v b k ∧ x + 1 = fn.startId b + 2 * k) ∨
    ∃ b k inst, (fn.code b)[k]? = some inst ∧ (fn.Reads inst v ∨ fn.LiveAt v b (k + 1)) ∧
      x = fn.startId b + 2 * k

/-- Liveness is exact: the sets of the blocks are the least solution of their equations, and
they are what paths read; the intervals cover every position at which a register is live, with
separated segments, which hold what has been added. -/
structure LivenessExact (fn : LirFunction) : Prop where
  solution : fn.Solution fn.LiveIn fn.LiveOut
  least : ∀ I O : Nat → Nat → Prop, fn.Solution I O → ∀ b < fn.blocks.length, ∀ v,
    (fn.LiveIn b v → I b v) ∧ (fn.LiveOut b v → O b v)
  live : ∀ b < fn.blocks.length, ∀ v,
    (fn.LiveIn b v ↔ fn.LiveAt v b 0) ∧ (fn.LiveOut b v ↔ fn.LiveAt v b (fn.code b).length)
  covers : ∀ v x, fn.LivePosition v x → CoveredAt (fn.buildIntervals fn.liveTable) v x
  separated : ∀ iv ∈ fn.buildIntervals fn.liveTable, Separated iv.segments
  union : ∀ (v : VReg) (ranges : List (Nat × Nat)) (x : Nat),
    (ranges.foldl (fun iv r => iv.addRange r.1 r.2) ({ vreg := v } : LiveInterval)).At x ↔
      ∃ r ∈ ranges, r.1 ≤ x ∧ x ≤ r.2

theorem coveredAt_finish {calls : List Nat} (h : CoveredAt ivs v x) :
    CoveredAt (ivs.map (finishInterval calls)) v x := by
  obtain ⟨iv, hiv, hx⟩ := h
  exact ⟨finishInterval calls iv, by rw [getElem?_map, hiv]; rfl, hx⟩

theorem coveredAt_of_livePosition (hc : fn.CountsReadsOf v) (hpos : fn.LivePosition v x) :
    CoveredAt (fn.buildIntervals fn.liveTable) v x := by
  have hall : fn.Covered v 0 0 _ := covered_all hc fn.blocks.length 0 (Nat.zero_add _)
  refine coveredAt_finish ?_
  rcases hpos with ⟨b, k, hlive, hx⟩ | ⟨b, k, inst, hi, hwant, rfl⟩
  · refine hall.points b k (liveAt_lt hlive) ?_ hlive x hx
    omega
  · refine hall.insts b k inst (code_lt hi) ?_ hi hwant
    omega

end LirFunction

/-! ### A guard whose exit reads memory -/

/-- `mov %0, 1; jcc 1; ret`, and the exit of the guard, which reads `state`. -/
def guarded (state : LirOperand) : LirFunction where
  blocks := [
    { id := 0
      instructions := [
        { opcode := .mov, defs := [{ kind := .vreg { id := 0 } }], uses := [{ kind := .immInt 1 }],
          rest := {} },
        { opcode := .jcc, uses := [{ kind := .label 1 }], rest := {} },
        { opcode := .ret, rest := {} }]
      successors := [1] },
    { id := 1
      instructions := [{ opcode := .guardExit, uses := [state], rest := {} }]
      predecessors := [0] }]
  vregTable := [{ id := 0 }]
  ids := rfl

theorem countsReads_guarded : (guarded { kind := .vreg { id := 0 } }).CountsReads := by
  intro v b hb inst hinst hr
  have hb' : b = 0 ∨ b = 1 := by
    have : b < 2 := hb
    omega
  obtain ⟨r, hr, hk⟩ := hr
  rcases hb' with rfl | rfl
  · have hmem : inst ∈ (guarded { kind := .vreg { id := 0 } }).blocks[0].instructions := hinst
    simp only [guarded, getElem_cons_zero, mem_cons, not_mem_nil, or_false] at hmem
    rcases hmem with rfl | rfl | rfl
    · exact absurd hr not_mem_nil
    · exact .inr (.inl ⟨_, rfl, r, hr, hk⟩)
    · exact absurd hr not_mem_nil
  · exact absurd hinst not_mem_nil

end Brass.Codegen
