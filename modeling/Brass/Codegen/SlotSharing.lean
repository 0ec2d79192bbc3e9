import Brass.Codegen.LinearScanSound
import Brass.Codegen.SpillSlots

/-!
# Registers in one slot

Registers that share a slot are never live together in front of an instruction: their intervals
would overlap there (`not_live_together`). Behind an instruction they are, or one is defined
there while the other lives on, at a copy between them only (`copies_of_written`), and a copy
leaves them equal. What goes wrong is a copy that gives the register it reads a new value too,
or copies a part of it, while just one of the two lives on (`slotRun_sharingSafe`).
-/

namespace Brass.Codegen

open Brass.Util List LiveInterval

/-! ## Positions of definitions -/

section Points

variable {iv : LiveInterval} {segs : List LiveRangeSegment} {x y fromId : Nat}

theorem LiveInterval.contains_of_cutAt {segs' : List LiveRangeSegment}
    (h : cutAt fromId segs = some segs') :
    ∃ seg ∈ segs, seg.contains fromId = true := by
  induction segs generalizing segs' with
  | nil => cases h
  | cons seg segs ih =>
    rw [cutAt] at h
    split at h
    · rename_i hin
      exact ⟨seg, mem_cons_self, hin⟩
    · obtain ⟨cut, hcut, -⟩ := Option.map_eq_some_iff.mp h
      obtain ⟨b, hb, hin⟩ := ih hcut
      exact ⟨b, mem_cons_of_mem _ hb, hin⟩

theorem LiveInterval.at_shortenStart_self (h : Separated iv.segments) :
    (iv.shortenStart fromId).At fromId := by
  unfold shortenStart
  split
  · exact ⟨_, mem_singleton.mpr rfl, contains_iff.mpr ⟨Nat.le_refl _, Nat.le_succ _⟩⟩
  · split
    · exact (at_addRange h (Nat.le_succ _)).mpr (.inr ⟨Nat.le_refl _, Nat.le_succ _⟩)
    · rename_i hcut
      exact mem_cutAt hcut (Nat.le_refl _) (contains_of_cutAt hcut)

theorem Separated.one_segment (h : Separated segs) (hxy : x ≤ y) (hyx : y ≤ x + 1)
    (hx : ∃ seg ∈ segs, seg.contains x = true) (hy : ∃ seg ∈ segs, seg.contains y = true) :
    ∃ seg ∈ segs, seg.start ≤ x ∧ y ≤ seg.stop := by
  obtain ⟨a, ha, hax⟩ := hx
  obtain ⟨b, hb, hby⟩ := hy
  obtain ⟨ha₁, ha₂⟩ := contains_iff.mp hax
  obtain ⟨hb₁, hb₂⟩ := contains_iff.mp hby
  obtain ⟨i, hi, rfl⟩ := mem_iff_getElem.mp ha
  obtain ⟨j, hj, rfl⟩ := mem_iff_getElem.mp hb
  have hpair := pairwise_iff_getElem.mp h.apart
  rcases Nat.lt_trichotomy i j with hij | rfl | hij
  · have := hpair i j hi hj hij
    omega
  · exact ⟨segs[i], ha, ha₁, hb₂⟩
  · have := hpair j i hj hi hij
    omega

end Points

namespace LirFunction

variable {fn : LirFunction} {ivs : List LiveInterval} {b k v w x id liveFrom : Nat} {inst : Inst}
  {r : VReg}

section

variable (h : fn.Building ivs)
include h

theorem coveredAt_addDefAt_self {fixed : PReg} (hr : fn.known r = some v) :
    CoveredAt (addDefAt id fixed ivs r) v id := by
  obtain ⟨hvalid, rfl, hlt⟩ := known_iff.mp hr
  rw [← h.length] at hlt
  unfold addDefAt
  rw [if_pos hvalid, CoveredAt, getElem?_modify, getElem?_eq_getElem hlt]
  have hsep := h.separated _ (getElem_mem hlt)
  refine ⟨(ivs[r.id.toNat].addUsePos id true true fixed).shortenStart id, by simp, ?_⟩
  exact @at_shortenStart_self (addUsePos _ id true true fixed) id hsep

theorem coveredAt_addDefs_written (hw : fn.Writes inst v) :
    CoveredAt (addDefs liveFrom id inst ivs) v id := by
  obtain ⟨r, hr, hk⟩ := hw
  obtain ⟨op, hop, hr⟩ := mem_filterMap.mp hr
  obtain ⟨i, hi, rfl⟩ := mem_iff_getElem.mp hop
  refine (foldl_brings (G := fn.Building) (P := fun ivs => CoveredAt ivs v id) h
    (fun ivs d _ hb => ?_) (fun ivs d _ hb hat => ?_) (.inr ⟨(inst.defs[i], i),
      mem_zipIdx_iff_getElem?.mpr (getElem?_eq_getElem hi), fun ivs hb => ?_⟩)).2
  · split
    · exact hb.addDefAt _ _
    · exact hb.addUses _ _ _
  · split
    · exact coveredAt_addDefAt hb (known_lt hk) (.inl (Nat.le_refl _)) hat
    · exact coveredAt_addUses hb true {} (.inl hat)
  · dsimp only
    rw [hr]
    exact coveredAt_addDefAt_self hb hk

theorem coveredAt_addInstRanges_written (hw : fn.Writes inst v) :
    CoveredAt (addInstRanges fn.guardExits liveFrom ivs (id, inst)) v id := by
  rw [addInstRanges_eq]
  exact coveredAt_addInstUses h.addDefs.addExitUses
    (.inl (coveredAt_addExitUses h.addDefs (.inl (coveredAt_addDefs_written h hw))))

theorem coveredAt_foldl_insts (hv : v < fn.vregTable.length)
    {es : List (Nat × Inst)} (hes : ∀ e ∈ es, e.1 ≤ x) (hat : CoveredAt ivs v x) :
    fn.Building (es.foldl (addInstRanges fn.guardExits liveFrom) ivs) ∧
      CoveredAt (es.foldl (addInstRanges fn.guardExits liveFrom) ivs) v x :=
  foldl_brings (G := fn.Building) (P := fun ivs => CoveredAt ivs v x) h
    (fun _ _ _ hb => hb.addInstRanges)
    (fun _ e he hb hat => coveredAt_addInstRanges hb hv (.inl ⟨hat, .inl (hes e he)⟩))
    (.inl hat)

theorem Building.addBlockRanges (table : List (List Nat)) (b : Nat) :
    fn.Building (fn.addBlockRanges table ivs b) := by
  have hout := (@coveredAt_liveOut fn ivs h (fn.liveFrom b) (fn.endId b + 1) (fn.liveOut table b)).1
  rw [LirFunction.addBlockRanges]
  split
  · exact hout
  · exact foldlRecOn _ _ hout fun _ hb _ _ => hb.addInstRanges

theorem coveredAt_addBlockRanges (hv : v < fn.vregTable.length)
    (table : List (List Nat)) (hx : ∀ e ∈ fn.numbered b, e.1 ≤ x) (hat : CoveredAt ivs v x) :
    CoveredAt (fn.addBlockRanges table ivs b) v x := by
  obtain ⟨hout, hcov⟩ := @coveredAt_liveOut fn ivs h (fn.liveFrom b) (fn.endId b + 1)
    (fn.liveOut table b)
  rw [LirFunction.addBlockRanges]
  split
  · exact hcov v x (.inl hat)
  · exact (coveredAt_foldl_insts hout hv (fun e he => hx e (mem_reverse.mp he))
      (hcov v x (.inl hat))).2

end

theorem numbered_of_code (hi : (fn.code b)[k]? = some inst) :
    (fn.numbered b)[k]? = some (fn.startId b + 2 * k, inst) := by
  rw [numbered, getElem?_mapIdx, ← code_of_getElem? hi, hi]
  rfl

theorem coveredAt_written (hi : (fn.code b)[k]? = some inst) (hw : fn.Writes inst v)
    (table : List (List Nat)) :
    CoveredAt (fn.buildIntervals table) v (fn.startId b + 2 * k) := by
  have hv : v < fn.vregTable.length := by
    obtain ⟨r, -, hk⟩ := hw
    exact known_lt hk
  have hnum := numbered_of_code hi
  refine coveredAt_finish ?_
  have hstart : fn.Building (fn.vregTable.map (fun v => { vreg := v })) := by
    refine ⟨length_map _, fun iv hiv => ?_⟩
    obtain ⟨v, -, rfl⟩ := mem_map.mp hiv
    exact separated_nil
  -- the walk up to the block, the block, and the blocks in front of it
  obtain ⟨pre, post, hblocks⟩ := append_of_mem (mem_reverse.mpr (mem_range.mpr (code_lt hi)))
  have hpost : ∀ b' ∈ post, b' < b := by
    have hpair : ((range fn.blocks.length).reverse).Pairwise (fun x y => y < x) :=
      pairwise_reverse.mpr pairwise_lt_range
    rw [hblocks] at hpair
    exact (pairwise_cons.mp (pairwise_append.mp hpair).2.1).1
  rw [hblocks, foldl_append, foldl_cons]
  have hpre := foldlRecOn (motive := fn.Building) pre (fn.addBlockRanges table) hstart
    fun _ hb b' _ => hb.addBlockRanges table b'
  generalize pre.foldl (fn.addBlockRanges table) _ = ivs at hpre
  have hblock : CoveredAt (fn.addBlockRanges table ivs b) v (fn.startId b + 2 * k) := by
    have hexit : fn.isGuardExit b = false := by
      by_contra hexit
      rw [Bool.not_eq_false] at hexit
      rw [code, if_pos hexit] at hi
      cases hi
    have hout := (@coveredAt_liveOut fn ivs hpre (fn.liveFrom b) (fn.endId b + 1)
      (fn.liveOut table b)).1
    rw [LirFunction.addBlockRanges, if_neg (by rw [hexit]; exact Bool.false_ne_true)]
    obtain ⟨later, earlier, hinsts⟩ := append_of_mem (mem_reverse.mpr (mem_of_getElem? hnum))
    have hearlier : ∀ e ∈ earlier, e.1 ≤ fn.startId b + 2 * k := by
      have hpair : ((fn.numbered b).reverse).Pairwise (fun x y => y.1 < x.1) :=
        pairwise_reverse.mpr (fn.numbered_pairwise b)
      rw [hinsts] at hpair
      exact fun e he => Nat.le_of_lt ((pairwise_cons.mp (pairwise_append.mp hpair).2.1).1 e he)
    rw [hinsts, foldl_append, foldl_cons]
    have hlater := foldlRecOn (motive := fn.Building) later
      (addInstRanges fn.guardExits (fn.liveFrom b)) hout fun _ hb _ _ => hb.addInstRanges
    exact (coveredAt_foldl_insts hlater.addInstRanges hv hearlier
      (coveredAt_addInstRanges_written hlater hw)).2
  refine (foldl_brings (G := fn.Building)
    (P := fun ivs => CoveredAt ivs v (fn.startId b + 2 * k)) (hpre.addBlockRanges table b)
    (fun _ b' _ hb => hb.addBlockRanges table b') (fun _ b' hb' hb hat => ?_) (.inl hblock)).2
  refine coveredAt_addBlockRanges hb hv table (fun e he => ?_) hat
  have h₁ := (mem_numbered he).2
  have h₂ := startId_add_le (hpost b' hb') (code_lt hi)
  omega

/-! ## Copies where intervals overlap -/

/-- The instruction copies `x` to `y`. -/
def Copies (fn : LirFunction) (inst : Inst) (y x : Nat) : Prop :=
  ∃ c ∈ copyOperands inst, ∃ dst src, copyVregs c = some (dst, src) ∧
    fn.known dst = some y ∧ fn.known src = some x

theorem Copies.writes (h : fn.Copies inst v w) : fn.Writes inst v := by
  obtain ⟨c, hc, dst, src, hregs, hdst, -⟩ := h
  have hdef : c.1 ∈ inst.defs := by
    unfold copyOperands at hc
    split at hc
    case h_8 => exact (of_mem_zip hc).1
    case h_9 => exact absurd hc not_mem_nil
    all_goals
      split at hc
      · rename_i hd _
        rw [mem_singleton.mp hc, hd]
        exact mem_cons_self
      · exact absurd hc not_mem_nil
  refine ⟨dst, mem_filterMap.mpr ⟨c.1, hdef, ?_⟩, hdst⟩
  unfold copyVregs at hregs
  split at hregs
  · rename_i hd _
    split at hregs
    · cases hregs
      exact hd
    · cases hregs
  · cases hregs

theorem known_of_id {r r' : VReg} (hr : fn.known r = some v) (hid : r'.id.toNat = v) :
    fn.known r' = some v := by
  obtain ⟨hvalid, hrid, hlt⟩ := known_iff.mp hr
  have heq : r'.id = r.id := UInt32.toNat_inj.mp (hid.trans hrid.symm)
  refine known_iff.mpr ⟨?_, hid, hlt⟩
  rw [VReg.isValid, heq]
  exact hvalid

theorem allNumbered_unique {i i' : Inst} (h : (id, i) ∈ fn.allNumbered)
    (h' : (id, i') ∈ fn.allNumbered) : i = i' := by
  obtain ⟨m, hm, heq⟩ := mem_iff_getElem.mp h
  obtain ⟨n, hn, heq'⟩ := mem_iff_getElem.mp h'
  have hpair := pairwise_iff_getElem.mp fn.allNumbered_pairwise
  rcases Nat.lt_trichotomy m n with hmn | rfl | hmn
  · have hlt := hpair m n hm hn hmn
    rw [heq, heq'] at hlt
    exact absurd hlt (Nat.lt_irrefl _)
  · rw [heq] at heq'
    exact congrArg Prod.snd heq'
  · have hlt := hpair n m hn hm hmn
    rw [heq, heq'] at hlt
    exact absurd hlt (Nat.lt_irrefl _)

/-- A noted copy between two known registers at the position of an instruction is one of its
copies. -/
theorem copies_of_position (hi : (fn.code b)[k]? = some inst) {r r' : VReg}
    (hv : fn.known r = some v) (hw : fn.known r' = some w)
    (h : (copyKey v w, fn.startId b + 2 * k) ∈ fn.copyPositions) :
    fn.Copies inst v w ∨ fn.Copies inst w v := by
  obtain ⟨⟨id, inst'⟩, hmem, hc⟩ := mem_flatMap.mp h
  obtain ⟨⟨dst, src⟩, hcopy, heq⟩ := mem_map.mp hc
  obtain ⟨c, hop, hregs⟩ := mem_filterMap.mp hcopy
  simp only [Prod.mk.injEq] at heq
  obtain ⟨hkey, hid⟩ := heq
  have hinst : inst' = inst := by
    have hself : (fn.startId b + 2 * k, inst) ∈ fn.allNumbered :=
      mem_flatMap.mpr ⟨b, mem_range.mpr (code_lt hi), mem_of_getElem? (numbered_of_code hi)⟩
    exact allNumbered_unique hmem (hid ▸ hself)
  subst hinst
  have hends : (dst.id.toNat = v ∧ src.id.toNat = w) ∨ (dst.id.toNat = w ∧ src.id.toNat = v) := by
    simp only [copyKey] at hkey
    split_ifs at hkey <;> simp only [Prod.mk.injEq] at hkey <;> omega
  rcases hends with ⟨hd, hs⟩ | ⟨hd, hs⟩
  · exact .inl ⟨c, hop, dst, src, hregs, known_of_id hv hd, known_of_id hw hs⟩
  · exact .inr ⟨c, hop, dst, src, hregs, known_of_id hw hd, known_of_id hv hs⟩

theorem copyPositions_even {key : Nat × Nat} {c : Nat} (h : (key, c) ∈ fn.copyPositions) :
    ∃ n, c = 2 * n := by
  obtain ⟨⟨id, inst⟩, hmem, hc⟩ := mem_flatMap.mp h
  obtain ⟨p, -, heq⟩ := mem_map.mp hc
  obtain ⟨b, hb, hnum⟩ := mem_flatMap.mp hmem
  obtain ⟨i, hi, hid⟩ := mem_mapIdx.mp hnum
  simp only [Prod.mk.injEq] at heq hid
  rw [startId_eq (mem_range.mp hb)] at hid
  exact ⟨fn.countBefore b + i, by omega⟩

section Shared

variable {cc : CallingConv} {constants : List Nat} {s : SlotState}
  (hrun : (SlotData.of fn cc constants).SlotRun s) (hs : SlotData.SharesSlot s v w)

include hrun hs

/-- Two registers of one slot whose intervals both cover two positions in a row, or one: there
is a copy between the two registers there. -/
theorem copy_of_covered {x y : Nat} (hxy : x ≤ y) (hyx : y ≤ x + 1)
    (hvx : CoveredAt (fn.buildIntervals fn.liveTable) v x)
    (hvy : CoveredAt (fn.buildIntervals fn.liveTable) v y)
    (hwx : CoveredAt (fn.buildIntervals fn.liveTable) w x)
    (hwy : CoveredAt (fn.buildIntervals fn.liveTable) w y) :
    ∃ c, (copyKey v w, c) ∈ fn.copyPositions ∧ c ≤ x ∧ y ≤ c + 1 := by
  have hseg : ∀ {v}, CoveredAt (fn.buildIntervals fn.liveTable) v x →
      CoveredAt (fn.buildIntervals fn.liveTable) v y →
      ∀ iv, (ScanData.of fn cc).intervals[v]? = some iv →
        iv.vreg.id.toNat = v ∧ ∃ seg ∈ iv.segments, seg.start ≤ x ∧ y ≤ seg.stop := by
    intro v ⟨iv₀, hiv₀, hx⟩ ⟨iv₁, hiv₁, hy⟩ iv hiv
    rw [hiv₀, Option.some_inj] at hiv₁
    subst hiv₁
    obtain ⟨iv', hiv', hsame⟩ := markFoldedUses_sameLife cc.arch fn fn.blockRanges _ hiv₀
    have heq : iv' = iv := by
      have hfolded : (ScanData.of fn cc).intervals[v]? = some iv' := hiv'
      rwa [hiv, Option.some_inj, eq_comm] at hfolded
    subst heq
    have hsep : Separated iv₀.segments :=
      (buildIntervals_within _ iv₀ (mem_of_getElem? hiv₀)).separated
    rw [hsame.vreg, hsame.segments]
    refine ⟨?_, hsep.one_segment hxy hyx hx hy⟩
    have hvreg := congrArg (fun l => l[v]?) (fn.buildIntervals_spec fn.liveTable).1
    simp only [List.getElem?_map, hiv₀, Option.map_some] at hvreg
    have hlt : v < fn.vregTable.length := (List.getElem?_eq_some_iff.mp hvreg.symm).1
    have hid := congrArg (fun l => l[v]?) fn.ids
    simp only [getElem?_map, ← hvreg, getElem?_range hlt, Option.map_some, Option.some_inj] at hid
    exact hid
  obtain ⟨⟨a, b, ha, hb, hclear⟩, -⟩ := slotRun_clear fn cc constants hrun hs
  obtain ⟨hav, sa, hsa, ha₁, ha₂⟩ := hseg hvx hvy a ha
  obtain ⟨hbw, sb, hsb, hb₁, hb₂⟩ := hseg hwx hwy b hb
  obtain ⟨c, hc, h₁, h₂⟩ := hclear sa hsa sb hsb (by omega)
  rw [hav, hbw] at hc
  exact ⟨c, hc, by omega, by omega⟩

/-- Registers of one slot are never live together in front of an instruction, the first one of
the function apart. -/
theorem not_live_together (hreads : fn.CountsReads) (hi : (fn.code b)[k]? = some inst)
    (hpos : 0 < fn.startId b + 2 * k) (hv : fn.LiveAt v b k) (hw : fn.LiveAt w b k) : False := by
  obtain ⟨x, hx⟩ : ∃ x, x + 1 = fn.startId b + 2 * k := ⟨_, Nat.sub_add_cancel hpos⟩
  have hcover : ∀ {v}, fn.LiveAt v b k → CoveredAt (fn.buildIntervals fn.liveTable) v x ∧
      CoveredAt (fn.buildIntervals fn.liveTable) v (x + 1) := by
    intro v hv
    refine ⟨coveredAt_of_livePosition (hreads v) (.inl ⟨b, k, hv, hx⟩), ?_⟩
    refine coveredAt_of_livePosition (hreads v) (.inr ⟨b, k, inst, hi, ?_, hx⟩)
    cases hv with
    | read hi' hr =>
      rw [hi, Option.some_inj] at hi'
      exact .inl (hi' ▸ hr)
    | skip _ _ h => exact .inr h
    | edge => exact absurd (List.getElem?_eq_some_iff.mp hi).1 (Nat.lt_irrefl _)
  obtain ⟨c, hc, h₁, h₂⟩ := copy_of_covered hrun hs (Nat.le_succ x) (Nat.le_refl _)
    (hcover hv).1 (hcover hv).2 (hcover hw).1 (hcover hw).2
  obtain ⟨n, rfl⟩ := copyPositions_even hc
  rw [startId_eq (code_lt hi)] at hx
  omega

/-- Where the intervals of registers of one slot both cover an instruction, it is a copy between
the two. -/
theorem copies_of_covered (hi : (fn.code b)[k]? = some inst) {r r' : VReg}
    (hr : fn.known r = some v) (hr' : fn.known r' = some w)
    (hv : CoveredAt (fn.buildIntervals fn.liveTable) v (fn.startId b + 2 * k))
    (hw : CoveredAt (fn.buildIntervals fn.liveTable) w (fn.startId b + 2 * k)) :
    fn.Copies inst v w ∨ fn.Copies inst w v := by
  obtain ⟨c, hc, h₁, h₂⟩ := copy_of_covered hrun hs (Nat.le_refl _) (Nat.le_succ _) hv hv hw hw
  refine copies_of_position hi hr hr' ?_
  obtain ⟨n, rfl⟩ := copyPositions_even hc
  have hpos : 2 * n = fn.startId b + 2 * k := by
    rw [startId_eq (code_lt hi)] at h₁ h₂ ⊢
    omega
  exact hpos ▸ hc

end Shared

/-! ## Runs -/

/-- How many bytes of a register the instruction copies to the operand. -/
def copyWidth (inst : Inst) (d : LirOperand) : UInt8 :=
  match inst.opcode with
  | .mov | .movsd => 8
  | .mov32 | .movss => 4
  | .movaps => 16
  | .vmovaps | .vmovups => 32
  | .parallelCopy => d.size
  | _ => 0

/-- The instruction copies all of `x` to `y`. -/
def WholeCopy (fn : LirFunction) (inst : Inst) (y x : Nat) : Prop :=
  ∃ c ∈ copyOperands inst, ∃ dst src, copyVregs c = some (dst, src) ∧
    fn.known dst = some y ∧ fn.known src = some x ∧
    (fn.vregTable.getD y {}).size ≤ copyWidth inst c.1

/-- What an instruction does to the values of the registers: it leaves those that it does not
write, and copies at once what it copies; what else it writes is open. -/
structure Performs {Val : Type} (fn : LirFunction) (inst : Inst) (σ σ' : Nat → Val) : Prop where
  frame : ∀ v, ¬ fn.Writes inst v → σ' v = σ v
  copies : ∀ y x, fn.WholeCopy inst y x → σ' y = σ x

/-- A run comes to the point in front of instruction `k` of block `b` with the values `σ`. Runs
start at the entry, and come from elsewhere to landing pads and resume points, with any values. -/
inductive Reached {Val : Type} (fn : LirFunction) : Nat → Nat → (Nat → Val) → Prop
  | entry (σ : Nat → Val) : Reached fn 0 0 σ
  | implicit {b : Nat} (hb : fn.isEnteredImplicitly b = true) (hcode : fn.code b ≠ [])
    (σ : Nat → Val) : Reached fn b 0 σ
  | step {b k : Nat} {inst : Inst} {σ σ' : Nat → Val} (h : Reached fn b k σ)
    (hi : (fn.code b)[k]? = some inst) (hp : fn.Performs inst σ σ') : Reached fn b (k + 1) σ'
  | edge {b s : Nat} {σ : Nat → Val} (h : Reached fn b (fn.code b).length σ)
    (hb : b < fn.blocks.length) (hs : s ∈ (fn.block b).successors) (hlt : s < fn.blocks.length) :
    Reached fn s 0 σ

/-- Two registers of one slot hold the same value wherever both are live, and an instruction that
defines one of them gives it the value of the other, if that lives on. -/
structure SharingSafe (fn : LirFunction) (s : SlotState) : Prop where
  agree : ∀ (Val : Type) b k (σ : Nat → Val), fn.Reached b k σ →
    ∀ v w, SlotData.SharesSlot s v w → fn.LiveAt v b k → fn.LiveAt w b k → σ v = σ w
  store : ∀ (Val : Type) b k (σ σ' : Nat → Val) inst, fn.Reached b k σ →
    (fn.code b)[k]? = some inst → fn.Performs inst σ σ' →
    ∀ v w, SlotData.SharesSlot s v w → fn.Writes inst v → fn.LiveAt w b (k + 1) → σ' v = σ' w

/-- Nothing is read before it is written from where the first instruction stands. -/
def NothingLiveIn (fn : LirFunction) : Prop := ∀ b v, fn.startId b = 0 → ¬ fn.LiveAt v b 0

/-- Where at most one of two registers lives on behind a copy from `x` to `y`, or the copy ends
its block: if `x` lives on, all of it is copied, and if one of them does, the copy does not also
define `x`. Registers of different sizes, or of more than eight bytes, are left out. -/
def CopiesKeep (fn : LirFunction) : Prop :=
  ∀ b k inst, (fn.code b)[k]? = some inst → ∀ y x, fn.Copies inst y x →
    (fn.vregTable.getD y {}).size = (fn.vregTable.getD x {}).size →
    (fn.vregTable.getD y {}).size ≤ 8 →
    (¬ (fn.LiveAt y b (k + 1) ∧ fn.LiveAt x b (k + 1)) ∨ k + 1 = (fn.code b).length) →
    (fn.LiveAt x b (k + 1) → fn.WholeCopy inst y x ∧ ¬ fn.Writes inst x) ∧
    (fn.LiveAt y b (k + 1) → ¬ fn.Writes inst x)

theorem nothingLiveIn_of_table (hreads : fn.CountsReads)
    (h : ∀ b < fn.blocks.length, fn.startId b = 0 → liveIn fn.liveTable b = []) :
    fn.NothingLiveIn := by
  intro b v hzero hv
  have hb := liveAt_lt hv
  have hin : v ∈ liveIn fn.liveTable b := (liveIn_iff_liveAt (hreads v) hb).1.mpr hv
  rw [h b hb hzero] at hin
  exact absurd hin not_mem_nil

theorem exists_known_of_liveAt (h : fn.LiveAt v b k) : ∃ r, fn.known r = some v := by
  induction h with
  | read _ hr =>
    obtain ⟨r, -, hk⟩ := hr
    exact ⟨r, hk⟩
  | skip _ _ _ ih => exact ih
  | edge _ _ _ _ ih => exact ih

section Safe

variable {cc : CallingConv} {constants : List Nat} {s : SlotState}
  (hreads : fn.CountsReads) (hcopies : fn.CopiesKeep)
  (hrun : (SlotData.of fn cc constants).SlotRun s)

include hreads hcopies hrun

/-- Behind a copy that writes one register of a slot while the other lives on, the two are equal,
unless both live on in front of another instruction. -/
theorem equal_behind {Val : Type} {σ σ' : Nat → Val} (hs : SlotData.SharesSlot s v w)
    (hi : (fn.code b)[k]? = some inst) (hp : fn.Performs inst σ σ')
    (hcopy : fn.Copies inst v w ∨ fn.Copies inst w v) (hwrites : fn.Writes inst v)
    (hw : fn.LiveAt w b (k + 1)) : σ' v = σ' w := by
  obtain ⟨-, hsize, hsmall⟩ := slotRun_clear fn cc constants hrun hs
  have hone : ¬ (fn.LiveAt v b (k + 1) ∧ fn.LiveAt w b (k + 1)) ∨ k + 1 = (fn.code b).length := by
    have hlt := (List.getElem?_eq_some_iff.mp hi).1
    rcases Nat.eq_or_lt_of_le (Nat.succ_le_of_lt hlt) with hend | hlt'
    · exact .inr hend
    · refine .inl fun ⟨hv', hw'⟩ => ?_
      exact not_live_together hrun hs hreads (getElem?_eq_getElem hlt') (by omega) hv' hw'
  rcases hcopy with hvw | hwv
  · obtain ⟨hkeep, -⟩ := hcopies b k inst hi v w hvw hsize hsmall hone
    obtain ⟨hwhole, hno⟩ := hkeep hw
    rw [hp.copies v w hwhole, hp.frame w hno]
  · obtain ⟨-, hkeep⟩ := hcopies b k inst hi w v hwv hsize.symm (hsize ▸ hsmall)
      (hone.imp_left fun h hh => h hh.symm)
    exact absurd hwrites (hkeep hw)

theorem equal_where_live {Val : Type} {σ : Nat → Val} (hentry : fn.NothingLiveIn)
    (hreach : fn.Reached b k σ) (hs : SlotData.SharesSlot s v w) (hv : fn.LiveAt v b k)
    (hw : fn.LiveAt w b k) : σ v = σ w := by
  have hstart : ∀ {b}, fn.code b ≠ [] → fn.LiveAt v b 0 → fn.LiveAt w b 0 → False := by
    intro b hcode hv hw
    rcases Nat.eq_zero_or_pos (fn.startId b) with hzero | hpos
    · exact hentry b v hzero hv
    · obtain ⟨inst, hi⟩ : ∃ inst, (fn.code b)[0]? = some inst :=
        ⟨_, getElem?_eq_getElem (length_pos_iff.mpr hcode)⟩
      exact not_live_together hrun hs hreads hi (by omega) hv hw
  induction hreach with
  | entry σ => exact absurd hv (hentry 0 v (by
      rw [startId]
      cases fn.blocks <;> rfl))
  | implicit _ hcode σ => exact (hstart hcode hv hw).elim
  | @step b k inst σ σ' _ hi hp _ =>
    obtain ⟨r, hr⟩ := exists_known_of_liveAt hv
    obtain ⟨r', hr'⟩ := exists_known_of_liveAt hw
    have hcopy : fn.Copies inst v w ∨ fn.Copies inst w v :=
      copies_of_covered hrun hs hi hr hr'
        (coveredAt_of_livePosition (hreads v) (.inr ⟨b, k, inst, hi, .inr hv, rfl⟩))
        (coveredAt_of_livePosition (hreads w) (.inr ⟨b, k, inst, hi, .inr hw, rfl⟩))
    -- a copy writes one of the two
    rcases hcopy with hvw | hwv
    · exact equal_behind hreads hcopies hrun hs hi hp (.inl hvw) hvw.writes hw
    · exact (equal_behind hreads hcopies hrun hs.symm hi hp (.inl hwv) hwv.writes hv).symm
  | edge _ hb hsucc hlt ih =>
    exact ih (LiveAt.edge hb hsucc hlt hv) (LiveAt.edge hb hsucc hlt hw)

end Safe

end LirFunction

/-! ## Two parameters of a loop -/

/-- `mov %0, 1; mov %1, 2; parallel_copy`, and `test` of the register `last`. -/
def handingOver (defs uses : List LirOperand) (last : VReg) : LirFunction where
  blocks := [
    { id := 0
      instructions := [
        { opcode := .mov, defs := [{ kind := .vreg { id := 0 } }], uses := [{ kind := .immInt 1 }],
          rest := {} },
        { opcode := .mov, defs := [{ kind := .vreg { id := 1 } }], uses := [{ kind := .immInt 2 }],
          rest := {} },
        { opcode := .parallelCopy, defs := defs, uses := uses, rest := {} },
        { opcode := .test, uses := [{ kind := .vreg last }], rest := {} }] }]
  vregTable := [{ id := 0 }, { id := 1 }, { id := 2 }]
  ids := rfl

/-- `%2` takes the value of `%0`, which dies. -/
abbrev handsOver : LirFunction :=
  handingOver [{ kind := .vreg { id := 2 } }] [{ kind := .vreg { id := 0 } }] { id := 2 }

/-- `%2` takes the value of `%0` and is not read, and `%0` takes the value of `%1`. -/
abbrev handsOn : LirFunction :=
  handingOver [{ kind := .vreg { id := 2 } }, { kind := .vreg { id := 0 } }]
    [{ kind := .vreg { id := 0 } }, { kind := .vreg { id := 1 } }] { id := 0 }

/-- The slots after `slot_of` has been called for `%0` and for `%2`. -/
def slotsOf (fn : LirFunction) : SlotState :=
  (SlotData.of fn ReentryExample.sysV []).slotOf { id := 2 }
    ((SlotData.of fn ReentryExample.sysV []).slotOf { id := 0 }
      { vregSlot := List.replicate fn.vregTable.length none })

theorem slotRun_slotsOf (fn : LirFunction)
    (h : ∀ v ∈ [({ id := 2 } : VReg), { id := 0 }], v ∈ fn.vregTable) :
    (SlotData.of fn ReentryExample.sysV []).SlotRun (slotsOf fn) :=
  SlotData.SlotRun.call (SlotData.SlotRun.call SlotData.SlotRun.init
    (h _ (mem_cons_of_mem _ mem_cons_self))) (h _ mem_cons_self)

theorem countsReads_handingOver {defs uses : List LirOperand} {last : VReg}
    (hdefs : ∀ d ∈ defs, d.memVregs = []) : (handingOver defs uses last).CountsReads := by
  intro v
  refine LirFunction.countsReadsOf_of_plain rfl fun b hb inst hinst => ?_
  obtain rfl : b = 0 := Nat.lt_one_iff.mp hb
  have hmem : inst ∈ (handingOver defs uses last).blocks[0].instructions := hinst
  simp only [handingOver, getElem_cons_zero, mem_cons, not_mem_nil, or_false] at hmem
  rcases hmem with rfl | rfl | rfl | rfl
  · rfl
  · rfl
  · exact flatMap_eq_nil_iff.mpr hdefs
  · rfl

theorem copiesKeep_handsOver : handsOver.CopiesKeep := by
  rintro b k inst hi y x ⟨c, hc, dst, src, hregs, hdst, hsrc⟩ - - -
  obtain rfl : b = 0 := Nat.lt_one_iff.mp (LirFunction.code_lt hi)
  have hmem : inst ∈ handsOver.blocks[0].instructions := mem_of_getElem? hi
  simp only [handingOver, getElem_cons_zero, mem_cons, not_mem_nil, or_false] at hmem
  rcases hmem with rfl | rfl | rfl | rfl
  · obtain rfl := mem_singleton.mp hc
    cases hregs
  · obtain rfl := mem_singleton.mp hc
    cases hregs
  · obtain rfl := mem_singleton.mp hc
    cases hregs
    obtain rfl : 2 = y := Option.some.inj hdst
    obtain rfl : 0 = x := Option.some.inj hsrc
    have hno : ∀ inst : Inst, inst.defs = [{ kind := .vreg { id := 2 } }] →
        ¬ handsOver.Writes inst 0 := by
      rintro inst hdefs ⟨r, hr, hk⟩
      rw [hdefs] at hr
      rw [mem_singleton.mp hr] at hk
      cases hk
    refine ⟨fun _ => ⟨⟨_, mem_singleton.mpr rfl, _, _, rfl, rfl, rfl, ?_⟩, hno _ rfl⟩,
      fun _ => hno _ rfl⟩
    exact UInt8.le_refl 8
  · exact absurd hc not_mem_nil

end Brass.Codegen
