import Brass.Codegen.LiveCovered

/-!
# The references live at a call

`record_live_gcrefs` of `codegen/linear_scan.cpp` walks each block backwards from the registers
that are live out of it, and notes at every call and safepoint which references are live. It
notes them before it takes away what the instruction itself defines, so they are the references
that are live behind the instruction (`mem_liveGcrefs_iff`).
-/

namespace Brass.Codegen

open Brass.Util List

namespace LirFunction

variable (fn : LirFunction)

def isGcref (r : VReg) : Bool :=
  match fn.known r with
  | some v => (fn.vregTable.getD v {}).isGcref
  | none => false

def gcrefIds : List Nat :=
  (List.range fn.vregTable.length).filter (fun id => fn.isGcref (fn.vregTable.getD id {}))

/-! ## The walk -/

def killDefs (inst : Inst) (live : Nat → Bool) : Nat → Bool :=
  inst.defs.foldl (fun live d =>
    match d.vreg? with
    | some r => if fn.isGcref r then Function.update live r.id.toNat false else live
    | none => live) live

/-- `mark_use`, for each of the registers. -/
def markUses (regs : List VReg) (live : Nat → Bool) : Nat → Bool :=
  regs.foldl (fun live r => if fn.isGcref r then Function.update live r.id.toNat true else live) live

/-- The registers that a use reads; the label of a `Jcc` reads what the guard exit reads. -/
def regsOfUse (inst : Inst) (u : LirOperand) : List VReg :=
  u.readVregs ++
    if inst.opcode == .jcc then
      match u.label?.bind (fun id => fn.guardExits.lookup id) with
      | some exit => useRegs exit
      | none => []
    else []

/-- What is live in front of an instruction, from what is live behind it. -/
def gcrefsBefore (inst : Inst) (live : Nat → Bool) : Nat → Bool :=
  fn.markUses (inst.uses.flatMap (fn.regsOfUse inst))
    (fn.markUses (defMemRegs inst) (fn.killDefs inst live))

/-- A call or a safepoint. -/
def isSite (inst : Inst) : Bool := inst.isCall || inst.opcode == .safepoint

/-- What is noted at a call or a safepoint; one that reaches no collection has no roots. -/
def siteGcrefs (inst : Inst) (live : Nat → Bool) : Option (List Nat) :=
  if isSite inst then
    some (fn.gcrefIds.filter (fun id => live id && !inst.rest.noGcPoint))
  else none

/-- The walk over the instructions of a block: what is live in front of them, and what is noted
at each. -/
def recordFrom (out : Nat → Bool) : List Inst → (Nat → Bool) × List (Option (List Nat))
  | [] => (out, [])
  | inst :: insts =>
    let r := recordFrom out insts
    (fn.gcrefsBefore inst r.1, fn.siteGcrefs inst r.1 :: r.2)

def gcrefsOut (b : Nat) : Nat → Bool :=
  fun v => decide (v ∈ fn.liveOut fn.liveTable b) && fn.isGcref (fn.vregTable.getD v {})

/-- `live_gcrefs` of the instructions of a block. -/
def recordLiveGcrefs (b : Nat) : List (Option (List Nat)) :=
  (fn.recordFrom (fn.gcrefsOut b) (fn.block b).instructions).2

/-! ## What the walk computes -/

variable {fn} {b k v : Nat} {inst : Inst} {live : Nat → Bool}

theorem isGcref_iff {r : VReg} : fn.isGcref r = true ↔
    ∃ v, fn.known r = some v ∧ (fn.vregTable.getD v {}).isGcref = true := by
  unfold isGcref
  cases fn.known r <;> simp

theorem known_table (hv : v < fn.vregTable.length) (hvalid : (fn.vregTable.getD v {}).isValid = true) :
    fn.known (fn.vregTable.getD v {}) = some v := by
  refine known_iff.mpr ⟨hvalid, ?_, hv⟩
  have hid := congrArg (fun l => l[v]?) fn.ids
  simp only [getElem?_map, getElem?_range hv, getElem?_eq_getElem hv,
    Option.map_some, Option.some_inj] at hid
  rw [getD_eq_getElem?_getD, getElem?_eq_getElem hv]
  exact hid

def IsRoot (fn : LirFunction) (v : Nat) : Prop := v ∈ fn.gcrefIds

theorem isRoot_iff : fn.IsRoot v ↔ v < fn.vregTable.length ∧
    (fn.vregTable.getD v {}).isValid = true ∧ (fn.vregTable.getD v {}).isGcref = true := by
  rw [IsRoot, gcrefIds, mem_filter, mem_range]
  refine and_congr_right fun hv => ?_
  rw [isGcref_iff]
  constructor
  · rintro ⟨w, hw, hg⟩
    obtain ⟨hvalid, -, -⟩ := known_iff.mp hw
    rw [known_table hv hvalid, Option.some_inj] at hw
    exact ⟨hvalid, hw ▸ hg⟩
  · rintro ⟨hvalid, hg⟩
    exact ⟨v, known_table hv hvalid, hg⟩

/-- A register that is known as a reference is that reference. -/
theorem isGcref_known {r : VReg} (hr : fn.known r = some v) :
    fn.isGcref r = true ↔ fn.IsRoot v := by
  obtain ⟨hvalid, hid, hv⟩ := known_iff.mp hr
  have hne : v ≠ VReg.invalid.toNat := by
    intro hv'
    rw [VReg.isValid, bne_iff_ne] at hvalid
    exact hvalid (UInt32.toNat_inj.mp (hid.trans hv'))
  have htable : (fn.vregTable.getD v {}).isValid = true := by
    rw [VReg.isValid, bne_iff_ne]
    intro hinv
    have hid' := congrArg (fun l => l[v]?) fn.ids
    simp only [getElem?_map, getElem?_range hv, getElem?_eq_getElem hv,
      Option.map_some, Option.some_inj] at hid'
    rw [getD_eq_getElem?_getD, getElem?_eq_getElem hv] at hinv
    refine hne ?_
    rw [← hid', ← hinv]
    rfl
  rw [isGcref_iff, isRoot_iff]
  constructor
  · rintro ⟨w, hw, hg⟩
    rw [hr, Option.some_inj] at hw
    exact ⟨hv, htable, hw ▸ hg⟩
  · rintro ⟨-, -, hg⟩
    exact ⟨v, hr, hg⟩

theorem markUses_iff (hv : fn.IsRoot v) (regs : List VReg) :
    fn.markUses regs live v = true ↔ live v = true ∨ ∃ r ∈ regs, fn.known r = some v := by
  unfold markUses
  induction regs generalizing live with
  | nil => simp
  | cons r regs ih =>
    rw [foldl_cons, ih, exists_mem_cons_iff]
    by_cases hr : fn.known r = some v
    · have hid := (known_iff.mp hr).2.1
      rw [if_pos ((isGcref_known hr).mpr hv), hid, Function.update_self]
      simp [hr]
    · have hsame : (if fn.isGcref r then Function.update live r.id.toNat true else live) v =
          live v := by
        split
        · rename_i hg
          obtain ⟨w, hw, -⟩ := isGcref_iff.mp hg
          refine Function.update_of_ne (fun hvw => hr ?_) _ _
          rw [hw, ← (known_iff.mp hw).2.1, ← hvw]
        · rfl
      rw [hsame]
      simp [hr]

theorem killDefs_iff (hv : fn.IsRoot v) :
    fn.killDefs inst live v = true ↔ live v = true ∧ ¬ fn.Writes inst v := by
  unfold killDefs Writes
  generalize inst.defs = defs
  induction defs generalizing live with
  | nil => simp
  | cons d defs ih =>
    rw [foldl_cons, ih]
    cases hd : d.vreg? with
    | none => simp [hd]
    | some r =>
      simp only [filterMap_cons, hd, exists_mem_cons_iff, not_or]
      by_cases hr : fn.known r = some v
      · have hid := (known_iff.mp hr).2.1
        rw [if_pos ((isGcref_known hr).mpr hv), hid, Function.update_self]
        simp [hr]
      · have hsame : (if fn.isGcref r then Function.update live r.id.toNat false else live) v =
            live v := by
          split
          · rename_i hg
            obtain ⟨w, hw, -⟩ := isGcref_iff.mp hg
            refine Function.update_of_ne (fun hvw => hr ?_) _ _
            rw [hw, ← (known_iff.mp hw).2.1, ← hvw]
          · rfl
        rw [hsame]
        simp [hr]

theorem mem_regsOfUse {r : VReg} : r ∈ inst.uses.flatMap (fn.regsOfUse inst) ↔
    r ∈ useRegs inst ∨ r ∈ (fn.exitsOf inst).flatMap useRegs := by
  unfold regsOfUse exitsOf
  by_cases hjcc : (inst.opcode == .jcc) = true
  · simp only [hjcc, if_true, mem_flatMap, mem_append, mem_filterMap, useRegs]
    constructor
    · rintro ⟨u, hu, hr | hr⟩
      · exact Or.inl ⟨u, hu, hr⟩
      · cases hexit : u.label?.bind (fun id => fn.guardExits.lookup id) with
        | none =>
          rw [hexit] at hr
          exact absurd hr not_mem_nil
        | some exit =>
          rw [hexit] at hr
          exact Or.inr ⟨exit, ⟨u, hu, hexit⟩, mem_flatMap.mp hr⟩
    · rintro (⟨u, hu, hr⟩ | ⟨exit, ⟨u, hu, hexit⟩, hr⟩)
      · exact ⟨u, hu, Or.inl hr⟩
      · refine ⟨u, hu, Or.inr ?_⟩
        rw [hexit]
        exact mem_flatMap.mpr hr
  · rw [Bool.not_eq_true] at hjcc
    simp only [hjcc, Bool.false_eq_true, if_false, append_nil, flatMap_nil, not_mem_nil, or_false]
    exact Iff.rfl

theorem gcrefsBefore_iff (hv : fn.IsRoot v) : fn.gcrefsBefore inst live v = true ↔
    fn.Reads inst v ∨ (¬ fn.Writes inst v ∧ live v = true) := by
  rw [gcrefsBefore, markUses_iff hv, markUses_iff hv, killDefs_iff hv]
  simp only [mem_regsOfUse, Reads, mem_append, or_and_right, exists_or]
  grind

theorem recordFrom_iff (hv : fn.IsRoot v) {out : Nat → Bool} (insts : List Inst) :
    (fn.recordFrom out insts).1 v = true ↔ fn.Through v (out v = true) insts := by
  induction insts with
  | nil => exact Iff.rfl
  | cons inst insts ih =>
    rw [recordFrom]
    exact (gcrefsBefore_iff hv).trans (or_congr_right (and_congr_right fun _ => ih))

theorem getElem?_recordFrom {out : Nat → Bool} {insts : List Inst} (h : insts[k]? = some inst) :
    (fn.recordFrom out insts).2[k]? =
      some (fn.siteGcrefs inst (fn.recordFrom out (insts.drop (k + 1))).1) := by
  induction insts generalizing k with
  | nil => cases h
  | cons i insts ih =>
    cases k with
    | zero =>
      obtain rfl : i = inst := by simpa using h
      rfl
    | succ k =>
      rw [recordFrom, getElem?_cons_succ, drop_succ_cons]
      exact ih h

/-- The roots that are noted at an instruction. -/
def liveGcrefs (fn : LirFunction) (b k : Nat) : List Nat :=
  ((fn.recordLiveGcrefs b).getD k none).getD []

theorem code_of_getElem? (h : (fn.code b)[k]? = some inst) :
    fn.code b = (fn.block b).instructions := by
  rw [code] at h ⊢
  split at h
  · cases h
  · rename_i hexit
    rw [if_neg hexit]

/-- A call or a safepoint at which a collection may happen. -/
def IsGcPoint (inst : Inst) : Prop := isSite inst = true ∧ inst.rest.noGcPoint = false

/-- What is noted at a collection point is what is live behind it. -/
theorem mem_liveGcrefs_iff (hi : (fn.code b)[k]? = some inst) (hgc : IsGcPoint inst) :
    v ∈ fn.liveGcrefs b k ↔
      fn.IsRoot v ∧ fn.Through v (fn.LiveOut b v) ((fn.code b).drop (k + 1)) := by
  have hcode := code_of_getElem? hi
  rw [hcode] at hi ⊢
  have hget := @getElem?_recordFrom fn k inst (fn.gcrefsOut b) _ hi
  have hroots : fn.liveGcrefs b k = fn.gcrefIds.filter
      (fun id => (fn.recordFrom (fn.gcrefsOut b) ((fn.block b).instructions.drop (k + 1))).1 id) := by
    rw [liveGcrefs, recordLiveGcrefs, getD_eq_getElem?_getD, hget, siteGcrefs, if_pos hgc.1, hgc.2]
    simp
  rw [hroots, mem_filter]
  refine and_congr_right fun hv => (recordFrom_iff hv _).trans ?_
  have hout : fn.gcrefsOut b v = true ↔ fn.LiveOut b v := by
    rw [gcrefsOut, Bool.and_eq_true, decide_eq_true_eq]
    refine and_iff_left_of_imp fun _ => ?_
    obtain ⟨hlt, hvalid, hg⟩ := isRoot_iff.mp hv
    exact isGcref_iff.mpr ⟨v, known_table hlt hvalid, hg⟩
  rw [through_iff, hout, ← through_iff]

end LirFunction

end Brass.Codegen
