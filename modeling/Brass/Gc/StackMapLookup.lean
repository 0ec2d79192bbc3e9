import Brass.Gc.StackMap
import Brass.Util.PartitionPoint

/-!
# Looking up a return address

The lookups of `gc/stack_map.cpp`: `find_record_by_offset`, `find_record_by_ip` and
`ModuleStackMap::find_record`. A lookup subtracts the address of the function from the
return address and narrows the difference to 32 bits, so a return address that lies 4 GiB or
more past the function can meet a record that it does not belong to (`Aliases`). Apart from
that the lookups are exact (`lookupExact_iff`).

A pointer to a record is the function that holds the record, with the record.
-/

namespace Brass.Gc

open Brass.Util

namespace FunctionStackMap

variable (fn : FunctionStackMap)

def findRecordByOffset (callOffset : UInt32) : Option StackMapRecord :=
  if fn.recordsSorted then
    match fn.records[partitionPoint fn.records (fun r => r.instructionOffset < callOffset)]? with
    | some r => if r.instructionOffset = callOffset then some r else none
    | none => none
  else fn.records.find? (fun r => r.instructionOffset = callOffset)

def findRecordByIp (returnIp : UInt64) : Option StackMapRecord :=
  if fn.functionAddress = 0 then none
  else if returnIp < fn.functionAddress then none
  else fn.findRecordByOffset (returnIp - fn.functionAddress).toUInt32

end FunctionStackMap

namespace ModuleStackMap

/-- `ModuleStackMap::find_record`: the first function in which the offset is found. -/
def findRecord (m : ModuleStackMap) (returnIp : UInt64) :
    Option (FunctionStackMap × StackMapRecord) :=
  m.functions.findSome? (fun fn =>
    if fn.functionAddress ≠ 0 then
      if fn.functionAddress ≤ returnIp then
        (fn.findRecordByOffset (returnIp - fn.functionAddress).toUInt32).map (fun r => (fn, r))
      else none
    else none)

end ModuleStackMap

/-! ## What a lookup should find -/

/-- `sort_records` sets the flag, and records that carry it are in the order of their
offsets. -/
def FunctionStackMap.FlagRight (fn : FunctionStackMap) : Prop :=
  fn.recordsSorted = true →
    fn.records.Pairwise (fun a b => a.instructionOffset ≤ b.instructionOffset)

/-- The function has an address, and the record stands at `ip`. -/
def FunctionStackMap.At (fn : FunctionStackMap) (ip : UInt64) (r : StackMapRecord) : Prop :=
  fn.functionAddress ≠ 0 ∧ r ∈ fn.records ∧
    fn.functionAddress.toNat + r.instructionOffset.toNat = ip.toNat

/-- `ip` lies 4 GiB or more past the function, and the low 32 bits of the distance are the
offset of a record. -/
def FunctionStackMap.Aliases (fn : FunctionStackMap) (ip : UInt64) : Prop :=
  fn.functionAddress ≠ 0 ∧ fn.functionAddress.toNat + 2 ^ 32 ≤ ip.toNat ∧
    ∃ r ∈ fn.records, r.instructionOffset.toNat = (ip.toNat - fn.functionAddress.toNat) % 2 ^ 32

/-- Only a record that stands at `ip` is found, and where one does, one is found. -/
structure FunctionStackMap.FindsExactly (fn : FunctionStackMap) (ip : UInt64) : Prop where
  sound : ∀ r, fn.findRecordByIp ip = some r → fn.At ip r
  complete : ∀ r, fn.At ip r → fn.findRecordByIp ip ≠ none

structure ModuleStackMap.FindsExactly (m : ModuleStackMap) (ip : UInt64) : Prop where
  sound : ∀ fn r, m.findRecord ip = some (fn, r) → fn ∈ m.functions ∧ fn.At ip r
  complete : ∀ fn ∈ m.functions, ∀ r, fn.At ip r → m.findRecord ip ≠ none

/-- The lookups of the module and of each of its functions. -/
structure ModuleStackMap.LookupExact (m : ModuleStackMap) (ip : UInt64) : Prop where
  inModule : m.FindsExactly ip
  inFunction : ∀ fn ∈ m.functions, fn.FindsExactly ip

/-! ## Offsets -/

variable {fn : FunctionStackMap} {m : ModuleStackMap} {ip : UInt64} {off : UInt32}
variable {r : StackMapRecord}

theorem mem_of_findRecordByOffset (h : fn.findRecordByOffset off = some r) :
    r ∈ fn.records ∧ r.instructionOffset = off := by
  unfold FunctionStackMap.findRecordByOffset at h
  split at h
  · split at h
    · rename_i x hx
      split at h
      · rename_i heq
        cases h
        exact ⟨List.mem_of_getElem? hx, heq⟩
      · cases h
    · cases h
  · have hfound := List.find?_some h
    exact ⟨List.mem_of_find?_eq_some h, by simpa using hfound⟩

theorem findRecordByOffset_ne_none (hfn : fn.FlagRight) (hr : r ∈ fn.records) :
    fn.findRecordByOffset r.instructionOffset ≠ none := by
  unfold FunctionStackMap.findRecordByOffset
  split
  · rename_i hflag
    have hmono := (hfn hflag).imp (S := fun a b =>
      decide (b.instructionOffset < r.instructionOffset) = true →
        decide (a.instructionOffset < r.instructionOffset) = true) (fun {a b} hab hb => by
      simp only [decide_eq_true_eq] at hb ⊢
      exact UInt32.lt_of_le_of_lt hab hb)
    have hpart := partitionedAt_takeWhile hmono
    rw [partitionPoint_eq_takeWhile hmono]
    generalize (fn.records.takeWhile _).length = k at hpart
    obtain ⟨i, hi⟩ := List.mem_iff_getElem?.mp hr
    have hki : k ≤ i := by
      by_contra hlt
      have := (hpart i r hi).mpr (by omega)
      simp [UInt32.lt_irrefl] at this
    have hlt : k < fn.records.length :=
      Nat.lt_of_le_of_lt hki (List.getElem?_eq_some_iff.mp hi).1
    rw [List.getElem?_eq_getElem hlt]
    -- the first record that is not below the offset is not above it either
    have hle : fn.records[k].instructionOffset ≤ r.instructionOffset := by
      obtain ⟨hi', rfl⟩ := List.getElem?_eq_some_iff.mp hi
      rcases Nat.lt_or_eq_of_le hki with hlt' | rfl
      · exact List.pairwise_iff_getElem.mp (hfn hflag) k i hlt hi' hlt'
      · exact UInt32.le_refl _
    have hge : r.instructionOffset ≤ fn.records[k].instructionOffset := by
      have hnot := mt (hpart k _ (List.getElem?_eq_getElem hlt)).mp (Nat.lt_irrefl k)
      simpa only [decide_eq_true_eq, UInt32.not_lt] using hnot
    simp [UInt32.le_antisymm hle hge]
  · intro hnone
    have := List.find?_eq_none.mp hnone r hr
    simp at this

/-! ## One function -/

theorem toNat_offset (hle : fn.functionAddress ≤ ip) : (ip - fn.functionAddress).toUInt32.toNat =
      (ip.toNat - fn.functionAddress.toNat) % 2 ^ 32 := by
  rw [UInt64.toNat_toUInt32, UInt64.toNat_sub_of_le _ _ hle]

theorem findRecordByIp_eq_some (h : fn.findRecordByIp ip = some r) :
    fn.functionAddress ≠ 0 ∧ fn.functionAddress ≤ ip ∧ r ∈ fn.records ∧
      r.instructionOffset.toNat = (ip.toNat - fn.functionAddress.toNat) % 2 ^ 32 := by
  unfold FunctionStackMap.findRecordByIp at h
  split at h
  · cases h
  · rename_i haddr
    split at h
    · cases h
    · rename_i hle
      rw [UInt64.not_lt] at hle
      obtain ⟨hr, hoff⟩ := mem_of_findRecordByOffset h
      exact ⟨haddr, hle, hr, by rw [hoff, toNat_offset hle]⟩

theorem findRecordByIp_ne_none (hfn : fn.FlagRight) (haddr : fn.functionAddress ≠ 0)
    (hle : fn.functionAddress ≤ ip) (hr : r ∈ fn.records)
    (hoff : r.instructionOffset.toNat = (ip.toNat - fn.functionAddress.toNat) % 2 ^ 32) :
    fn.findRecordByIp ip ≠ none := by
  have heq : (ip - fn.functionAddress).toUInt32 = r.instructionOffset := by
    apply UInt32.toNat_inj.mp
    rw [toNat_offset hle, hoff]
  unfold FunctionStackMap.findRecordByIp
  rw [if_neg haddr, if_neg (UInt64.not_lt.mpr hle), heq]
  exact findRecordByOffset_ne_none hfn hr

theorem FunctionStackMap.At.found (hfn : fn.FlagRight) (h : fn.At ip r) :
    fn.findRecordByIp ip ≠ none := by
  obtain ⟨haddr, hr, hsum⟩ := h
  have hle : fn.functionAddress ≤ ip := by
    rw [UInt64.le_iff_toNat_le]
    omega
  refine findRecordByIp_ne_none hfn haddr hle hr ?_
  have hlt : r.instructionOffset.toNat < 2 ^ 32 := r.instructionOffset.toNat_lt
  rw [Nat.mod_eq_of_lt (by omega)]
  omega

theorem findsExactly_iff (hfn : fn.FlagRight) : fn.FindsExactly ip ↔ ¬ fn.Aliases ip := by
  constructor
  · rintro h ⟨haddr, hfar, r, hr, hoff⟩
    have hle : fn.functionAddress ≤ ip := by
      rw [UInt64.le_iff_toNat_le]
      omega
    obtain ⟨r', hfound⟩ := Option.ne_none_iff_exists'.mp
      (findRecordByIp_ne_none hfn haddr hle hr hoff)
    -- the record that is found stands less than 4 GiB past the function
    obtain ⟨-, -, hsum⟩ := h.sound r' hfound
    have : r'.instructionOffset.toNat < 2 ^ 32 := r'.instructionOffset.toNat_lt
    omega
  · intro h
    refine ⟨fun r hfound => ?_, fun r hat => hat.found hfn⟩
    obtain ⟨haddr, hle, hr, hoff⟩ := findRecordByIp_eq_some hfound
    rw [UInt64.le_iff_toNat_le] at hle
    have hnear : ip.toNat < fn.functionAddress.toNat + 2 ^ 32 := by
      by_contra hfar
      exact h ⟨haddr, by omega, r, hr, hoff⟩
    rw [Nat.mod_eq_of_lt (by omega)] at hoff
    exact ⟨haddr, hr, by omega⟩

/-! ## The module -/

theorem findRecord_eq (m : ModuleStackMap) (ip : UInt64) :
    m.findRecord ip = m.functions.findSome? (fun fn =>
      (fn.findRecordByIp ip).map (fun r => (fn, r))) := by
  unfold ModuleStackMap.findRecord
  congr 1
  funext fn
  unfold FunctionStackMap.findRecordByIp
  by_cases haddr : fn.functionAddress = 0
  · simp [haddr]
  · by_cases hle : fn.functionAddress ≤ ip
    · simp [haddr, hle, UInt64.not_lt.mpr hle]
    · simp [haddr, hle, UInt64.not_le.mp hle]

/-- A return address is looked up exactly if and only if it aliases in no function. -/
theorem lookupExact_iff (hm : ∀ fn ∈ m.functions, fn.FlagRight) :
    m.LookupExact ip ↔ ∀ fn ∈ m.functions, ¬ fn.Aliases ip := by
  constructor
  · intro h fn hfn
    exact (findsExactly_iff (hm fn hfn)).mp (h.inFunction fn hfn)
  · intro h
    have hexact : ∀ fn ∈ m.functions, fn.FindsExactly ip :=
      fun fn hfn => (findsExactly_iff (hm fn hfn)).mpr (h fn hfn)
    refine ⟨⟨fun fn r hfound => ?_, fun fn hfn r hat hnone => ?_⟩, hexact⟩
    · rw [findRecord_eq] at hfound
      obtain ⟨fn', hfn', hmap⟩ := List.exists_of_findSome?_eq_some hfound
      obtain ⟨r', hr', heq⟩ := Option.map_eq_some_iff.mp hmap
      cases heq
      exact ⟨hfn', (hexact _ hfn').sound r hr'⟩
    · rw [findRecord_eq] at hnone
      have hnone' := List.findSome?_eq_none_iff.mp hnone fn hfn
      exact (hexact fn hfn).complete r hat (Option.map_eq_none_iff.mp hnone')

def calledOnce : FunctionStackMap := ⟨[102], 0x1000, 0, 64, [⟨16, 0, [], 0⟩], false⟩

theorem calledOnce_flagRight : ∀ fn ∈ [calledOnce], fn.FlagRight := by
  intro fn hfn hflag
  rw [List.mem_singleton.mp hfn] at hflag
  cases hflag

/-- The return address of the call does not alias. -/
theorem lookupExact_iff_calledOnce : ModuleStackMap.LookupExact ⟨[calledOnce]⟩ 0x1010 := by
  refine (lookupExact_iff calledOnce_flagRight).mpr ?_
  rintro fn hfn ⟨-, hfar, -⟩
  rw [List.mem_singleton.mp hfn] at hfar
  exact absurd hfar (by decide)

/-- 4 GiB past the call there is no code of the function, and its record is found. -/
theorem findRecord_pastFunction :
    ¬ ∀ (m : ModuleStackMap) (ip : UInt64), (∀ fn ∈ m.functions, fn.FlagRight) →
      m.LookupExact ip := by
  intro h
  have hexact := (h ⟨[calledOnce]⟩ 0x100001010 calledOnce_flagRight).inModule
  obtain ⟨-, -, -, hsum⟩ := hexact.sound calledOnce ⟨16, 0, [], 0⟩ (by decide +kernel)
  revert hsum
  decide

end Brass.Gc
