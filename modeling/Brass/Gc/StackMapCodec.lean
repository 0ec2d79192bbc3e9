import Brass.Gc.StackMap
import Brass.Util.WordBytes

/-!
# The binary form of stack maps

`encode_stack_maps` of `gc/stack_map.cpp`, and what the decoder makes of its output. The
address of a function is not part of the format: the decoder computes it from the base of
the text section (`FunctionStackMap.placed`).

`BinaryReader` is modelled a second time, with a position and with every access to the data
checked, to show that no read is out of bounds (`decodeAt_eq`).
-/

namespace Brass.Gc

open Util List Option ModuleStackMap

/-! ## The encoder -/

variable {count k n pos : Nat} {fn : FunctionStackMap} {fns : List FunctionStackMap}
  {m : ModuleStackMap} {base : UInt64} {bytes data rest : List UInt8}

def writeU32 (v : UInt32) : List UInt8 :=
  [(v &&& 0xFF).toUInt8, ((v >>> 8) &&& 0xFF).toUInt8, ((v >>> 16) &&& 0xFF).toUInt8,
    ((v >>> 24) &&& 0xFF).toUInt8]

def writeI32 (v : Int) : List UInt8 := writeU32 (UInt32.ofBitVec (BitVec.ofInt 32 v))

def writeU64 (v : UInt64) : List UInt8 :=
  (List.range 8).map (fun i => ((v >>> UInt64.ofNat (i * 8)) &&& 0xFF).toUInt8)

def StackMapRootKind.code : StackMapRootKind → UInt8
  | frameSlot => 0
  | calleeSavedReg => 1

def StackMapValueKind.code : StackMapValueKind → UInt8
  | gcRef => 0
  | tagged => 1

def encodeRoot (root : StackMapRootLocation) : List UInt8 :=
  writeI32 root.offsetFromRbp ++ [root.kind.code, root.reg.regClass, root.reg.code, root.value.code]

def size32 (n : Nat) : UInt32 := UInt32.ofNat n

def encodeRecord (rec : StackMapRecord) : List UInt8 :=
  writeU32 rec.instructionOffset ++ writeU32 rec.frameSize ++ writeU32 rec.safepointId ++
    writeU32 (size32 rec.roots.length) ++ rec.roots.flatMap encodeRoot

def encodeFunction (fn : FunctionStackMap) : List UInt8 :=
  let nameLen := size32 fn.functionName.length
  writeU32 nameLen ++ fn.functionName.take nameLen.toNat ++ writeU64 fn.codeOffset.toUInt64 ++
    writeU32 fn.codeSize ++ writeU32 (size32 fn.records.length) ++ fn.records.flatMap encodeRecord

def encodeStackMaps (m : ModuleStackMap) : List UInt8 :=
  writeU32 stackMapMagic ++ writeU32 stackMapVersion ++ writeU32 (size32 m.functions.length) ++
    m.functions.flatMap encodeFunction

/-! ## Integers -/

theorem readU32_writeU32 (v : UInt32) (rest : List UInt8) :
    readU32 (writeU32 v ++ rest) = some (v, rest) := by
  have hv := v.toNat_lt
  obtain ⟨h0, h1, h2, h3⟩ := toNat_bytes v
  have hval : (v &&& 0xFF).toUInt8.toUInt32 ||| (((v >>> 8) &&& 0xFF).toUInt8.toUInt32 <<< 8) |||
      (((v >>> 16) &&& 0xFF).toUInt8.toUInt32 <<< 16) |||
      (((v >>> 24) &&& 0xFF).toUInt8.toUInt32 <<< 24) = v := by
    apply UInt32.toNat_inj.mp
    rw [toNat_ofBytes, h0, h1, h2, h3]
    omega
  exact congrArg (fun x => some (x, rest)) hval

theorem toNat_byte64 (v : UInt64) (hk : k < 64) :
    ((v >>> UInt64.ofNat k) &&& 0xFF).toUInt8.toNat = v.toNat / 2 ^ k % 256 := by
  have hmask : (255 : UInt64).toNat = 2 ^ 8 - 1 := rfl
  have hshift : (UInt64.ofNat k).toNat = k := by
    rw [UInt64.toNat_ofNat']
    omega
  rw [UInt64.toNat_toUInt8, UInt64.toNat_and, hmask, Nat.and_two_pow_sub_one_eq_mod,
    UInt64.toNat_shiftRight, hshift, Nat.mod_eq_of_lt hk, Nat.shiftRight_eq_div_pow]
  omega

theorem writeU64_eq (v : UInt32) : writeU64 v.toUInt64 = writeU32 v ++ writeU32 0 := by
  have hv := v.toNat_lt
  have hhigh : ∀ k, 32 ≤ k → v.toNat / 2 ^ k = 0 := by
    intro k hk
    have hpow : 2 ^ 32 ≤ 2 ^ k := Nat.pow_le_pow_right (by omega) hk
    exact Nat.div_eq_of_lt (by omega)
  have hbyte : ∀ k < 32, ((v.toUInt64 >>> UInt64.ofNat k) &&& 0xFF).toUInt8 =
      ((v >>> UInt32.ofNat k) &&& 0xFF).toUInt8 := by
    intro k hk
    apply UInt8.toNat_inj.mp
    rw [toNat_byte64 _ (by omega), toNat_byte _ hk, UInt32.toNat_toUInt64]
  have hzero : ∀ k, 32 ≤ k → k < 64 → ((v.toUInt64 >>> UInt64.ofNat k) &&& 0xFF).toUInt8 = 0 := by
    intro k hk hk'
    apply UInt8.toNat_inj.mp
    rw [toNat_byte64 _ hk', UInt32.toNat_toUInt64, hhigh k hk]
    rfl
  have h0 : v >>> UInt32.ofNat (0 * 8) = v := by
    apply UInt32.toNat_inj.mp
    rw [UInt32.toNat_shiftRight]
    rfl
  have hlow := hbyte (0 * 8) (by omega)
  rw [h0] at hlow
  unfold writeU64
  rw [show range 8 = [0, 1, 2, 3, 4, 5, 6, 7] from rfl]
  simp only [map_cons, map_nil]
  rw [hlow, hbyte (1 * 8) (by omega), hbyte (2 * 8) (by omega), hbyte (3 * 8) (by omega),
    hzero (4 * 8) (by omega) (by omega), hzero (5 * 8) (by omega) (by omega),
    hzero (6 * 8) (by omega) (by omega), hzero (7 * 8) (by omega) (by omega)]
  rfl

theorem readU64_writeU64 (v : UInt32) (rest : List UInt8) :
    readU64 (writeU64 v.toUInt64 ++ rest) = some (v.toUInt64, rest) := by
  unfold readU64
  simp only [writeU64_eq, append_assoc, readU32_writeU32, bind_eq_bind, bind_some]
  have hval : v.toUInt64 ||| ((0 : UInt32).toUInt64 <<< 32) = v.toUInt64 := by
    apply UInt64.toNat_inj.mp
    rw [UInt64.toNat_or, UInt64.toNat_shiftLeft]
    simp
  exact congrArg (fun x => some (x, rest)) hval

theorem readI32_writeI32 {v : Int} (h : -(2 ^ 31) ≤ v) (h' : v < 2 ^ 31) (rest : List UInt8) :
    readI32 (writeI32 v ++ rest) = some (v, rest) := by
  unfold readI32 writeI32
  rw [readU32_writeU32, bind_eq_bind, bind_some]
  have hval : (BitVec.ofInt 32 v).toInt = v := by
    rw [BitVec.toInt_ofInt]
    exact Int.bmod_eq_of_le (by omega) (by omega)
  exact congrArg (fun x => some (x, rest)) hval

/-! ## The parts of a module -/

/-- The ranges that the types of the source give. -/
def StackMapRootLocation.Fits (root : StackMapRootLocation) : Prop :=
  -(2 ^ 31) ≤ root.offsetFromRbp ∧ root.offsetFromRbp < 2 ^ 31

/-- The counts fit in the 32 bits of the format. -/
structure StackMapRecord.Fits (rec : StackMapRecord) : Prop where
  roots : ∀ root ∈ rec.roots, root.Fits
  count : rec.roots.length < 2 ^ 32

structure FunctionStackMap.Fits (fn : FunctionStackMap) : Prop where
  name : fn.functionName.length < 2 ^ 32
  records : ∀ rec ∈ fn.records, rec.Fits
  count : fn.records.length < 2 ^ 32

theorem toNat_size32 (h : n < 2 ^ 32) : (size32 n).toNat = n := by
  rw [size32, UInt32.toNat_ofNat', Nat.mod_eq_of_lt h]

theorem decodeMany_flatMap {α : Type} {item : List UInt8 → Option (α × List UInt8)}
    {enc : α → List UInt8} (as : List α)
    (h : ∀ a ∈ as, ∀ rest, item (enc a ++ rest) = some (a, rest)) (rest : List UInt8) :
    decodeMany item as.length (as.flatMap enc ++ rest) = some (as, rest) := by
  induction as with
  | nil => rfl
  | cons a as ih =>
    rw [flatMap_cons, append_assoc, length_cons, decodeMany,
      h a (mem_cons_self), bind_eq_bind, bind_some]
    dsimp only
    rw [ih (fun b hb => h b (mem_cons_of_mem a hb)), bind_eq_bind, bind_some]

theorem decodeRoot_encodeRoot {root : StackMapRootLocation} (h : root.Fits) (rest : List UInt8) :
    decodeRoot (encodeRoot root ++ rest) = some (root, rest) := by
  unfold decodeRoot encodeRoot
  rw [append_assoc, readI32_writeI32 h.1 h.2, bind_eq_bind, bind_some]
  cases root with
  | mk kind offset reg value => cases kind <;> cases value <;> rfl

theorem decodeRecord_encodeRecord {rec : StackMapRecord} (h : rec.Fits) (rest : List UInt8) :
    decodeRecord (encodeRecord rec ++ rest) = some (rec, rest) := by
  unfold decodeRecord encodeRecord
  simp only [append_assoc, readU32_writeU32, bind_eq_bind, bind_some, toNat_size32 h.count]
  rw [decodeMany_flatMap rec.roots (fun root hr => decodeRoot_encodeRoot (h.roots root hr))]
  rfl

/-- What the decoder makes of a function: its address is computed from the base of the text
section, and its records count as unsorted. -/
def FunctionStackMap.placed (base : UInt64) (fn : FunctionStackMap) : FunctionStackMap :=
  { fn with
    functionAddress := if 0 < base then base + fn.codeOffset.toUInt64 else 0
    recordsSorted := false }

theorem decodeFunction_encodeFunction (h : fn.Fits) (base : UInt64) (rest : List UInt8) :
    decodeFunction base (encodeFunction fn ++ rest) = some (fn.placed base, rest) := by
  have hname : readString (fn.functionName ++ (writeU64 fn.codeOffset.toUInt64 ++
      (writeU32 fn.codeSize ++ (writeU32 (size32 fn.records.length) ++
        (fn.records.flatMap encodeRecord ++ rest))))) fn.functionName.length =
      some (fn.functionName, writeU64 fn.codeOffset.toUInt64 ++
      (writeU32 fn.codeSize ++ (writeU32 (size32 fn.records.length) ++
        (fn.records.flatMap encodeRecord ++ rest)))) := by
    unfold readString
    rw [if_pos (by simp), take_left, drop_left]
  unfold decodeFunction encodeFunction
  simp only [append_assoc, readU32_writeU32, bind_eq_bind, bind_some,
    toNat_size32 h.name, take_length, hname, readU64_writeU64, toNat_size32 h.count]
  rw [decodeMany_flatMap fn.records (fun rec hr => decodeRecord_encodeRecord (h.records rec hr))]
  have hoff : fn.codeOffset.toUInt64.toUInt32 = fn.codeOffset := by simp
  simp only [bind_some, hoff]
  rfl

/-! ## Modules -/

def names (fns : List FunctionStackMap) : List (List UInt8) := fns.map FunctionStackMap.functionName

theorem addFunctionTo_new (h : fn.functionName ∉ names fns) :
    addFunctionTo fn fns = fns ++ [fn] := by
  induction fns with
  | nil => rfl
  | cons f fs ih =>
    simp only [names, map_cons, mem_cons, not_or] at h
    rw [addFunctionTo, if_neg (fun heq => h.1 heq.symm), ih h.2]
    rfl

theorem names_addFunctionTo (fn : FunctionStackMap) (fns : List FunctionStackMap) :
    names (addFunctionTo fn fns) =
      if fn.functionName ∈ names fns then names fns else names fns ++ [fn.functionName] := by
  induction fns with
  | nil => rfl
  | cons f fs ih =>
    unfold addFunctionTo
    by_cases heq : f.functionName = fn.functionName
    · rw [if_pos heq, if_pos (by simp [names, heq])]
      simp [names, heq]
    · rw [if_neg heq]
      have hcons : names (f :: addFunctionTo fn fs) = f.functionName :: names (addFunctionTo fn fs) := rfl
      have hcons' : names (f :: fs) = f.functionName :: names fs := rfl
      rw [hcons, hcons', ih]
      by_cases hmem : fn.functionName ∈ names fs
      · rw [if_pos hmem, if_pos (mem_cons_of_mem _ hmem)]
      · rw [if_neg hmem, if_neg (by simp [hmem, Ne.symm heq])]
        rfl

theorem nodup_addFunctionTo (fn : FunctionStackMap) (h : (names fns).Nodup) :
    (names (addFunctionTo fn fns)).Nodup := by
  rw [names_addFunctionTo]
  split
  · exact h
  · rename_i hnew
    rw [nodup_append]
    refine ⟨h, by simp, fun a ha b hb => ?_⟩
    rintro rfl
    exact hnew (mem_singleton.mp hb ▸ ha)

theorem mem_addFunctionTo {f : FunctionStackMap} (h : f ∈ addFunctionTo fn fns) :
    f = fn ∨ f ∈ fns := by
  induction fns with
  | nil => exact .inl (mem_singleton.mp h)
  | cons g gs ih =>
    unfold addFunctionTo at h
    split at h
    · rcases mem_cons.mp h with h | h
      · exact .inl h
      · exact .inr (mem_cons_of_mem g h)
    · rcases mem_cons.mp h with h | h
      · exact .inr (h ▸ mem_cons_self)
      · exact (ih h).imp_right (mem_cons_of_mem g)

theorem length_addFunctionTo (fn : FunctionStackMap) (fns : List FunctionStackMap) :
    (addFunctionTo fn fns).length ≤ fns.length + 1 := by
  induction fns with
  | nil => exact Nat.le_refl 1
  | cons f fs ih =>
    unfold addFunctionTo
    split
    · simp
    · simpa using ih

/-- A module that is built by adding functions, one after the other. -/
def ModuleStackMap.ofFunctions (fns : List FunctionStackMap) : ModuleStackMap :=
  fns.foldl ModuleStackMap.addFunction ⟨[]⟩

theorem nodup_foldl_addFunction (fns : List FunctionStackMap) (h : (names m.functions).Nodup) :
    (names (fns.foldl addFunction m).functions).Nodup := by
  induction fns generalizing m with
  | nil => exact h
  | cons fn fns ih => exact ih (nodup_addFunctionTo fn h)

theorem decodeFunctions_flatMap (fns : List FunctionStackMap) (hfits : ∀ fn ∈ fns, fn.Fits)
    {out : ModuleStackMap} (hnodup : (names (out.functions ++ fns)).Nodup) :
    decodeFunctions base fns.length (fns.flatMap encodeFunction) out =
      (true, ⟨out.functions ++ fns.map (FunctionStackMap.placed base)⟩) := by
  induction fns generalizing out with
  | nil => simp [decodeFunctions]
  | cons fn fns ih =>
    rw [flatMap_cons, length_cons, decodeFunctions,
      decodeFunction_encodeFunction (hfits fn mem_cons_self)]
    have hnew : (fn.placed base).functionName ∉ names out.functions := by
      intro hmem
      simp only [names, map_append, map_cons, nodup_append] at hnodup
      exact hnodup.2.2 _ hmem _ mem_cons_self rfl
    have hadd : out.addFunction (fn.placed base) = ⟨out.functions ++ [fn.placed base]⟩ := by
      rw [addFunction, addFunctionTo_new hnew]
    dsimp only
    rw [hadd, ih (fun f hf => hfits f (mem_cons_of_mem fn hf))]
    · simp
    · simpa [names, FunctionStackMap.placed] using hnodup

def ModuleStackMap.placed (base : UInt64) (m : ModuleStackMap) : ModuleStackMap :=
  ⟨m.functions.map (FunctionStackMap.placed base)⟩

theorem decode_encode_of_nodup (hnodup : (names m.functions).Nodup)
    (hfits : ∀ fn ∈ m.functions, fn.Fits) (hcount : m.functions.length < 2 ^ 32) (base : UInt64) :
    decodeStackMapsInto (encodeStackMaps m) base = (true, m.placed base) := by
  have hheader : readHeader (encodeStackMaps m) =
      some (size32 m.functions.length, m.functions.flatMap encodeFunction) := by
    unfold readHeader encodeStackMaps
    simp only [append_assoc, readU32_writeU32, bind_eq_bind, bind_some]
    rfl
  unfold decodeStackMapsInto
  rw [hheader]
  dsimp only
  rw [toNat_size32 hcount, decodeFunctions_flatMap m.functions hfits (by simpa using hnodup)]
  rfl

/-! ## What the decoder accepts -/

theorem decodeMany_forall {α : Type} {item : List UInt8 → Option (α × List UInt8)} {P : α → Prop}
    (h : ∀ bytes a rest, item bytes = some (a, rest) → P a) {as : List α}
    (hrun : decodeMany item count bytes = some (as, rest)) :
    as.length = count ∧ ∀ a ∈ as, P a := by
  induction count generalizing bytes as with
  | zero =>
    cases hrun
    exact ⟨rfl, by simp⟩
  | succ count ih =>
    obtain ⟨⟨a, bytes₁⟩, hitem, hrun⟩ := bind_eq_some_iff.mp hrun
    obtain ⟨⟨as', bytes₂⟩, hmany, hrun⟩ := bind_eq_some_iff.mp hrun
    cases hrun
    obtain ⟨hlen, hall⟩ := ih hmany
    refine ⟨by simp [hlen], fun b hb => ?_⟩
    rcases mem_cons.mp hb with rfl | hb
    · exact h bytes b bytes₁ hitem
    · exact hall b hb

theorem decodeRoot_fits {root : StackMapRootLocation} (h : decodeRoot bytes = some (root, rest)) :
    root.Fits := by
  obtain ⟨⟨offset, bytes₁⟩, hoffset, h⟩ := bind_eq_some_iff.mp h
  obtain ⟨⟨_, bytes₂⟩, -, h⟩ := bind_eq_some_iff.mp h
  obtain ⟨⟨_, bytes₃⟩, -, h⟩ := bind_eq_some_iff.mp h
  obtain ⟨⟨_, bytes₄⟩, -, h⟩ := bind_eq_some_iff.mp h
  obtain ⟨⟨_, bytes₅⟩, -, h⟩ := bind_eq_some_iff.mp h
  obtain ⟨kind, -, h⟩ := bind_eq_some_iff.mp h
  obtain ⟨value, -, h⟩ := bind_eq_some_iff.mp h
  obtain ⟨⟨u, _⟩, -, hu⟩ := bind_eq_some_iff.mp hoffset
  cases hu
  cases h
  have hlo := u.toBitVec.le_toInt
  have hhi : u.toBitVec.toInt < 2 ^ (32 - 1) := BitVec.toInt_lt
  exact ⟨hlo, hhi⟩

theorem decodeRecord_fits {rec : StackMapRecord} (h : decodeRecord bytes = some (rec, rest)) :
    rec.Fits := by
  obtain ⟨⟨_, bytes₁⟩, -, h⟩ := bind_eq_some_iff.mp h
  obtain ⟨⟨_, bytes₂⟩, -, h⟩ := bind_eq_some_iff.mp h
  obtain ⟨⟨_, bytes₃⟩, -, h⟩ := bind_eq_some_iff.mp h
  obtain ⟨⟨count, bytes₄⟩, -, h⟩ := bind_eq_some_iff.mp h
  obtain ⟨⟨roots, bytes₅⟩, hroots, h⟩ := bind_eq_some_iff.mp h
  cases h
  obtain ⟨hlen, hall⟩ := decodeMany_forall (fun _ _ _ => decodeRoot_fits) hroots
  exact ⟨hall, hlen ▸ count.toNat_lt⟩

theorem decodeFunction_fits (h : decodeFunction base bytes = some (fn, rest)) :
    fn.Fits ∧ fn.placed base = fn := by
  obtain ⟨⟨nameLen, bytes₁⟩, -, h⟩ := bind_eq_some_iff.mp h
  obtain ⟨⟨name, bytes₂⟩, hname, h⟩ := bind_eq_some_iff.mp h
  obtain ⟨⟨_, bytes₃⟩, -, h⟩ := bind_eq_some_iff.mp h
  obtain ⟨⟨_, bytes₄⟩, -, h⟩ := bind_eq_some_iff.mp h
  obtain ⟨⟨count, bytes₅⟩, -, h⟩ := bind_eq_some_iff.mp h
  obtain ⟨⟨records, bytes₆⟩, hrecords, h⟩ := bind_eq_some_iff.mp h
  cases h
  obtain ⟨hlen, hall⟩ := decodeMany_forall (fun _ _ _ => decodeRecord_fits) hrecords
  refine ⟨⟨?_, hall, hlen ▸ count.toNat_lt⟩, rfl⟩
  have hlt := nameLen.toNat_lt
  unfold readString at hname
  split at hname
  · cases hname
    exact Nat.lt_of_le_of_lt (length_take_le _ _) hlt
  · cases hname

/-- The functions read so far: different names, the counts of the format, and the addresses
that the decoder gives them. -/
structure ModuleStackMap.Decoded (base : UInt64) (count : Nat) (m : ModuleStackMap) : Prop where
  nodup : (names m.functions).Nodup
  fits : ∀ fn ∈ m.functions, fn.Fits
  placed : ∀ fn ∈ m.functions, fn.placed base = fn
  length : m.functions.length ≤ count

theorem ModuleStackMap.Decoded.add (h : m.Decoded base count) (hfits : fn.Fits)
    (hplaced : fn.placed base = fn) : (m.addFunction fn).Decoded base (count + 1) := by
  refine ⟨nodup_addFunctionTo fn h.nodup, fun f hf => ?_, fun f hf => ?_, ?_⟩
  · rcases mem_addFunctionTo hf with rfl | hf
    · exact hfits
    · exact h.fits f hf
  · rcases mem_addFunctionTo hf with rfl | hf
    · exact hplaced
    · exact h.placed f hf
  · have hle := length_addFunctionTo fn m.functions
    have hlen := h.length
    show (addFunctionTo fn m.functions).length ≤ count + 1
    omega

theorem decodeFunctions_decoded {out : ModuleStackMap} (hout : out.Decoded base n)
    (h : decodeFunctions base count bytes out = (true, m)) : m.Decoded base (n + count) := by
  induction count generalizing n bytes out with
  | zero =>
    cases h
    exact hout
  | succ count ih =>
    rw [decodeFunctions] at h
    split at h
    · cases h
    · rename_i fn rest hfn
      obtain ⟨hfits, hplaced⟩ := decodeFunction_fits hfn
      have := ih (hout.add hfits hplaced) h
      rwa [Nat.add_assoc, Nat.add_comm 1 count] at this

theorem decode_decoded (h : decodeStackMapsInto data base = (true, m)) :
    ∃ count < 2 ^ 32, m.Decoded base count := by
  unfold decodeStackMapsInto at h
  split at h
  · cases h
  · rename_i fnCount bytes _
    have hempty : (⟨[]⟩ : ModuleStackMap).Decoded base 0 := ⟨nodup_nil, by simp, by simp, Nat.le_refl 0⟩
    exact ⟨_, by simpa using fnCount.toNat_lt, decodeFunctions_decoded hempty h⟩

/-- What the decoder accepts encodes to something that decodes to itself. -/
theorem decode_encode_decoded (h : decodeStackMapsInto data base = (true, m)) :
    decodeStackMapsInto (encodeStackMaps m) base = (true, m) := by
  obtain ⟨count, hcount, hm⟩ := decode_decoded h
  have hlen := hm.length
  rw [decode_encode_of_nodup hm.nodup hm.fits (by omega)]
  have hplaced : m.functions.map (FunctionStackMap.placed base) = m.functions := by
    conv_rhs => rw [← map_id m.functions]
    exact map_congr_left (fun fn hfn => hm.placed fn hfn)
  rw [placed, hplaced]

/-! ## The reader with its position -/

/-- The outcome of a read: a value and the new position, a failed check, or an access
outside the data. -/
inductive Access (α : Type) where
  | ok (a : α) (pos : Nat)
  | rejected
  | outOfBounds

def Reading (α : Type) := List UInt8 → Nat → Access α

instance : Monad Reading where
  pure a := fun _ pos => .ok a pos
  bind p f := fun data pos =>
    match p data pos with
    | .ok a pos => f a data pos
    | .rejected => .rejected
    | .outOfBounds => .outOfBounds

namespace Reading

/-- `has_bytes`: the sum is computed in `size_t`. -/
def hasBytes (data : List UInt8) (pos n : Nat) : Bool := (pos + n) % 2 ^ 64 ≤ data.length

def reject {α : Type} : Reading α := fun _ _ => .rejected

def ofOption {α : Type} : Option α → Reading α
  | some a => pure a
  | none => reject

def u8 : Reading UInt8 := fun data pos =>
  if hasBytes data pos 1 then
    match data[pos]? with
    | some a => .ok a (pos + 1)
    | none => .outOfBounds
  else .rejected

def u32 : Reading UInt32 := fun data pos =>
  if hasBytes data pos 4 then
    match data[pos]?, data[pos + 1]?, data[pos + 2]?, data[pos + 3]? with
    | some a, some b, some c, some d =>
      .ok (a.toUInt32 ||| (b.toUInt32 <<< 8) ||| (c.toUInt32 <<< 16) ||| (d.toUInt32 <<< 24)) (pos + 4)
    | _, _, _, _ => .outOfBounds
  else .rejected

def i32 : Reading Int := do
  let u ← u32
  pure u.toBitVec.toInt

/-- The loop of `read_u64` over the bytes. -/
def u64Bytes (data : List UInt8) (pos : Nat) : Nat → Option UInt64
  | 0 => some 0
  | i + 1 => do
    let val ← u64Bytes data pos i
    let byte ← data[pos + i]?
    some (val ||| (byte.toUInt64 <<< UInt64.ofNat (i * 8)))

def u64 : Reading UInt64 := fun data pos =>
  if hasBytes data pos 8 then
    match u64Bytes data pos 8 with
    | some val => .ok val (pos + 8)
    | none => .outOfBounds
  else .rejected

def string (len : Nat) : Reading (List UInt8) := fun data pos =>
  if hasBytes data pos len then
    if pos + len ≤ data.length then .ok ((data.drop pos).take len) (pos + len) else .outOfBounds
  else .rejected

def many {α : Type} (item : Reading α) : Nat → Reading (List α)
  | 0 => pure []
  | count + 1 => do
    let a ← item
    let as ← many item count
    pure (a :: as)

def root : Reading StackMapRootLocation := do
  let offset ← i32
  let kind ← u8
  let regClass ← u8
  let code ← u8
  let value ← u8
  let kind ← ofOption (decodeRootKind kind)
  let value ← ofOption (decodeValueKind value)
  pure ⟨kind, offset, ⟨regClass, code⟩, value⟩

def record : Reading StackMapRecord := do
  let instructionOffset ← u32
  let frameSize ← u32
  let safepointId ← u32
  let rootCount ← u32
  let roots ← many root rootCount.toNat
  pure ⟨instructionOffset, frameSize, roots, safepointId⟩

def function (textBase : UInt64) : Reading FunctionStackMap := do
  let nameLen ← u32
  let name ← string nameLen.toNat
  let codeOffset ← u64
  let codeSize ← u32
  let recCount ← u32
  let records ← many record recCount.toNat
  pure ⟨name, if 0 < textBase then textBase + codeOffset.toUInt32.toUInt64 else 0,
    codeOffset.toUInt32, codeSize, records, false⟩

def header : Reading UInt32 := do
  let magic ← u32
  if magic ≠ stackMapMagic then reject
  else
    let version ← u32
    if version ≠ stackMapVersion then reject else u32

end Reading

/-- The functions one after the other; `none` is an access outside the data. -/
def decodeFunctionsAt (textBase : UInt64) (data : List UInt8) :
    Nat → Nat → ModuleStackMap → Option (Bool × ModuleStackMap)
  | 0, _, out => some (true, out)
  | count + 1, pos, out =>
    match Reading.function textBase data pos with
    | .rejected => some (false, out)
    | .outOfBounds => none
    | .ok fn pos => decodeFunctionsAt textBase data count pos (out.addFunction fn)

def decodeAt (data : List UInt8) (textBase : UInt64) : Option (Bool × ModuleStackMap) :=
  match Reading.header data 0 with
  | .rejected => some (false, ⟨[]⟩)
  | .outOfBounds => none
  | .ok fnCount pos => decodeFunctionsAt textBase data fnCount.toNat pos ⟨[]⟩

/-! ## No read is out of bounds -/

/-- From a position inside the data, `p` does what `q` does on the rest of the data. -/
def Agrees {α : Type} (p : Reading α) (q : List UInt8 → Option (α × List UInt8)) : Prop :=
  ∀ data pos, data.length < 2 ^ 63 → pos ≤ data.length →
    (q (data.drop pos) = none ∧ p data pos = .rejected) ∨
      ∃ a pos', q (data.drop pos) = some (a, data.drop pos') ∧ pos' ≤ data.length ∧
        p data pos = .ok a pos'

section Agrees

variable {α γ : Type}
variable {q : List UInt8 → Option (α × List UInt8)}

theorem agrees_pure (a : α) : Agrees (pure a) (fun bytes => some (a, bytes)) :=
  fun _ pos _ hpos => .inr ⟨a, pos, rfl, hpos, rfl⟩

theorem agrees_reject : Agrees (Reading.reject : Reading α) (fun _ => none) :=
  fun _ _ _ _ => .inl ⟨rfl, rfl⟩

theorem agrees_bind {p : Reading α} {f : α → Reading γ}
    {g : α → List UInt8 → Option (γ × List UInt8)} (hp : Agrees p q)
    (hf : ∀ a, Agrees (f a) (g a)) :
    Agrees (p >>= f) (fun bytes => (q bytes).bind (fun x => g x.1 x.2)) := by
  intro data pos hdata hpos
  have hbind : (p >>= f) data pos = match p data pos with
      | .ok a pos => f a data pos
      | .rejected => .rejected
      | .outOfBounds => .outOfBounds := rfl
  rcases hp data pos hdata hpos with ⟨hq, hrun⟩ | ⟨a, pos', hq, hpos', hrun⟩
  · left
    rw [hbind, hrun]
    simp only [hq, bind_none, and_self]
  · rw [hbind, hrun]
    simp only [hq, bind_some]
    exact hf a data pos' hdata hpos'

theorem agrees_ofOption (o : Option α) {f : α → Reading γ}
    {g : α → List UInt8 → Option (γ × List UInt8)} (hf : ∀ a, Agrees (f a) (g a)) :
    Agrees (Reading.ofOption o >>= f) (fun bytes => o.bind (fun a => g a bytes)) := by
  cases o with
  | none => exact agrees_reject
  | some a => exact hf a

theorem agrees_ite (c : Prop) [Decidable c] {p p' : Reading α}
    {q' : List UInt8 → Option (α × List UInt8)} (hp : Agrees p q) (hp' : Agrees p' q') :
    Agrees (if c then p else p') (fun bytes => if c then q bytes else q' bytes) := by
  by_cases h : c
  · simpa only [if_pos h] using hp
  · simpa only [if_neg h] using hp'

theorem agrees_many {item : Reading α} (h : Agrees item q) (count : Nat) :
    Agrees (Reading.many item count) (decodeMany q count) := by
  induction count with
  | zero => exact agrees_pure []
  | succ count ih =>
    exact agrees_bind h (fun a => agrees_bind ih (fun as => agrees_pure (a :: as)))

end Agrees

theorem hasBytes_iff (hdata : data.length < 2 ^ 63) (hpos : pos ≤ data.length) (hn : n < 2 ^ 32) :
    Reading.hasBytes data pos n = true ↔ n ≤ (data.drop pos).length := by
  unfold Reading.hasBytes
  rw [decide_eq_true_eq, length_drop, Nat.mod_eq_of_lt (by omega)]
  omega

theorem agrees_u8 : Agrees Reading.u8 readU8 := by
  intro data pos hdata hpos
  have hbytes := hasBytes_iff hdata hpos (n := 1) (by omega)
  unfold Reading.u8
  by_cases h : pos < data.length
  · right
    rw [length_drop] at hbytes
    rw [if_pos (hbytes.mpr (by omega)), getElem?_eq_getElem h, drop_eq_getElem_cons h]
    exact ⟨_, pos + 1, rfl, h, rfl⟩
  · left
    have hnil : data.drop pos = [] := drop_eq_nil_of_le (by omega)
    rw [hnil] at hbytes ⊢
    rw [if_neg (fun hb => by simpa using hbytes.mp hb)]
    exact ⟨rfl, rfl⟩

theorem readU32_short (h : bytes.length < 4) : readU32 bytes = none := by
  unfold readU32
  split
  · simp only [length_cons] at h
    omega
  · rfl

theorem drop_four (h : pos + 4 ≤ data.length) :
    ∃ a b c d, data.drop pos = a :: b :: c :: d :: data.drop (pos + 4) ∧ data[pos]? = some a ∧
      data[pos + 1]? = some b ∧ data[pos + 2]? = some c ∧ data[pos + 3]? = some d := by
  refine ⟨data[pos], data[pos + 1], data[pos + 2], data[pos + 3], ?_,
    getElem?_eq_getElem _, getElem?_eq_getElem _, getElem?_eq_getElem _,
    getElem?_eq_getElem _⟩
  rw [drop_eq_getElem_cons (by omega : pos < data.length),
    drop_eq_getElem_cons (by omega : pos + 1 < data.length),
    drop_eq_getElem_cons (by omega : pos + 1 + 1 < data.length),
    drop_eq_getElem_cons (by omega : pos + 1 + 1 + 1 < data.length)]

theorem agrees_u32 : Agrees Reading.u32 readU32 := by
  intro data pos hdata hpos
  have hbytes := hasBytes_iff hdata hpos (n := 4) (by omega)
  unfold Reading.u32
  by_cases h : pos + 4 ≤ data.length
  · right
    obtain ⟨a, b, c, d, hdrop, ha, hb, hc, hd⟩ := drop_four h
    rw [length_drop] at hbytes
    rw [if_pos (hbytes.mpr (by omega)), hdrop, ha, hb, hc, hd]
    exact ⟨_, pos + 4, rfl, h, rfl⟩
  · left
    have hshort : (data.drop pos).length < 4 := by
      rw [length_drop]
      omega
    rw [if_neg (fun hb => by have := hbytes.mp hb; omega)]
    exact ⟨readU32_short hshort, rfl⟩

theorem agrees_i32 : Agrees Reading.i32 readI32 :=
  agrees_bind agrees_u32 (fun u => agrees_pure u.toBitVec.toInt)

theorem toNat_shift_byte (x : UInt8) (hk : k ≤ 56) :
    (x.toUInt64 <<< UInt64.ofNat k).toNat = x.toNat <<< k := by
  have hx := x.toNat_lt
  have hpow : 2 ^ k ≤ 2 ^ 56 := Nat.pow_le_pow_right (by omega) hk
  have hlt : x.toNat * 2 ^ k < 2 ^ 64 := by
    calc x.toNat * 2 ^ k ≤ 255 * 2 ^ 56 := Nat.mul_le_mul (by omega) hpow
      _ < 2 ^ 64 := by omega
  have hk' : (UInt64.ofNat k).toNat = k := by
    rw [UInt64.toNat_ofNat']
    omega
  rw [UInt64.toNat_shiftLeft, UInt8.toNat_toUInt64, hk', Nat.mod_eq_of_lt (by omega : k < 64),
    Nat.shiftLeft_eq, Nat.mod_eq_of_lt hlt]

theorem toNat_or_byte (v : UInt64) (x : UInt8) (hk : k ≤ 56) (hv : v.toNat < 2 ^ k) :
    (v ||| (x.toUInt64 <<< UInt64.ofNat k)).toNat = v.toNat + 2 ^ k * x.toNat ∧
      (v ||| (x.toUInt64 <<< UInt64.ofNat k)).toNat < 2 ^ (k + 8) := by
  have hval : (v ||| (x.toUInt64 <<< UInt64.ofNat k)).toNat = v.toNat + 2 ^ k * x.toNat := by
    rw [UInt64.toNat_or, toNat_shift_byte x hk, or_shiftLeft hv]
  have hx : 2 ^ k * x.toNat ≤ 2 ^ k * 255 := Nat.mul_le_mul_left _ (by have := x.toNat_lt; omega)
  refine ⟨hval, ?_⟩
  rw [hval, Nat.pow_add]
  omega

theorem u64_eq_words (a b c d e f g h : UInt8) :
    (0 : UInt64) ||| (a.toUInt64 <<< UInt64.ofNat (0 * 8)) ||| (b.toUInt64 <<< UInt64.ofNat (1 * 8)) |||
      (c.toUInt64 <<< UInt64.ofNat (2 * 8)) ||| (d.toUInt64 <<< UInt64.ofNat (3 * 8)) |||
      (e.toUInt64 <<< UInt64.ofNat (4 * 8)) ||| (f.toUInt64 <<< UInt64.ofNat (5 * 8)) |||
      (g.toUInt64 <<< UInt64.ofNat (6 * 8)) ||| (h.toUInt64 <<< UInt64.ofNat (7 * 8)) =
    (a.toUInt32 ||| (b.toUInt32 <<< 8) ||| (c.toUInt32 <<< 16) ||| (d.toUInt32 <<< 24)).toUInt64 |||
      ((e.toUInt32 ||| (f.toUInt32 <<< 8) ||| (g.toUInt32 <<< 16) |||
        (h.toUInt32 <<< 24)).toUInt64 <<< 32) := by
  have hlo := toNat_ofBytes a b c d
  have hhi := toNat_ofBytes e f g h
  generalize a.toUInt32 ||| (b.toUInt32 <<< 8) ||| (c.toUInt32 <<< 16) ||| (d.toUInt32 <<< 24) = lo
    at hlo ⊢
  generalize e.toUInt32 ||| (f.toUInt32 <<< 8) ||| (g.toUInt32 <<< 16) ||| (h.toUInt32 <<< 24) = hi
    at hhi ⊢
  have hwords : (lo.toUInt64 ||| (hi.toUInt64 <<< 32)).toNat = lo.toNat + 2 ^ 32 * hi.toNat := by
    have hlo' := lo.toNat_lt
    have hhi' := hi.toNat_lt
    rw [UInt64.toNat_or, UInt64.toNat_shiftLeft, UInt32.toNat_toUInt64, UInt32.toNat_toUInt64,
      show (32 : UInt64).toNat % 64 = 32 from rfl, Nat.mod_eq_of_lt, or_shiftLeft hlo']
    rw [Nat.shiftLeft_eq]
    omega
  apply UInt64.toNat_inj.mp
  rw [hwords, hlo, hhi]
  obtain ⟨n0, l0⟩ := toNat_or_byte 0 a (k := 0 * 8) (by omega) (by decide)
  obtain ⟨n1, l1⟩ := toNat_or_byte _ b (k := 1 * 8) (by omega) l0
  obtain ⟨n2, l2⟩ := toNat_or_byte _ c (k := 2 * 8) (by omega) l1
  obtain ⟨n3, l3⟩ := toNat_or_byte _ d (k := 3 * 8) (by omega) l2
  obtain ⟨n4, l4⟩ := toNat_or_byte _ e (k := 4 * 8) (by omega) l3
  obtain ⟨n5, l5⟩ := toNat_or_byte _ f (k := 5 * 8) (by omega) l4
  obtain ⟨n6, l6⟩ := toNat_or_byte _ g (k := 6 * 8) (by omega) l5
  obtain ⟨n7, -⟩ := toNat_or_byte _ h (k := 7 * 8) (by omega) l6
  rw [n7, n6, n5, n4, n3, n2, n1, n0, UInt64.toNat_zero]
  omega

theorem agrees_u64 : Agrees Reading.u64 readU64 := by
  intro data pos hdata hpos
  have hbytes := hasBytes_iff hdata hpos (n := 8) (by omega)
  unfold Reading.u64
  by_cases h : pos + 8 ≤ data.length
  · right
    obtain ⟨a, b, c, d, hdrop, ha, hb, hc, hd⟩ := drop_four (by omega : pos + 4 ≤ data.length)
    obtain ⟨e, f, g, k, hdrop', he, hf, hg, hk⟩ := drop_four (by omega : pos + 4 + 4 ≤ data.length)
    have hval : Reading.u64Bytes data pos 8 = some
        (0 ||| (a.toUInt64 <<< UInt64.ofNat (0 * 8)) ||| (b.toUInt64 <<< UInt64.ofNat (1 * 8)) |||
          (c.toUInt64 <<< UInt64.ofNat (2 * 8)) ||| (d.toUInt64 <<< UInt64.ofNat (3 * 8)) |||
          (e.toUInt64 <<< UInt64.ofNat (4 * 8)) ||| (f.toUInt64 <<< UInt64.ofNat (5 * 8)) |||
          (g.toUInt64 <<< UInt64.ofNat (6 * 8)) ||| (k.toUInt64 <<< UInt64.ofNat (7 * 8))) := by
      simp only [Reading.u64Bytes, Nat.add_zero, ha, hb, hc, hd, bind_eq_bind,
        bind_some, show pos + 5 = pos + 4 + 1 from rfl, show pos + 6 = pos + 4 + 2 from rfl,
        show pos + 7 = pos + 4 + 3 from rfl, he, hf, hg, hk]
    rw [length_drop] at hbytes
    rw [if_pos (hbytes.mpr (by omega)), hdrop, hdrop', hval, u64_eq_words]
    exact ⟨_, pos + 8, rfl, h, rfl⟩
  · left
    rw [length_drop] at hbytes
    rw [if_neg (fun hb => by have := hbytes.mp hb; omega)]
    refine ⟨?_, rfl⟩
    unfold readU64
    by_cases h4 : pos + 4 ≤ data.length
    · obtain ⟨a, b, c, d, hdrop, -⟩ := drop_four h4
      rw [hdrop]
      have hshort : readU32 (data.drop (pos + 4)) = none :=
        readU32_short (by rw [length_drop]; omega)
      simp only [readU32, bind_eq_bind, bind_some]
      exact congrArg (fun x => bind x _) hshort
    · rw [readU32_short (by rw [length_drop]; omega)]
      rfl

theorem agrees_string {len : Nat} (hlen : len < 2 ^ 32) :
    Agrees (Reading.string len) (fun bytes => readString bytes len) := by
  intro data pos hdata hpos
  have hbytes := hasBytes_iff hdata hpos hlen
  unfold Reading.string readString
  by_cases h : len ≤ (data.drop pos).length
  · right
    have hle := h
    rw [length_drop] at hle
    refine ⟨(data.drop pos).take len, pos + len, ?_, by omega, ?_⟩
    · dsimp only
      rw [if_pos h, drop_drop]
    · rw [if_pos (hbytes.mpr h), if_pos (by omega)]
  · left
    dsimp only
    rw [if_neg h, if_neg (fun hb => h (hbytes.mp hb))]
    exact ⟨rfl, rfl⟩

theorem agrees_root : Agrees Reading.root decodeRoot :=
  agrees_bind agrees_i32 fun offset => agrees_bind agrees_u8 fun kind =>
    agrees_bind agrees_u8 fun regClass => agrees_bind agrees_u8 fun code =>
      agrees_bind agrees_u8 fun value => agrees_ofOption (decodeRootKind kind) fun kind =>
        agrees_ofOption (decodeValueKind value) fun value =>
          agrees_pure (StackMapRootLocation.mk kind offset ⟨regClass, code⟩ value)

theorem agrees_record : Agrees Reading.record decodeRecord :=
  agrees_bind agrees_u32 fun instructionOffset => agrees_bind agrees_u32 fun frameSize =>
    agrees_bind agrees_u32 fun safepointId => agrees_bind agrees_u32 fun rootCount =>
      agrees_bind (agrees_many agrees_root rootCount.toNat) fun roots =>
        agrees_pure (StackMapRecord.mk instructionOffset frameSize roots safepointId)

theorem agrees_function (base : UInt64) : Agrees (Reading.function base) (decodeFunction base) :=
  agrees_bind agrees_u32 fun nameLen => agrees_bind (agrees_string nameLen.toNat_lt) fun name =>
    agrees_bind agrees_u64 fun codeOffset => agrees_bind agrees_u32 fun codeSize =>
      agrees_bind agrees_u32 fun recCount =>
        agrees_bind (agrees_many agrees_record recCount.toNat) fun records =>
          agrees_pure (FunctionStackMap.mk name
            (if 0 < base then base + codeOffset.toUInt32.toUInt64 else 0) codeOffset.toUInt32
            codeSize records false)

theorem agrees_header : Agrees Reading.header readHeader :=
  agrees_bind agrees_u32 fun magic => agrees_ite (magic ≠ stackMapMagic) agrees_reject
    (agrees_bind agrees_u32 fun version =>
      agrees_ite (version ≠ stackMapVersion) agrees_reject agrees_u32)

theorem decodeFunctionsAt_eq (hdata : data.length < 2 ^ 63) (count : Nat)
    (hpos : pos ≤ data.length) (out : ModuleStackMap) :
    decodeFunctionsAt base data count pos out =
      some (decodeFunctions base count (data.drop pos) out) := by
  induction count generalizing pos out with
  | zero => rfl
  | succ count ih =>
    unfold decodeFunctionsAt decodeFunctions
    rcases agrees_function base data pos hdata hpos with ⟨hq, hrun⟩ | ⟨fn, pos', hq, hpos', hrun⟩
    · rw [hq, hrun]
    · rw [hq, hrun]
      exact ih hpos' (out.addFunction fn)

/-- The reader with its position does what the decoder does, and never leaves the data. -/
theorem decodeAt_eq (hdata : data.length < 2 ^ 63) (base : UInt64) :
    decodeAt data base = some (decodeStackMapsInto data base) := by
  unfold decodeAt decodeStackMapsInto
  rcases agrees_header data 0 hdata (Nat.zero_le _) with ⟨hq, hrun⟩ | ⟨fnCount, pos, hq, hpos, hrun⟩
  · rw [drop_zero] at hq
    rw [hq, hrun]
  · rw [drop_zero] at hq
    rw [hq, hrun]
    exact decodeFunctionsAt_eq hdata fnCount.toNat hpos ⟨[]⟩

/-! ## The round trip -/

theorem foldl_addFunction_fits (fns : List FunctionStackMap) (hfns : ∀ fn ∈ fns, fn.Fits)
    (hm : ∀ fn ∈ m.functions, fn.Fits) :
    (∀ fn ∈ (fns.foldl addFunction m).functions, fn.Fits) ∧
      (fns.foldl addFunction m).functions.length ≤ m.functions.length + fns.length := by
  induction fns generalizing m with
  | nil => exact ⟨hm, Nat.le_refl _⟩
  | cons fn fns ih =>
    have hadd : ∀ f ∈ (m.addFunction fn).functions, f.Fits := by
      intro f hf
      rcases mem_addFunctionTo hf with rfl | hf
      · exact hfns f mem_cons_self
      · exact hm f hf
    obtain ⟨hall, hlen⟩ := ih (fun f hf => hfns f (mem_cons_of_mem fn hf)) hadd
    refine ⟨hall, Nat.le_trans hlen ?_⟩
    have hle : (m.addFunction fn).functions.length ≤ m.functions.length + 1 :=
      length_addFunctionTo fn m.functions
    rw [length_cons]
    omega

theorem decode_encode_ofFunctions (hfits : ∀ fn ∈ fns, fn.Fits) (hcount : fns.length < 2 ^ 32)
    (base : UInt64) :
    decodeStackMapsInto (encodeStackMaps (ofFunctions fns)) base =
      (true, (ofFunctions fns).placed base) := by
  obtain ⟨hall, hlen⟩ := foldl_addFunction_fits fns (m := ⟨[]⟩) hfits (by simp)
  have hzero : (⟨[]⟩ : ModuleStackMap).functions.length = 0 := rfl
  have hnodup := nodup_foldl_addFunction fns (m := ⟨[]⟩) nodup_nil
  exact decode_encode_of_nodup hnodup hall (by omega) base

/-- A module built by adding functions decodes to itself, up to the addresses, which the
decoder computes from the base; what the decoder accepts encodes to something that decodes
to itself; and no read is out of bounds. -/
theorem stackMaps_roundTrip :
    (∀ fns : List FunctionStackMap, (∀ fn ∈ fns, fn.Fits) → fns.length < 2 ^ 32 → ∀ base,
      decodeStackMapsInto (encodeStackMaps (ModuleStackMap.ofFunctions fns)) base =
        (true, (ModuleStackMap.ofFunctions fns).placed base)) ∧
    (∀ data base m, decodeStackMapsInto data base = (true, m) →
      decodeStackMapsInto (encodeStackMaps m) base = (true, m)) ∧
    ∀ data base, data.length < 2 ^ 63 →
      decodeAt data base = some (decodeStackMapsInto data base) :=
  ⟨fun _ hfits hcount base => decode_encode_ofFunctions hfits hcount base,
    fun _ _ _ h => decode_encode_decoded h, fun _ base hdata => decodeAt_eq hdata base⟩

/-- Two functions, one with a record of two roots, at addresses that no base explains. -/
def sampleFunctions : List FunctionStackMap :=
  [⟨[102], 0x1000, 0, 32,
      [⟨8, 48, [⟨.frameSlot, -24, ⟨0, 255⟩, .gcRef⟩, ⟨.calleeSavedReg, -8, ⟨0, 3⟩, .tagged⟩], 7⟩], true⟩,
    ⟨[103], 0x5000, 0x10, 16, [], false⟩]

theorem sampleFunctions_fits : ∀ fn ∈ sampleFunctions, fn.Fits := by
  have hroots : ∀ root ∈ [(⟨.frameSlot, -24, ⟨0, 255⟩, .gcRef⟩ : StackMapRootLocation),
      ⟨.calleeSavedReg, -8, ⟨0, 3⟩, .tagged⟩], root.Fits := by
    simp [StackMapRootLocation.Fits]
  intro fn hfn
  simp only [sampleFunctions, mem_cons, not_mem_nil, or_false] at hfn
  rcases hfn with rfl | rfl
  · refine ⟨by simp, fun rec hrec => ?_, by simp⟩
    obtain rfl := mem_singleton.mp hrec
    exact ⟨hroots, by simp⟩
  · exact ⟨by simp, by simp, by simp⟩

theorem stackMaps_roundTrip_sampleFunctions :
    decodeStackMapsInto (encodeStackMaps (ModuleStackMap.ofFunctions sampleFunctions)) 0x400000 =
        (true, (ModuleStackMap.ofFunctions sampleFunctions).placed 0x400000) ∧
      decodeAt (encodeStackMaps (ModuleStackMap.ofFunctions sampleFunctions)) 0x400000 =
        some (decodeStackMapsInto (encodeStackMaps (ModuleStackMap.ofFunctions sampleFunctions))
          0x400000) :=
  ⟨stackMaps_roundTrip.1 sampleFunctions sampleFunctions_fits (by decide) 0x400000,
    stackMaps_roundTrip.2.2 _ 0x400000 (by decide +kernel)⟩

/-- The addresses are not in the encoding. -/
theorem stackMaps_addresses_lost :
    ¬ ∀ fns : List FunctionStackMap, (∀ fn ∈ fns, fn.Fits) → fns.length < 2 ^ 32 →
      ∃ base, decodeStackMapsInto (encodeStackMaps (ModuleStackMap.ofFunctions fns)) base =
        (true, ModuleStackMap.ofFunctions fns) := by
  intro hall
  obtain ⟨base, h⟩ := hall sampleFunctions sampleFunctions_fits (by decide)
  rw [decode_encode_ofFunctions sampleFunctions_fits (by decide) base] at h
  have hmodule := congrArg (fun r => r.2.functions.map FunctionStackMap.functionAddress) h
  have haddresses : [if 0 < base then base + (0 : UInt32).toUInt64 else 0,
      if 0 < base then base + (0x10 : UInt32).toUInt64 else 0] = [(0x1000 : UInt64), 0x5000] := hmodule
  simp only [List.cons.injEq, and_true] at haddresses
  obtain ⟨hf, hg⟩ := haddresses
  by_cases hpos : 0 < base
  · rw [if_pos hpos] at hf hg
    have hbase : base = 0x1000 := by simpa using hf
    rw [hbase] at hg
    exact absurd hg (by decide)
  · rw [if_neg hpos] at hf
    exact absurd hf (by decide)

end Brass.Gc
