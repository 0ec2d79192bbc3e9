import Mathlib.Data.List.Sort
import Mathlib.Tactic.Ring

/-!
# Stack maps and their binary form

The data of `gc/stack_map.hpp` and the decoder of `gc/stack_map.cpp`. Machine integers
keep their width (`UInt8`, `UInt32`, `UInt64`; `uintptr_t` is `UInt64`), and a function
name is the byte string that `std::string` holds.

A `BinaryReader` over `data` at position `pos_` is the list of the bytes from `pos_` on:
every read either fails, without an effect that a caller can see, or takes a prefix off
that list.
-/

namespace Brass.Gc

inductive StackMapRootKind where
  | frameSlot
  | calleeSavedReg
  deriving DecidableEq, Repr

inductive StackMapValueKind where
  | gcRef
  | tagged
  deriving DecidableEq, Repr

/-- `codegen::PReg` as the decoder fills it: the register class is the byte that was read. -/
structure PRegBytes where
  regClass : UInt8
  code : UInt8
  deriving DecidableEq, Repr

structure StackMapRootLocation where
  kind : StackMapRootKind
  offsetFromRbp : Int
  reg : PRegBytes
  value : StackMapValueKind
  deriving DecidableEq, Repr

structure StackMapRecord where
  instructionOffset : UInt32
  frameSize : UInt32
  roots : List StackMapRootLocation
  safepointId : UInt32
  deriving DecidableEq, Repr

structure FunctionStackMap where
  functionName : List UInt8
  functionAddress : UInt64
  codeOffset : UInt32
  codeSize : UInt32
  records : List StackMapRecord
  recordsSorted : Bool
  deriving DecidableEq, Repr

def FunctionStackMap.empty : FunctionStackMap := ⟨[], 0, 0, 0, [], false⟩

/-- `std::stable_sort` by instruction offset. -/
def FunctionStackMap.sortRecords (fn : FunctionStackMap) : FunctionStackMap :=
  { fn with
    records := fn.records.mergeSort (fun a b => !(b.instructionOffset < a.instructionOffset))
    recordsSorted := true }

structure ModuleStackMap where
  functions : List FunctionStackMap
  deriving DecidableEq, Repr

/-- The first function of the same name is replaced, else `fn` goes last. -/
def addFunctionTo (fn : FunctionStackMap) : List FunctionStackMap → List FunctionStackMap
  | [] => [fn]
  | f :: fs => if f.functionName = fn.functionName then fn :: fs else f :: addFunctionTo fn fs

def ModuleStackMap.addFunction (m : ModuleStackMap) (fn : FunctionStackMap) : ModuleStackMap :=
  ⟨addFunctionTo fn m.functions⟩

/-! ## The reader -/

def stackMapMagic : UInt32 := 0x4D435342
def stackMapVersion : UInt32 := 1

def readU8 : List UInt8 → Option (UInt8 × List UInt8)
  | a :: rest => some (a, rest)
  | [] => none

def readU32 : List UInt8 → Option (UInt32 × List UInt8)
  | a :: b :: c :: d :: rest =>
    some (a.toUInt32 ||| (b.toUInt32 <<< 8) ||| (c.toUInt32 <<< 16) ||| (d.toUInt32 <<< 24), rest)
  | _ => none

def readU64 (bytes : List UInt8) : Option (UInt64 × List UInt8) := do
  let (lo, rest) ← readU32 bytes
  let (hi, rest) ← readU32 rest
  some (lo.toUInt64 ||| (hi.toUInt64 <<< 32), rest)

/-- `static_cast<int32_t>` of the unsigned word. -/
def readI32 (bytes : List UInt8) : Option (Int × List UInt8) := do
  let (u, rest) ← readU32 bytes
  some (u.toBitVec.toInt, rest)

def readString (bytes : List UInt8) (len : Nat) : Option (List UInt8 × List UInt8) :=
  if len ≤ bytes.length then some (bytes.take len, bytes.drop len) else none

def skipBytes (bytes : List UInt8) (len : Nat) : Option (List UInt8) :=
  if len ≤ bytes.length then some (bytes.drop len) else none

/-! ## The decoder -/

def decodeRootKind (kind : UInt8) : Option StackMapRootKind :=
  if kind = 0 then some .frameSlot else if kind = 1 then some .calleeSavedReg else none

def decodeValueKind (value : UInt8) : Option StackMapValueKind :=
  if value = 0 then some .gcRef else if value = 1 then some .tagged else none

def decodeRoot (bytes : List UInt8) : Option (StackMapRootLocation × List UInt8) := do
  let (offset, bytes) ← readI32 bytes
  let (kind, bytes) ← readU8 bytes
  let (regClass, bytes) ← readU8 bytes
  let (code, bytes) ← readU8 bytes
  let (value, bytes) ← readU8 bytes
  let kind ← decodeRootKind kind
  let value ← decodeValueKind value
  some (⟨kind, offset, ⟨regClass, code⟩, value⟩, bytes)

def decodeMany {α : Type} (item : List UInt8 → Option (α × List UInt8)) :
    Nat → List UInt8 → Option (List α × List UInt8)
  | 0, bytes => some ([], bytes)
  | count + 1, bytes => do
    let (a, bytes) ← item bytes
    let (as, bytes) ← decodeMany item count bytes
    some (a :: as, bytes)

def decodeRecord (bytes : List UInt8) : Option (StackMapRecord × List UInt8) := do
  let (instructionOffset, bytes) ← readU32 bytes
  let (frameSize, bytes) ← readU32 bytes
  let (safepointId, bytes) ← readU32 bytes
  let (rootCount, bytes) ← readU32 bytes
  let (roots, bytes) ← decodeMany decodeRoot rootCount.toNat bytes
  some (⟨instructionOffset, frameSize, roots, safepointId⟩, bytes)

def decodeFunction (textBase : UInt64) (bytes : List UInt8) :
    Option (FunctionStackMap × List UInt8) := do
  let (nameLen, bytes) ← readU32 bytes
  let (name, bytes) ← readString bytes nameLen.toNat
  let (codeOffset, bytes) ← readU64 bytes
  let (codeSize, bytes) ← readU32 bytes
  let codeOffset := codeOffset.toUInt32
  let address := if 0 < textBase then textBase + codeOffset.toUInt64 else 0
  let (recCount, bytes) ← readU32 bytes
  let (records, bytes) ← decodeMany decodeRecord recCount.toNat bytes
  some (⟨name, address, codeOffset, codeSize, records, false⟩, bytes)

/-- A function that does not decode ends the loop; the functions before it stay in `out`. -/
def decodeFunctions (textBase : UInt64) :
    Nat → List UInt8 → ModuleStackMap → Bool × ModuleStackMap
  | 0, _, out => (true, out)
  | count + 1, bytes, out =>
    match decodeFunction textBase bytes with
    | none => (false, out)
    | some (fn, bytes) => decodeFunctions textBase count bytes (out.addFunction fn)

def readHeader (bytes : List UInt8) : Option (UInt32 × List UInt8) := do
  let (magic, bytes) ← readU32 bytes
  if magic ≠ stackMapMagic then none
  else
    let (version, bytes) ← readU32 bytes
    if version ≠ stackMapVersion then none else readU32 bytes

def decodeStackMapsInto (data : List UInt8) (textBase : UInt64) : Bool × ModuleStackMap :=
  match readHeader data with
  | none => (false, ⟨[]⟩)
  | some (fnCount, bytes) => decodeFunctions textBase fnCount.toNat bytes ⟨[]⟩

/-- The number of functions and of the first function's records, when the header decodes. -/
def peekStackMaps (data : List UInt8) : Option (UInt32 × UInt32) := do
  let (functionCount, bytes) ← readHeader data
  if functionCount = 0 then some (0, 0)
  else
    let (nameLen, bytes) ← readU32 bytes
    let bytes ← skipBytes bytes nameLen.toNat
    let (_, bytes) ← readU64 bytes
    let (_, bytes) ← readU32 bytes
    let (firstRecordCount, _) ← readU32 bytes
    some (functionCount, firstRecordCount)

end Brass.Gc
