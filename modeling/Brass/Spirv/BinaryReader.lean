import Brass.Spirv.SpirvIr

/-!
# The binary reader

`spirv::parse_binary` of `spirv_binary_reader.cpp`. The writer stores bare words; the
reader finds the kind of each operand from the opcode, its position and the masks before
it.

Every access to the words is checked, so that an access outside of them is visible, and so
is a signed operation of a specialization constant whose result the language does not
define. The tables of types and of names are left out: nothing that is read depends on them.
-/

namespace Brass.Spirv

/-- Why a sequence of words is not read. The last three are no answers of the reader: an
access outside the words, an operation without a defined result, and a loop cut short. -/
inductive ParseError where
  /-- "SPIR-V binary too short (fewer than 5 header words)" -/
  | tooShort
  /-- "invalid SPIR-V magic number" -/
  | badMagic
  /-- "unsupported or malformed SPIR-V version word" -/
  | badVersion
  /-- "invalid SPIR-V id bound 0" -/
  | zeroBound
  /-- "non-zero SPIR-V header schema word" -/
  | badSchema
  /-- "instruction with word count 0 at word …" -/
  | zeroWordCount (pos : Nat)
  /-- "truncated instruction at word …" -/
  | truncated (pos : Nat)
  /-- "malformed string in …" -/
  | malformedString (op : UInt32)
  /-- "truncated …" -/
  | truncatedOp (op : UInt32)
  /-- "instruction word count too small for opcode …" -/
  | tooSmall (op : UInt32)
  /-- "OpFunctionParameter outside function" -/
  | parameterOutside
  /-- "OpFunctionEnd without matching OpFunction" -/
  | unmatchedEnd
  /-- "OpLabel outside function" -/
  | labelOutside
  /-- "instruction inside function before OpLabel" -/
  | beforeLabel
  /-- "unterminated OpFunction at end of binary" -/
  | unterminated
  | outOfBounds
  | undefined
  | outOfFuel
  deriving DecidableEq, Repr

/-! ## Words and strings -/

def word (words : List UInt32) (pos : Nat) : Except ParseError UInt32 :=
  match words[pos]? with
  | some w => .ok w
  | none => .error .outOfBounds

def subspan (words : List UInt32) (offset count : Nat) : Except ParseError (List UInt32) :=
  if offset + count ≤ words.length then .ok ((words.drop offset).take count)
  else .error .outOfBounds

def wordBytes (w : UInt32) : List UInt8 :=
  [(w &&& 0xFF).toUInt8, ((w >>> 8) &&& 0xFF).toUInt8, ((w >>> 16) &&& 0xFF).toUInt8,
    ((w >>> 24) &&& 0xFF).toUInt8]

/-- `unpack_string`, from `pos` over at most the first number of words: the string and the
position after it, or `none` where no word has a zero byte. -/
def unpackString (words : List UInt32) :
    Nat → Nat → List UInt8 → Except ParseError (Option (List UInt8 × Nat))
  | 0, _, _ => .ok none
  | n + 1, pos, out =>
    match word words pos with
    | .error e => .error e
    | .ok w =>
      let chars := (wordBytes w).takeWhile (· != 0)
      if chars.length < 4 then .ok (some (out ++ chars, pos + 1))
      else unpackString words n (pos + 1) (out ++ chars)

/-! ## Operands -/

/-- The kinds of operands given by position: those of a list, and one for the rest. -/
def tagged (kinds : List Kind) (rest : Kind) : List UInt32 → List Operand
  | [] => []
  | w :: raw => ⟨kinds.headD rest, w⟩ :: tagged kinds.tail rest raw

/-- One operand that a mask asks for, if there is a word left for it. -/
def maskOperand (mask bit : UInt32) (kind : Kind) (raw : List UInt32) :
    List Operand × List UInt32 :=
  if mask &&& bit ≠ 0 then
    match raw with
    | [] => ([], [])
    | w :: raw => ([⟨kind, w⟩], raw)
  else ([], raw)

/-- The loop of `classify_memory_access`, at most the first number of masks. -/
def memoryMasks : Nat → List UInt32 → List Operand
  | 0, _ => []
  | _, [] => []
  | n + 1, mask :: raw =>
    let aligned := maskOperand mask 0x2 .literal raw
    let available := maskOperand mask 0x8 .id aligned.2
    let visible := maskOperand mask 0x10 .id available.2
    lit mask :: aligned.1 ++ available.1 ++ visible.1 ++ memoryMasks n visible.2

def classifyMemoryAccess (raw : List UInt32) (maskIdx : Nat) : List Operand :=
  (raw.take maskIdx).map ref ++ memoryMasks raw.length (raw.drop maskIdx)

/-- The cases of an `OpSwitch`, `step` words each: literals and the target. -/
def switchCases (step : Nat) : Nat → List UInt32 → List Operand
  | 0, _ => []
  | _, [] => []
  | n + 1, w :: raw =>
    ((w :: raw).take (step - 1)).map lit ++ (((w :: raw).drop (step - 1)).take 1).map ref ++
      switchCases step n ((w :: raw).drop step)

/-- Whether the words after the first two are taken for cases of three words. A span that is
too short makes `raw.size() - 2` wrap. -/
def wideSwitch (raw : List UInt32) : Bool :=
  let rem := if raw.length < 2 then 2 ^ 64 + raw.length - 2 else raw.length - 2
  !raw.isEmpty && rem % 3 == 0 && rem % 2 != 0

def classifySwitch (raw : List UInt32) : List Operand :=
  let step := if wideSwitch raw then 3 else 2
  (raw.take 2).map ref ++ switchCases step raw.length (raw.drop 2)

def classifySpecConstantOp (raw : List UInt32) : List Operand :=
  match raw with
  | [] => []
  | inner :: _ =>
    if inner = opCompositeExtract then tagged [.literal, .id] .literal raw
    else if inner = opCompositeInsert ∨ inner = opVectorShuffle then
      tagged [.literal, .id, .id] .literal raw
    else tagged [.literal] .id raw

def classifyOperands (op : UInt32) (raw : List UInt32) : List Operand :=
  if op ∈ [opCapability, opMemoryModel, opConstant, opSpecConstant] then tagged [] .literal raw
  else if op ∈ [opExecutionMode, opDecorate] then tagged [.id] .literal raw
  else if op ∈ [opExecutionModeId, opDecorateId] then tagged [.id, .literal] .id raw
  else if op = opMemberDecorate then tagged [.id] .literal raw
  else if op ∈ [opTypeInt, opTypeFloat] then tagged [] .literal raw
  else if op ∈ [opTypeVector, opTypeMatrix, opTypeForwardPointer] then tagged [.id] .literal raw
  else if op = opTypeImage then tagged [.id] .literal raw
  else if op ∈ [opTypePointer, opVariable] then tagged [.literal] .id raw
  else if op = opSpecConstantOp then classifySpecConstantOp raw
  else if op = opExtInst then tagged [.id, .literal] .id raw
  else if op ∈ [opCompositeExtract, opArrayLength] then tagged [.id] .literal raw
  else if op ∈ [opCompositeInsert, opVectorShuffle] then tagged [.id, .id] .literal raw
  else if op = opLoad then classifyMemoryAccess raw 1
  else if op ∈ [opStore, opCopyMemory] then classifyMemoryAccess raw 2
  else if op ∈ [opImageSampleImplicitLod, opImageSampleExplicitLod, opImageFetch,
      opImageRead] then tagged [.id, .id, .literal] .id raw
  else if op ∈ [opImageSampleDrefImplicitLod, opImageSampleDrefExplicitLod,
      opImageWrite] then tagged [.id, .id, .id, .literal] .id raw
  else if op = opLoopMerge then tagged [.id, .id] .literal raw
  else if op = opSelectionMerge then tagged [.id] .literal raw
  else if op = opBranchConditional then tagged [.id, .id, .id] .literal raw
  else if op = opSwitch then classifySwitch raw
  else if op ∈ [opGroupNonUniformBallotBitCount, opGroupNonUniformIAdd, opGroupNonUniformFAdd,
      opGroupNonUniformIMul, opGroupNonUniformFMul, opGroupNonUniformSMin,
      opGroupNonUniformUMin, opGroupNonUniformFMin, opGroupNonUniformSMax,
      opGroupNonUniformUMax, opGroupNonUniformFMax, opGroupNonUniformBitwiseAnd,
      opGroupNonUniformBitwiseOr, opGroupNonUniformBitwiseXor, opGroupNonUniformLogicalAnd,
      opGroupNonUniformLogicalOr, opGroupNonUniformLogicalXor] then
    tagged [.id, .literal] .id raw
  else if op = opCooperativeMatrixLoadKHR then classifyMemoryAccess raw 3
  else if op = opCooperativeMatrixStoreKHR then classifyMemoryAccess raw 4
  else if op = opCooperativeMatrixMulAddKHR then tagged [.id, .id, .id] .literal raw
  else tagged [] .id raw

/-! ## The values of constants -/

abbrev Consts := UInt32 → Option UInt64

def Consts.set (consts : Consts) (id : UInt32) (v : UInt64) : Consts :=
  fun k => if k = id then some v else consts k

def int64Min : UInt64 := 0x8000000000000000

/-- A signed division, which has no defined result for `INT64_MIN / -1`. -/
def signedDivide (f : Int64 → Int64 → Int64) (a b : UInt64) : Option UInt64 :=
  if b = 0 then some 0
  else if a = int64Min ∧ b = 0xFFFFFFFFFFFFFFFF then none
  else some (f a.toInt64 b.toInt64).toUInt64

def ofBool (b : Bool) : UInt64 := if b then 1 else 0

def specOperand (ops : List Operand) (consts : Consts) (idx : Nat) : UInt64 :=
  ((ops[idx]?).bind fun o => consts o.value).getD 0

/-- `eval_spec_op`, with the opcode and the operands of an `OpSpecConstantOp`; `none` where
the result is not defined. -/
def evalSpecOp (op : UInt32) (ops : List Operand) (consts : Consts) : Option UInt64 :=
  let a := specOperand ops consts 1
  let b := specOperand ops consts 2
  let c := specOperand ops consts 3
  if op = opSNegate then (if a = int64Min then none else some (0 - a))
  else if op = opNot then some (~~~a)
  else if op = opLogicalNot then some (ofBool (a == 0))
  else if op = opIAdd then some (a + b)
  else if op = opISub then some (a - b)
  else if op = opIMul then some (a * b)
  else if op = opUDiv then some (if b ≠ 0 then a / b else 0)
  else if op = opSDiv then signedDivide (· / ·) a b
  else if op = opUMod then some (if b ≠ 0 then a % b else 0)
  else if op ∈ [opSRem, opSMod] then signedDivide (· % ·) a b
  else if op = opShiftRightLogical then some (if b < 64 then a >>> b else 0)
  else if op = opShiftRightArithmetic then
    some (if b < 64 then (a.toInt64 >>> b.toInt64).toUInt64 else 0)
  else if op = opShiftLeftLogical then some (if b < 64 then a <<< b else 0)
  else if op = opBitwiseOr then some (a ||| b)
  else if op = opBitwiseXor then some (a ^^^ b)
  else if op = opBitwiseAnd then some (a &&& b)
  else if op = opLogicalOr then some (ofBool (a != 0 || b != 0))
  else if op = opLogicalAnd then some (ofBool (a != 0 && b != 0))
  else if op ∈ [opLogicalEqual, opIEqual] then some (ofBool (a == b))
  else if op ∈ [opLogicalNotEqual, opINotEqual] then some (ofBool (a != b))
  else if op = opULessThan then some (ofBool (a.toUInt32 < b.toUInt32))
  else if op = opULessThanEqual then some (ofBool (a.toUInt32 ≤ b.toUInt32))
  else if op = opUGreaterThan then some (ofBool (b.toUInt32 < a.toUInt32))
  else if op = opUGreaterThanEqual then some (ofBool (b.toUInt32 ≤ a.toUInt32))
  else if op = opSLessThan then some (ofBool (a.toUInt32.toInt32 < b.toUInt32.toInt32))
  else if op = opSLessThanEqual then some (ofBool (a.toUInt32.toInt32 ≤ b.toUInt32.toInt32))
  else if op = opSGreaterThan then some (ofBool (b.toUInt32.toInt32 < a.toUInt32.toInt32))
  else if op = opSGreaterThanEqual then some (ofBool (b.toUInt32.toInt32 ≤ a.toUInt32.toInt32))
  else if op = opSelect then some (if a ≠ 0 then b else c)
  else if op ∈ [opSConvert, opUConvert] then some a
  else some 0

def isTypeOpcode (op : UInt32) : Bool :=
  op ∈ [opTypeVoid, opTypeBool, opTypeInt, opTypeFloat, opTypeVector, opTypeMatrix,
    opTypeImage, opTypeSampler, opTypeSampledImage, opTypeArray, opTypeRuntimeArray,
    opTypeStruct, opTypeOpaque, opTypePointer, opTypeFunction, opTypeCooperativeMatrixKHR,
    opTypeCooperativeMatrixNV, opTypeAccelerationStructureKHR, opTypeRayQueryKHR]

def constantValue (ops : List Operand) : UInt64 :=
  match ops with
  | [] => 0
  | [o] => o.value.toUInt64
  | o :: o' :: _ => o.value.toUInt64 ||| (o'.value.toUInt64 <<< 32)

def recordConst (i : Inst) (consts : Consts) : Option Consts :=
  if isTypeOpcode i.op then some consts
  else if i.op ∈ [opConstant, opSpecConstant] then
    some (consts.set i.result (constantValue i.operands))
  else if i.op ∈ [opConstantTrue, opSpecConstantTrue] then
    some (consts.set i.result 1)
  else if i.op ∈ [opConstantFalse, opSpecConstantFalse, opConstantNull] then
    some (consts.set i.result 0)
  else if i.op = opSpecConstantOp then
    match i.operands with
    | [] => some consts
    | o :: _ =>
      (evalSpecOp o.value i.operands consts).map fun v => consts.set i.result v
  else some consts

/-! ## Instructions -/

/-- The module read so far; `cur_fn` and `cur_block`, when they are set, point to the last
function and to its last block. -/
structure Reader where
  module : Module
  inFunction : Bool
  inBlock : Bool
  consts : Consts

/-- The last entry of a vector, changed in place. -/
def updateLast {α : Type} (f : α → α) : List α → List α
  | [] => []
  | [a] => [f a]
  | a :: b :: l => a :: updateLast f (b :: l)

def Module.updateFunction (m : Module) (f : Function → Function) : Module :=
  { m with functions := updateLast f m.functions }

def isSkipped (op : UInt32) : Bool :=
  op ∈ [opNop, opLine, opNoLine, opSource, opSourceContinued, opSourceExtension, opString,
    opMemberName, opModuleProcessed]

/-- A string operand at `pos`, in an instruction that ends at `instEnd`. -/
def stringAt (words : List UInt32) (op : UInt32) (pos instEnd : Nat) :
    Except ParseError (List UInt8 × Nat) :=
  match unpackString words (instEnd - pos) pos [] with
  | .error e => .error e
  | .ok none => .error (.malformedString op)
  | .ok (some r) => .ok r

/-- The instruction that `parse_binary` builds, once no string opcode has taken it. -/
def instAt (words : List UInt32) (op : UInt32) (pos wc : Nat) : Except ParseError Inst := do
  let need := 1 + (if hasResultType op then 1 else 0) + (if hasResult op then 1 else 0)
  if wc < need then throw (.tooSmall op)
  let type ← if hasResultType op then word words (pos + 1) else pure 0
  let cur := pos + 1 + (if hasResultType op then 1 else 0)
  let result ← if hasResult op then word words cur else pure 0
  let cur := cur + (if hasResult op then 1 else 0)
  let raw ← subspan words cur (pos + wc - cur)
  pure ⟨op, type, result, classifyOperands op raw⟩

def placeInst (r : Reader) (i : Inst) : Except ParseError Reader :=
  if i.op = opCapability then
    match i.operands with
    | [] => .ok r
    | o :: _ => .ok { r with module := r.module.addCapability o.value }
  else if i.op = opMemoryModel then
    match i.operands with
    | a :: memory :: _ => .ok { r with module := r.module.setMemoryModel a.value memory.value }
    | _ => .ok r
  else if i.op ∈ [opExecutionMode, opExecutionModeId] then
    .ok { r with module := { r.module with executionModes := r.module.executionModes ++ [i] } }
  else if i.op ∈ [opDecorate, opMemberDecorate, opDecorateId] then
    .ok { r with module := { r.module with annotations := r.module.annotations ++ [i] } }
  else if i.op = opFunction then
    let f : Function :=
      ⟨i.result, i.type, ((i.operands[1]?).map (·.value)).getD 0,
        ((i.operands[0]?).map (·.value)).getD 0, [], []⟩
    .ok
      { r with
        module := { r.module with functions := r.module.functions ++ [f] }
        inFunction := true
        inBlock := false }
  else if i.op = opFunctionParameter then
    if !r.inFunction then .error .parameterOutside
    else
      .ok
        { r with
          module := r.module.updateFunction fun f => { f with params := f.params ++ [i] } }
  else if i.op = opFunctionEnd then
    if !r.inFunction then .error .unmatchedEnd
    else .ok { r with inFunction := false, inBlock := false }
  else if i.op = opLabel then
    if !r.inFunction then .error .labelOutside
    else
      .ok
        { r with
          module :=
            r.module.updateFunction fun f => { f with blocks := f.blocks ++ [⟨i.result, []⟩] }
          inBlock := true }
  else if r.inFunction then
    if !r.inBlock then .error .beforeLabel
    else
      .ok
        { r with
          module := r.module.updateFunction fun f =>
            { f with blocks := updateLast (fun b => { b with insts := b.insts ++ [i] }) f.blocks } }
  else
    match recordConst i r.consts with
    | none => .error .undefined
    | some consts =>
      .ok
        { r with
          module := { r.module with globals := r.module.globals ++ [i] }
          consts := consts }

/-- The instruction of `wc` words at `pos`, which lies inside the words. -/
def parseInst (words : List UInt32) (op : UInt32) (pos wc : Nat) (r : Reader) :
    Except ParseError Reader :=
  if isSkipped op then .ok r
  else if op = opExtension then do
    let (ext, _) ← stringAt words op (pos + 1) (pos + wc)
    pure { r with module := r.module.addExtension ext }
  else if op = opExtInstImport then do
    if wc < 3 then throw (.truncatedOp op)
    let id ← word words (pos + 1)
    let (name, _) ← stringAt words op (pos + 2) (pos + wc)
    pure { r with module := { r.module with extImports := r.module.extImports ++ [(id, name)] } }
  else if op = opEntryPoint then do
    if wc < 4 then throw (.truncatedOp op)
    let model ← word words (pos + 1)
    let function ← word words (pos + 2)
    let (name, p) ← stringAt words op (pos + 3) (pos + wc)
    let interfaceIds ← subspan words p (pos + wc - p)
    pure { r with module := r.module.addEntryPoint model function name interfaceIds }
  else if op = opName then do
    if wc < 3 then throw (.truncatedOp op)
    let target ← word words (pos + 1)
    let (name, _) ← stringAt words op (pos + 2) (pos + wc)
    pure { r with module := r.module.setName target name }
  else do
    let i ← instAt words op pos wc
    placeInst r i

/-- The loop over the words from `pos`, at most the first number of instructions. -/
def parseLoop (words : List UInt32) : Nat → Nat → Reader → Except ParseError Reader
  | 0, pos, r => if pos < words.length then .error .outOfFuel else .ok r
  | n + 1, pos, r =>
    if pos < words.length then
      match word words pos with
      | .error e => .error e
      | .ok w0 =>
        let wc := (w0 >>> wordCountShift).toNat
        let op := w0 &&& opCodeMask
        if wc = 0 then .error (.zeroWordCount pos)
        else if words.length < pos + wc then .error (.truncated pos)
        else
          match parseInst words op pos wc r with
          | .error e => .error e
          | .ok r => parseLoop words n (pos + wc) r
    else .ok r

def Reader.start (version bound : UInt32) : Reader :=
  ⟨.ofBinary version bound, false, false, fun _ => none⟩

def supportedVersion (version : UInt32) : Bool :=
  !(version < 0x00010000 || version > 0x00010600 || (version &&& 0xFF0000FF) != 0)

def parseBinary (words : List UInt32) : Except ParseError Module :=
  match words with
  | magic :: version :: _ :: bound :: schema :: _ =>
    if magic ≠ magicNumber then .error .badMagic
    else if !supportedVersion version then .error .badVersion
    else if bound = 0 then .error .zeroBound
    else if schema ≠ 0 then .error .badSchema
    else
      match parseLoop words words.length 5 (.start version bound) with
      | .error e => .error e
      | .ok r => if r.inFunction then .error .unterminated else .ok r.module
  | _ => .error .tooShort

end Brass.Spirv
