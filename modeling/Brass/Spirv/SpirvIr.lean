import Brass.Spirv.Opcode

/-!
# SPIR-V modules and their binary form

The data of `spirv::Module` (`spirv_ir.hpp`) and the writer of `spirv_ir.cpp`. A module is
its sections: the tables from which the Module API interns types and constants, the MIR
origin of an instruction and the name and interface that a function carries beside the
sections are not written, and are left out. A string is its bytes.
-/

namespace Brass.Spirv

inductive Kind where
  | id
  | literal
  deriving DecidableEq, Repr

structure Operand where
  kind : Kind
  value : UInt32
  deriving DecidableEq, Repr

/-- `type` and `result` are 0 when the opcode has none. -/
structure Inst where
  op : UInt32
  type : UInt32
  result : UInt32
  operands : List Operand
  deriving DecidableEq, Repr

structure Block where
  label : UInt32
  insts : List Inst
  deriving DecidableEq, Repr

structure Function where
  id : UInt32
  returnType : UInt32
  fnType : UInt32
  control : UInt32
  params : List Inst
  blocks : List Block
  deriving DecidableEq, Repr

structure EntryPoint where
  model : UInt32
  function : UInt32
  name : List UInt8
  interfaceIds : List UInt32
  deriving DecidableEq, Repr

structure Module where
  version : UInt32
  bound : UInt32
  capabilities : List UInt32
  extensions : List (List UInt8)
  extImports : List (UInt32 × List UInt8)
  addressing : UInt32
  memoryModel : UInt32
  entryPoints : List EntryPoint
  executionModes : List Inst
  names : List (UInt32 × List UInt8)
  annotations : List Inst
  globals : List Inst
  functions : List Function
  deriving DecidableEq, Repr

def addressingModelLogical : UInt32 := 0

def memoryModelGLSL450 : UInt32 := 1

/-! ## The Module API -/

def Module.ofBinary (version bound : UInt32) : Module :=
  { version := version
    bound := bound
    capabilities := []
    extensions := []
    extImports := []
    addressing := addressingModelLogical
    memoryModel := memoryModelGLSL450
    entryPoints := []
    executionModes := []
    names := []
    annotations := []
    globals := []
    functions := [] }

def Module.addCapability (m : Module) (c : UInt32) : Module :=
  if c ∈ m.capabilities then m else { m with capabilities := m.capabilities ++ [c] }

def Module.addExtension (m : Module) (name : List UInt8) : Module :=
  if name ∈ m.extensions then m else { m with extensions := m.extensions ++ [name] }

def Module.setMemoryModel (m : Module) (a memory : UInt32) : Module :=
  { m with addressing := a, memoryModel := memory }

def Module.addEntryPoint (m : Module) (model function : UInt32) (name : List UInt8)
    (interfaceIds : List UInt32) : Module :=
  { m with entryPoints := m.entryPoints ++ [⟨model, function, name, interfaceIds⟩] }

def Module.setName (m : Module) (target : UInt32) (name : List UInt8) : Module :=
  { m with names := m.names ++ [(target, name)] }

/-! ## The writer -/

def magicNumber : UInt32 := 0x07230203

def wordCountShift : UInt32 := 16

def opCodeMask : UInt32 := 0xffff

/-- The word that four bytes are in memory, the first one lowest. -/
def packWord (a b c d : UInt8) : UInt32 :=
  a.toUInt32 ||| (b.toUInt32 <<< 8) ||| (c.toUInt32 <<< 16) ||| (d.toUInt32 <<< 24)

/-- `push_string`: the bytes, nul-terminated and padded to whole words. -/
def stringWords : List UInt8 → List UInt32
  | a :: b :: c :: d :: rest => packWord a b c d :: stringWords rest
  | [a, b, c] => [packWord a b c 0]
  | [a, b] => [packWord a b 0 0]
  | [a] => [packWord a 0 0 0]
  | [] => [0]

/-- The first word of an instruction, `(count << WordCountShift) | op`. -/
def headWord (op : UInt32) (body : List UInt32) : UInt32 :=
  (UInt32.ofNat (body.length + 1) <<< wordCountShift) ||| op

def encodeWords (op : UInt32) (body : List UInt32) : List UInt32 := headWord op body :: body

/-- A result type or a result id, which is not written when it is 0. -/
def optionalWord (v : UInt32) : List UInt32 := if v = 0 then [] else [v]

/-- The words of an instruction after the first. -/
def Inst.body (i : Inst) : List UInt32 :=
  optionalWord i.type ++ optionalWord i.result ++ i.operands.map (·.value)

def encode (i : Inst) : List UInt32 := encodeWords i.op i.body

def encodeWithString (op : UInt32) (head : List UInt32) (s : List UInt8) (tail : List UInt32) :
    List UInt32 := encodeWords op (head ++ stringWords s ++ tail)

def lit (v : UInt32) : Operand := ⟨.literal, v⟩

def ref (v : UInt32) : Operand := ⟨.id, v⟩

def Function.head (f : Function) : Inst :=
  ⟨opFunction, f.returnType, f.id, [lit f.control, ref f.fnType]⟩

def encodeBlock (b : Block) : List UInt32 :=
  encode ⟨opLabel, 0, b.label, []⟩ ++ b.insts.flatMap encode

def encodeFunction (f : Function) : List UInt32 :=
  encode f.head ++ f.params.flatMap encode ++ f.blocks.flatMap encodeBlock ++
    encode ⟨opFunctionEnd, 0, 0, []⟩

def write (m : Module) : List UInt32 :=
  [magicNumber, m.version, 0, m.bound, 0] ++
    m.capabilities.flatMap (fun c => encode ⟨opCapability, 0, 0, [lit c]⟩) ++
    m.extensions.flatMap (fun e => encodeWithString opExtension [] e []) ++
    m.extImports.flatMap (fun imp => encodeWithString opExtInstImport [imp.1] imp.2 []) ++
    encode ⟨opMemoryModel, 0, 0, [lit m.addressing, lit m.memoryModel]⟩ ++
    m.entryPoints.flatMap (fun ep =>
      encodeWithString opEntryPoint [ep.model, ep.function] ep.name ep.interfaceIds) ++
    m.executionModes.flatMap encode ++
    m.names.flatMap (fun n => encodeWithString opName [n.1] n.2 []) ++
    m.annotations.flatMap encode ++
    m.globals.flatMap encode ++
    m.functions.flatMap encodeFunction

end Brass.Spirv
