import Mathlib.Tactic.Ring

/-!
# The low-level intermediate representation

Operands, instructions and the tables the scheduler asks: what an instruction does to the
condition flags on each target, how long it takes, whether it reads or writes memory and
whether it is a call, a terminator or a scheduling barrier. The fields of an instruction
that none of these read (condition code, symbols, ids, debug location) are one type
parameter.
-/

namespace Brass.Codegen

inductive Arch
  | x64
  | aarch64
  deriving DecidableEq, Repr

inductive RegClass
  | gpr
  | xmm
  deriving DecidableEq, Repr

/-- A virtual register; `invalid` is the identifier of none. -/
structure VReg where
  id : UInt32 := 0xFFFFFFFF
  regClass : RegClass := .gpr
  size : UInt8 := 8
  isGcref : Bool := false
  isTagged : Bool := false
  deriving DecidableEq, Repr

namespace VReg

def invalid : UInt32 := 0xFFFFFFFF

def isValid (v : VReg) : Bool := v.id != invalid

def isXmm (v : VReg) : Bool := v.regClass == .xmm

end VReg

/-- A physical register: its class and its number on the target. -/
structure PReg where
  regClass : RegClass := .gpr
  code : UInt8 := 0xFF
  deriving DecidableEq, Repr

namespace PReg

def invalid : UInt8 := 0xFF

def isValid (p : PReg) : Bool := p.code != invalid

def isXmm (p : PReg) : Bool := p.regClass == .xmm && p.isValid

/-- The index `(reg_class << 8) | code` of the register tables. -/
def key (p : PReg) : Nat :=
  match p.regClass with
  | .gpr => p.code.toNat
  | .xmm => 256 + p.code.toNat

/-- `PReg::gpr(x64::GPR::RBP)`: general register number 5. -/
def rbp : PReg := { regClass := .gpr, code := 5 }

end PReg

inductive Scale
  | one
  | two
  | four
  | eight
  deriving DecidableEq, Repr

def scaleValue : Scale → Nat
  | .one => 1
  | .two => 2
  | .four => 4
  | .eight => 8

/-- A memory operand. A base, like an index, is virtual or physical: what sets the physical
register of an operand resets the virtual one. -/
structure LirMem where
  baseVreg : VReg := {}
  basePreg : PReg := {}
  indexVreg : VReg := {}
  indexPreg : PReg := {}
  scale : Scale := .one
  disp : Int32 := 0
  oneBase : baseVreg.isValid = true → basePreg.isValid = false := by decide
  oneIndex : indexVreg.isValid = true → indexPreg.isValid = false := by decide
  deriving DecidableEq

namespace LirMem

def hasBase (m : LirMem) : Bool := m.baseVreg.isValid || m.basePreg.isValid

def hasIndex (m : LirMem) : Bool := m.indexVreg.isValid || m.indexPreg.isValid

end LirMem

/-- The kinds of operand with the field each one uses. -/
inductive LirOperandKind
  | none
  | vreg (v : VReg)
  | preg (p : PReg)
  | immInt (v : Int64)
  | immFloat (bits : UInt64)
  | mem (m : LirMem)
  | spillSlot (slot : Int32)
  | localSlot (offset : Int32)
  | label (id : UInt32)
  | symbol (name : String)
  | condition (cond : UInt8)
  deriving DecidableEq

structure LirOperand where
  kind : LirOperandKind
  size : UInt8 := 8
  deriving DecidableEq

namespace LirOperand

def isMem (op : LirOperand) : Bool :=
  match op.kind with
  | .mem _ => true
  | _ => false

def isSpillSlot (op : LirOperand) : Bool :=
  match op.kind with
  | .spillSlot _ => true
  | _ => false

/-- `operand_reads_memory` and `operand_writes_memory`, which are the same test. -/
def accessesMemory (op : LirOperand) : Bool := op.isMem || op.isSpillSlot

end LirOperand

inductive LirOpcode
  | nop | keepAlive | mov | mov32 | movabs | movsx8 | movsx16 | movsxd | movzx8 | movzx16 | add
  | add32 | adds | adds32 | sub | sub32 | subs | subs32 | imul | imul32 | smulh | umulh | idiv
  | idiv32 | div | div32 | cdq | cqo | and | and32 | or | or32 | xor | xor32 | not | not32
  | neg | neg32 | shl | shl32 | shr | shr32 | sar | sar32 | popcnt | popcnt32 | lzcnt | lzcnt32
  | tzcnt | tzcnt32 | bsr | bsr32 | bsf | bsf32 | cmp | cmp32 | test | test32 | setcc | cmovcc
  | movsd | movss | movqGx | movqXg | addsd | addss | subsd | subss | mulsd | mulss | divsd
  | divss | sqrtsd | sqrtss | ucomisd | ucomiss | xorpd | fneg | fneg32 | cvtsi2sd | cvtsi2sd32
  | cvttsd2si | cvttsd2si32 | cvtsi2ss | cvtsi2ss32 | cvttss2si | cvttss2si32 | cvtsd2ss
  | cvtss2sd | floor32 | floor64 | ceil32 | ceil64 | round32 | round64 | fabs32 | fabs64
  | minss | minsd | maxss | maxsd | movaps | movups | movdXg | movdGx | addps | subps | mulps
  | divps | minps | maxps | sqrtps | addpd | subpd | mulpd | divpd | minpd | maxpd | sqrtpd
  | fneg4s | fneg2d | paddd | psubd | pmulld | pminsd | pmaxsd | paddq | psubq | pand | por
  | pxor | pandn | pnot | pcmpeqd | pslld | psllq | shufps | shufpd | pshufd | movddup | pinsrd
  | pextrd | pinsrq | pextrq | insertps | extractps | xorps | vmovaps | vmovups | vaddps
  | vsubps | vmulps | vdivps | vminps | vmaxps | vaddpd | vsubpd | vmulpd | vdivpd | vminpd
  | vmaxpd | vsqrtps | vsqrtpd | vextractf128 | vinsertf128 | vpaddd | vpsubd | vpmulld
  | vpaddq | vpsubq | vandps | vorps | vxorps | vandpd | vorpd | vxorpd | vpand | vpor | vpxor
  | vbroadcastss | vbroadcastsd | vpbroadcastd | vpbroadcastq | vfmadd213ps | vfmadd231ps
  | vfmadd213pd | vfmadd231pd | vfmadd213ss | vfmadd231ss | vfmadd213sd | vfmadd231sd | vcmpps
  | vcmppd | vpcmpeqd | vpcmpgtd | vpcmpeqq | vpcmpgtq | vpminsd | vpmaxsd | vpsllvd | vpsllvq
  | vpsrlvd | vpsrlvq | vpsravd | vshufps | vblendvps | vblendvpd | vcvtdq2ps | vcvttps2dq
  | vcvtdq2pd | vcvttpd2dq | vcvtps2pd | vcvtpd2ps | vpmovsxdq | vroundps | vroundpd
  | vmovmskps | vmovmskpd | jmp | jcc | call | callIndirect | ret | push | pop | lea
  | parallelCopy | safepoint | writeBarrier | guardExit | trap
  deriving DecidableEq, Repr

structure FixedConstraint where
  hasFixedPreg : Bool := false
  fixedPreg : PReg := {}
  deriving DecidableEq

/-- An instruction; `rest` holds the fields the scheduler does not read. -/
structure LirInst (α : Type) where
  opcode : LirOpcode
  defs : List LirOperand := []
  uses : List LirOperand := []
  defConstraints : List FixedConstraint := []
  useConstraints : List FixedConstraint := []
  clobberedGprs : UInt32 := 0
  clobberedXmms : UInt32 := 0
  isInvoke : Bool := false
  rest : α

namespace LirInst

variable {α : Type}

def isTerminator (inst : LirInst α) : Bool :=
  inst.opcode == .ret || inst.opcode == .jmp || inst.opcode == .jcc ||
    inst.opcode == .guardExit || inst.opcode == .trap

def isCall (inst : LirInst α) : Bool :=
  inst.opcode == .call || inst.opcode == .callIndirect

end LirInst

/-! ## Condition flags -/

inductive FlagEffect
  | none
  | clobbers
  | defines
  deriving DecidableEq, Repr

def x64FlagEffect : LirOpcode → FlagEffect
  | .cmp | .cmp32 | .test | .test32 | .add | .add32 | .sub | .sub32 | .and | .and32 | .or
  | .or32 | .xor | .xor32 | .neg | .neg32 | .ucomisd | .ucomiss => .defines
  | .imul | .imul32 | .smulh | .umulh | .idiv | .idiv32 | .div | .div32 | .shl | .shl32 | .shr
  | .shr32 | .sar | .sar32 | .popcnt | .popcnt32 | .lzcnt | .lzcnt32 | .tzcnt | .tzcnt32 | .bsr
  | .bsr32 | .bsf | .bsf32 | .adds | .adds32 | .subs | .subs32 | .call | .callIndirect
  | .safepoint | .writeBarrier | .guardExit => .clobbers
  | _ => .none

def aarch64FlagEffect : LirOpcode → FlagEffect
  | .cmp | .cmp32 | .test | .test32 | .adds | .adds32 | .subs | .subs32 | .ucomisd | .ucomiss =>
    .defines
  | .call | .callIndirect | .safepoint | .writeBarrier | .guardExit => .clobbers
  | _ => .none

section Tables

variable {α : Type}

def lirFlagEffect (inst : LirInst α) (arch : Arch) : FlagEffect :=
  if inst.isCall then .clobbers
  else
    match arch with
    | .x64 => x64FlagEffect inst.opcode
    | .aarch64 => aarch64FlagEffect inst.opcode

def lirReadsFlags (inst : LirInst α) : Bool :=
  match inst.opcode with
  | .jcc | .setcc | .cmovcc => true
  | _ => false

def lirWritesFlags (inst : LirInst α) (arch : Arch) : Bool :=
  lirFlagEffect inst arch != .none

/-! ## Memory, barriers and latency -/

def instructionReadsMemory (inst : LirInst α) : Bool :=
  inst.uses.any LirOperand.accessesMemory

def instructionWritesMemory (inst : LirInst α) : Bool :=
  inst.defs.any LirOperand.accessesMemory

def isSchedulingBarrier (inst : LirInst α) : Bool :=
  inst.isCall || inst.isTerminator ||
    match inst.opcode with
    | .safepoint | .guardExit | .writeBarrier | .parallelCopy => true
    | _ => false

def opcodeLatency (hasMemLoad : Bool) : LirOpcode → Nat
  | .keepAlive => 0
  | .nop => 1
  | .mov | .mov32 | .movabs | .movsx8 | .movsx16 | .movsxd | .movzx8 | .movzx16 | .lea =>
    if hasMemLoad then 4 else 1
  | .add | .add32 | .sub | .sub32 | .and | .and32 | .or | .or32 | .xor | .xor32 | .not | .not32
  | .neg | .neg32 | .shl | .shl32 | .shr | .shr32 | .sar | .sar32 | .popcnt | .popcnt32
  | .lzcnt | .lzcnt32 | .tzcnt | .tzcnt32 | .bsr | .bsr32 | .bsf | .bsf32 | .cmp | .cmp32
  | .test | .test32 | .setcc => if hasMemLoad then 5 else 1
  | .cmovcc => if hasMemLoad then 5 else 2
  | .imul | .imul32 | .smulh | .umulh => if hasMemLoad then 6 else 3
  | .idiv | .idiv32 | .div | .div32 => if hasMemLoad then 16 else 13
  | .cdq | .cqo => 1
  | .movsd | .movss => if hasMemLoad then 4 else 1
  | .movqGx | .movqXg => 2
  | .addsd | .addss | .subsd | .subss => if hasMemLoad then 6 else 3
  | .mulsd | .mulss => if hasMemLoad then 7 else 4
  | .divsd | .divss => if hasMemLoad then 16 else 13
  | .sqrtsd | .sqrtss => if hasMemLoad then 17 else 14
  | .ucomisd | .ucomiss | .xorpd => if hasMemLoad then 5 else 1
  | .cvtsi2sd | .cvtsi2sd32 | .cvttsd2si | .cvttsd2si32 => if hasMemLoad then 6 else 3
  | .movaps | .movups => if hasMemLoad then 5 else 1
  | .movdXg | .movdGx => 2
  | .addps | .subps | .addpd | .subpd | .minps | .maxps | .minpd | .maxpd =>
    if hasMemLoad then 6 else 3
  | .mulps | .mulpd | .pmulld => if hasMemLoad then 7 else 4
  | .divps | .divpd => if hasMemLoad then 16 else 13
  | .sqrtps | .sqrtpd | .vsqrtps | .vsqrtpd => if hasMemLoad then 17 else 14
  | .paddd | .psubd | .pminsd | .pmaxsd | .paddq | .psubq | .pand | .por | .pxor | .pandn
  | .pcmpeqd | .xorps => if hasMemLoad then 5 else 1
  | .pslld | .psllq | .shufps | .shufpd | .pshufd | .movddup | .pinsrd | .pextrd | .pinsrq
  | .pextrq | .insertps | .extractps => if hasMemLoad then 6 else 2
  | .call | .callIndirect => 5
  | .push | .pop => 2
  | .jmp | .jcc | .ret | .safepoint | .guardExit | .trap | .parallelCopy | .writeBarrier => 1
  | _ => 1

def getInstructionLatency (inst : LirInst α) : Nat :=
  opcodeLatency (instructionReadsMemory inst) inst.opcode

end Tables

end Brass.Codegen
