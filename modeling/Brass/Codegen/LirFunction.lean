import Brass.Codegen.Lir
import Mathlib.Data.List.Range

/-!
# Functions of the low-level representation

Blocks name each other by their place in the function's list; a label names a block by its
`id`. The instructions are numbered in the order of the blocks, in steps of two
(`assign_instruction_ids`). The fields that the register allocator does not read are left
out.
-/

namespace Brass.Codegen

/-- What the allocator reads of an instruction besides its operands. `0xFFFFFFFF` is no
unwind block. -/
structure LirExtra where
  unwindBlockId : UInt32 := 0xFFFFFFFF
  noGcPoint : Bool := false
  deriving DecidableEq

abbrev Inst := LirInst LirExtra

structure LirBlock where
  id : UInt32
  instructions : List Inst := []
  predecessors : List Nat := []
  successors : List Nat := []

/-- `ids`: the table is filled by `allocate_vreg`. -/
structure LirFunction where
  blocks : List LirBlock
  vregTable : List VReg
  resumeEntries : List (UInt32 × UInt32) := []
  reservedGprs : BitVec 32 := 0
  ids : vregTable.map (fun v => v.id.toNat) = List.range vregTable.length

namespace LirOperand

def vreg? (op : LirOperand) : Option VReg :=
  match op.kind with
  | .vreg v => some v
  | _ => none

def preg? (op : LirOperand) : Option PReg :=
  match op.kind with
  | .preg p => some p
  | _ => none

def mem? (op : LirOperand) : Option LirMem :=
  match op.kind with
  | .mem m => some m
  | _ => none

def label? (op : LirOperand) : Option UInt32 :=
  match op.kind with
  | .label id => some id
  | _ => none

/-- The base and the index of a memory operand. -/
def memVregs (op : LirOperand) : List VReg :=
  match op.mem? with
  | some m => [m.baseVreg, m.indexVreg]
  | none => []

def readVregs (op : LirOperand) : List VReg := op.vreg?.toList ++ op.memVregs

end LirOperand

namespace LirInst

def usesLabel (inst : Inst) (id : UInt32) : Bool := inst.uses.any (fun u => u.label? == some id)

def namesLabel (inst : Inst) (id : UInt32) : Bool :=
  inst.usesLabel id || inst.defs.any (fun d => d.label? == some id)

def defConstraint (inst : Inst) (i : Nat) : FixedConstraint := inst.defConstraints.getD i {}

def useConstraint (inst : Inst) (i : Nat) : FixedConstraint := inst.useConstraints.getD i {}

end LirInst

namespace LirFunction

variable (fn : LirFunction)

def block (b : Nat) : LirBlock := fn.blocks.getD b { id := 0xFFFFFFFF }

/-- `bl.start_id` of the blocks in order. -/
def startIds : Nat → List LirBlock → List Nat
  | _, [] => []
  | id, b :: bs => id :: startIds (id + 2 * b.instructions.length) bs

def startId (b : Nat) : Nat := (startIds 0 fn.blocks).getD b 0

/-- `bl.end_id` -/
def endId (b : Nat) : Nat := fn.startId b + 2 * (fn.block b).instructions.length - 2

def numbered (b : Nat) : List (Nat × Inst) :=
  (fn.block b).instructions.mapIdx (fun i inst => (fn.startId b + 2 * i, inst))

def allNumbered : List (Nat × Inst) := (List.range fn.blocks.length).flatMap fn.numbered

def instCount : Nat := (fn.blocks.map (fun b => b.instructions.length)).sum

def known (v : VReg) : Option Nat :=
  if v.isValid && v.id.toNat < fn.vregTable.length then some v.id.toNat else none

end LirFunction

/-- What the allocator asks of the calling convention: the target and the registers a callee
saves. -/
structure CallingConv where
  arch : Arch
  isMacos : Bool := false
  isWindows : Bool := false
  calleeSavedGprs : BitVec 32
  calleeSavedXmms : BitVec 32

end Brass.Codegen
