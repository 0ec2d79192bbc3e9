import Brass.Codegen.LirFunction

/-!
# Register constraints

The pools of registers the allocator hands out and the instructions that block a register
for a value live across them (`codegen/linear_scan.cpp`): clobbers, registers held between a
write and a read (`computeHeldPregs`), the caller-saved registers at calls, and the
registers that operands name. Sets of registers are 32-bit masks, a register's bit being its
code.
-/

namespace Brass.Codegen

def regBit (r : Nat) : BitVec 32 := 1#32 <<< r

def PReg.gpr (code : UInt8) : PReg := { regClass := .gpr, code := code }

def PReg.xmm (code : UInt8) : PReg := { regClass := .xmm, code := code }

/-! ## Register pools -/

/-- `available_gprs_` -/
def availableGprs (cc : CallingConv) (reserved : BitVec 32) : List PReg :=
  match cc.arch with
  | .aarch64 =>
    [0, 1, 2, 3, 4, 5, 6, 7, 8, 9, 10, 11].map PReg.gpr ++
      (if !cc.isMacos && !cc.isWindows then [PReg.gpr 18] else []) ++
      (([19, 20, 21, 22, 23, 24, 25, 26, 27, 28] : List UInt8).filter
        (fun r => !reserved.getLsbD r.toNat)).map PReg.gpr
  | .x64 =>
    -- RAX, RCX, RDX, R8, R9, RBX, RSI, RDI, R12, R13, R14, R15
    (([0, 1, 2, 8, 9, 3, 6, 7, 12, 13, 14, 15] : List UInt8).filter
      (fun r => !reserved.getLsbD r.toNat)).map PReg.gpr

/-- `available_xmms_` -/
def availableXmms (cc : CallingConv) : List PReg :=
  match cc.arch with
  | .aarch64 =>
    [0, 1, 2, 3, 4, 5, 6, 7, 16, 17, 18, 19, 20, 21, 22, 23, 24, 25, 8, 9, 10, 11, 12, 13, 14,
      15].map PReg.xmm
  | .x64 => [0, 1, 2, 3, 4, 5, 6, 7, 8, 9, 10, 11].map PReg.xmm

def CallingConv.pool (cc : CallingConv) (reserved : BitVec 32) : RegClass → List PReg
  | .gpr => availableGprs cc reserved
  | .xmm => availableXmms cc

def CallingConv.calleeSaved (cc : CallingConv) : RegClass → BitVec 32
  | .gpr => cc.calleeSavedGprs
  | .xmm => cc.calleeSavedXmms

/-- The registers of a list with a code below 32. -/
def maskOf (regs : List PReg) : BitVec 32 :=
  regs.foldl (fun m r => if r.code < 32 then m ||| regBit r.code.toNat else m) 0

/-! ## Held registers -/

structure InstConstraints where
  clobberedGprs : BitVec 32 := 0
  clobberedXmms : BitVec 32 := 0
  deriving DecidableEq

/-- The place of a register in the tables of the scan. -/
def PReg.place (p : PReg) : Option Nat :=
  if p.isValid && p.code < 32 then
    some (match p.regClass with
      | .gpr => p.code.toNat
      | .xmm => 32 + p.code.toNat)
  else none

def InstConstraints.mark (c : InstConstraints) (k : Nat) : InstConstraints :=
  if k < 32 then { c with clobberedGprs := c.clobberedGprs ||| regBit k }
  else { c with clobberedXmms := c.clobberedXmms ||| regBit (k - 32) }

/-- `openDef`: the instruction whose write opened the current value of a register; `markedTo`:
the last instruction already marked. -/
structure HeldScan where
  openDef : List (Option Nat) := List.replicate 64 none
  markedTo : List (Option Nat) := List.replicate 64 none
  out : List InstConstraints

/-- `xor r, r` names `r` as a use but does not read its value. -/
def isZeroingIdiom (inst : Inst) : Bool :=
  match inst.opcode with
  | .xor | .xor32 | .xorpd | .xorps | .pxor =>
    match inst.uses.map LirOperand.preg? with
    | [some a, some b] => a == b
    | _ => false
  | _ => false

namespace HeldScan

/-- Instruction `i` reads the register `p`. -/
def read (i : Nat) (st : HeldScan) (p : PReg) : HeldScan :=
  match p.place with
  | none => st
  | some k =>
    match st.openDef.getD k none with
    | none => st
    | some o =>
      let first := max o ((st.markedTo.getD k none).getD 0) + 1
      { st with
        out := st.out.mapIdx (fun j c => if first ≤ j ∧ j < i then c.mark k else c)
        markedTo := st.markedTo.set k (some (max ((st.markedTo.getD k none).getD 0) i)) }

/-- Instruction `i` writes the register of an operand. An 8- or 16-bit write keeps the rest of
the register, so the value it merges into stays open. -/
def write (i : Nat) (st : HeldScan) (d : LirOperand) : HeldScan :=
  match d.preg?.bind PReg.place with
  | none => st
  | some k =>
    if d.size < 4 ∧ st.openDef.getD k none ≠ none then st
    else { st with openDef := st.openDef.set k (some i), markedTo := st.markedTo.set k (some i) }

/-- A clobber ends whatever value the register held. -/
def clobber (i : Nat) (inst : Inst) (st : HeldScan) : HeldScan :=
  { st with
    openDef := st.openDef.mapIdx (fun k o =>
      let clob := if k < 32 then inst.clobberedGprs.toBitVec.getLsbD k
        else inst.clobberedXmms.toBitVec.getLsbD (k - 32)
      if clob = true ∧ o ≠ some i then none else o) }

def step (st : HeldScan) (e : Inst × Nat) : HeldScan :=
  let (inst, i) := e
  let st := if isZeroingIdiom inst then st
    else (inst.uses.filterMap LirOperand.preg?).foldl (read i) st
  (inst.defs.foldl (write i) st).clobber i inst

end HeldScan

/-- `compute_held_pregs`: per instruction the registers held across it. -/
def computeHeldPregs (instructions : List Inst) : List InstConstraints :=
  (instructions.zipIdx.foldl HeldScan.step
    { out := instructions.map (fun _ => {}) }).out

/-! ## The constraint index -/

structure ConstraintWord where
  clob : BitVec 32 := 0
  pin : BitVec 32 := 0
  call : BitVec 32 := 0
  deriving DecidableEq

/-- A physical register operand pins that register; otherwise a fixed constraint does. -/
def pinnedBy (op : LirOperand) (fc : FixedConstraint) : Option PReg :=
  let reg := match op.preg? with
    | some p => some p
    | none => if fc.hasFixedPreg then some fc.fixedPreg else none
  reg.filter (fun p => p.isValid && p.code < 32)

/-- The registers that the operands of an instruction pin. -/
def pinnedRegs (inst : Inst) : List PReg :=
  (inst.defs.zipIdx.filterMap (fun d => pinnedBy d.1 (inst.defConstraint d.2))) ++
    (inst.uses.zipIdx.filterMap (fun u => pinnedBy u.1 (inst.useConstraint u.2)))

/-- The general registers that an operand may need reloaded. -/
def scratchCount (op : LirOperand) : Nat :=
  match op.vreg? with
  | some v => if v.isValid && v.regClass == .gpr then 1 else 0
  | none => (op.memVregs.filter VReg.isValid).length

/-- x64: R15 where an instruction has three general register operands that the rewrite may
have to reload, R14 where it has four. -/
def rewriteScratches (arch : Arch) (inst : Inst) : BitVec 32 :=
  match arch with
  | .aarch64 => 0
  | .x64 =>
    match inst.opcode with
    | .safepoint | .parallelCopy | .keepAlive | .guardExit => 0
    | _ =>
      let n := ((inst.defs ++ inst.uses).map scratchCount).sum
      (if n ≥ 3 then regBit 15 else 0) ||| (if n ≥ 4 then regBit 14 else 0)

/-- The word of one instruction for a register class, unless nothing is constrained. -/
def constraintWord (cc : CallingConv) (reserved : BitVec 32) (cls : RegClass) (inst : Inst)
    (held : InstConstraints) : Option ConstraintWord :=
  let isCall := inst.isCall || inst.opcode == .safepoint
  let pool := cc.pool reserved cls
  let callerSaved := maskOf (pool.filter (fun r => !(cc.calleeSaved cls).getLsbD r.code.toNat))
  let clobbered := match cls with
    | .gpr => inst.clobberedGprs.toBitVec ||| held.clobberedGprs
    | .xmm => inst.clobberedXmms.toBitVec ||| held.clobberedXmms
  let scratch := match cls with
    | .gpr => rewriteScratches cc.arch inst
    | .xmm => 0
  let blocked := clobbered ||| (if isCall then callerSaved else 0) ||| scratch
  let pinned := maskOf ((pinnedRegs inst).filter (fun p => p.regClass == cls))
  if blocked = 0 ∧ pinned = 0 ∧ isCall = false then none
  else some ⟨blocked, pinned, if isCall then BitVec.allOnes 32 else 0⟩

/-- `constrained_ids_` and `constraint_words_` -/
def constraintIndex (cc : CallingConv) (fn : LirFunction) (cls : RegClass) :
    List (Nat × ConstraintWord) :=
  (List.range fn.blocks.length).flatMap (fun b =>
    ((fn.numbered b).zip (computeHeldPregs (fn.block b).instructions)).filterMap (fun e =>
      (constraintWord cc fn.reservedGprs cls e.1.2 e.2).map (fun w => (e.1.1, w))))

def memIndexVregs (fn : LirFunction) : List Nat :=
  (fn.allNumbered.flatMap (fun i => (i.2.defs ++ i.2.uses).filterMap (fun op =>
    op.mem?.bind (fun m => fn.known m.indexVreg)))).dedup

end Brass.Codegen
