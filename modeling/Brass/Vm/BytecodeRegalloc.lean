import Brass.Util.Liveness
import Brass.Util.Search
import Mathlib.Data.List.Sort

/-!
# Register allocation for the bytecode compiler

`build_block_layout`, `allocate_bytecode_registers` and `is_gc_safepoint` of
`vm/bytecode_regalloc.cpp`. A block is named by its place in the function, with the entry block
at place 0, and a value by its id. Positions number the start of every block and every
instruction in layout order.
-/

namespace Brass.Vm.BytecodeRegalloc

open Brass.Util

inductive TypeKind
  | i8
  | i16
  | i32
  | i64
  | f32
  | f64
  | ptr
  | gcRef
  | void
  | vector (lanes : Nat) (of64 : Bool) (isFloat : Bool)
  | tagged
  deriving DecidableEq, Repr

/-- The opcodes that the allocation asks for. -/
inductive Opcode
  | call
  | patchableCall
  | callIndirect
  | invoke
  | safepoint
  | guard
  | other
  deriving DecidableEq, Repr

/-- Whether a collection may run while a frame is stopped there. -/
def isGcSafepoint : Opcode → Bool
  | .call | .patchableCall | .callIndirect | .invoke | .safepoint => true
  | .guard | .other => false

structure BranchTarget where
  block : Nat
  args : List Nat
  deriving DecidableEq, Repr

/-- An instruction; its targets are those that `for_each_branch_target` visits. A guard may have
an exit stub, a function to call when it fails. -/
structure Instruction where
  opcode : Opcode := .other
  result : Option Nat := none
  operands : List Nat := []
  stateMap : List Nat := []
  targets : List BranchTarget := []
  resumeId : Nat := 0
  exitStub : Bool := false
  deriving DecidableEq, Repr, Inhabited

structure BasicBlock where
  params : List Nat := []
  insts : List Instruction := []
  deriving DecidableEq, Repr, Inhabited

/-- A function; `paramTypes` stands for the parameters of one without blocks. -/
structure Function where
  name : String
  blocks : List BasicBlock
  ty : Nat → TypeKind
  paramTypes : List TypeKind := []
  resumePoints : List (Nat × Nat) := []

namespace Function

variable (fn : Function)

def block (b : Nat) : BasicBlock := fn.blocks.getD b default

/-- The first entry of the resume table for an id. -/
def resumeTarget (id : Nat) : Option Nat :=
  (fn.resumePoints.find? fun p => p.1 == id).map (·.2)

def resumeOf (inst : Instruction) : Option Nat :=
  if inst.opcode = .guard then fn.resumeTarget inst.resumeId else none

/-- Only a block's terminator branches, and only a guard adds an edge of its own. -/
def edgesOf (inst : Instruction) : List Nat :=
  inst.targets.map (·.block) ++ (fn.resumeOf inst).toList

end Function

/-! ## The layout of the blocks -/

structure BlockLayout where
  succs : List (List Nat)
  preds : List (List Nat)
  deriving DecidableEq, Repr

namespace BlockLayout

def succsOf (layout : BlockLayout) (b : Nat) : List Nat := layout.succs.getD b []

def predsOf (layout : BlockLayout) (b : Nat) : List Nat := layout.preds.getD b []

end BlockLayout

def addEdge (s : List Nat) (t : Nat) : List Nat := if t ∈ s then s else s ++ [t]

section Layout

variable (fn : Function)

def blockSuccs (b : Nat) : List Nat := ((fn.block b).insts.flatMap fn.edgesOf).foldl addEdge []

def buildBlockLayout : Except String BlockLayout :=
  let n := fn.blocks.length
  if (List.range n).all fun b => (blockSuccs fn b).all (· < n) then
    .ok
      { succs := (List.range n).map (blockSuccs fn)
        preds := (List.range n).map fun t => (List.range n).filter fun b => t ∈ blockSuccs fn b }
  else .error s!"Function @{fn.name}: branch to a block that is not in the function"

/-! ## Positions, definitions and uses -/

def blockStart : Nat → Nat
  | 0 => 0
  | b + 1 => blockStart b + (fn.block b).insts.length + 1

def blockEnd (b : Nat) : Nat := blockStart fn b + (fn.block b).insts.length

/-- A value with its definition and the hull of the positions where it is live. -/
structure ValueInfo where
  value : Nat := 0
  defBlock : Nat := 0
  defPos : Nat := 0
  lo : Nat := 0
  hi : Nat := 0
  fixedReg : Option Nat := none
  deriving DecidableEq, Repr, Inhabited

def define (value block pos : Nat) (fixed : Option Nat) : ValueInfo :=
  { value, defBlock := block, defPos := pos, lo := pos, hi := pos, fixedReg := fixed }

/-- The parameters of a block are defined at its start; those of the entry block are in the
registers of the arguments. -/
def paramInfos (b : Nat) : List ValueInfo :=
  (fn.block b).params.zipIdx.map fun (v, p) =>
    define v b (blockStart fn b) (if b = 0 then some p else none)

def resultInfos (b : Nat) : List ValueInfo :=
  (fn.block b).insts.zipIdx.filterMap fun (inst, k) =>
    inst.result.map fun v => define v b (blockStart fn b + 1 + k) none

def definitions : List ValueInfo :=
  (List.range fn.blocks.length).flatMap fun b => paramInfos fn b ++ resultInfos fn b

/-- What an instruction reads: its operands, its state map and the arguments of its edges. -/
def readsOf (inst : Instruction) : List Nat :=
  inst.operands ++ inst.stateMap ++ inst.targets.flatMap (·.args)

structure Use where
  value : Nat
  block : Nat
  pos : Nat
  deriving DecidableEq, Repr

def blockUses (b : Nat) : List Use :=
  (fn.block b).insts.zipIdx.flatMap fun (inst, k) =>
    (readsOf inst).map fun v => ⟨v, b, blockStart fn b + 1 + k⟩

def uses : List Use := (List.range fn.blocks.length).flatMap (blockUses fn)

/-! ## Hulls -/

variable (layout : BlockLayout)

/-- The blocks other than the defining one where the value is used, the last one first. -/
def crossUses (info : ValueInfo) : List Nat :=
  ((List.range fn.blocks.length).filter fun b =>
    b ≠ info.defBlock ∧ (blockUses fn b).any (·.value == info.value)).reverse

/-- The walk back from the uses to the definition: the blocks that the value is live into. -/
def liveIn (info : ValueInfo) : List Nat :=
  Search.search (fun b => (layout.predsOf b).filter (· ≠ info.defBlock))
    (fun new todo => new.reverse ++ todo) fn.blocks.length (crossUses fn info) (crossUses fn info)

/-- The blocks that the value is live out of. -/
def liveOut (info : ValueInfo) : List Nat :=
  ((liveIn fn layout info).flatMap layout.predsOf).dedup

def ValueInfo.touch (info : ValueInfo) (pos : Nat) : ValueInfo :=
  { info with lo := min info.lo pos, hi := max info.hi pos }

/-- The positions that the hull takes in besides the definition. -/
def touched (info : ValueInfo) : List Nat :=
  ((uses fn).filter (·.value == info.value)).map (·.pos) ++
    (liveIn fn layout info).flatMap fun b =>
      blockStart fn b :: (layout.predsOf b).map (blockEnd fn)

def withHull (info : ValueInfo) : ValueInfo :=
  (touched fn layout info).foldl ValueInfo.touch info

def valueInfos : List ValueInfo := (definitions fn).map (withHull fn layout)

end Layout

/-! ## The scan -/

def kMaxBytecodeRegisters : Nat := 0xFFFF

/-- The state of the scan. `active` holds the hull's end and the index of every value that has
its register, the first end first; free registers are kept for each type, the last one freed
first. -/
structure Scan where
  active : List (Nat × Nat) := []
  freeRegs : TypeKind → List Nat := fun _ => []
  registerTypes : List TypeKind := []
  assigned : Nat → Nat := fun _ => 0

section Scan

variable (fn : Function) (values : List ValueInfo)

def infoAt (i : Nat) : ValueInfo := values.getD i default

def typeOf (i : Nat) : TypeKind := fn.ty (infoAt values i).value

def activeBefore (a b : Nat × Nat) : Prop := a.1 < b.1 ∨ (a.1 = b.1 ∧ a.2 ≤ b.2)

instance : DecidableRel activeBefore := fun _ _ => inferInstanceAs (Decidable (_ ∨ _))

def freeReg (s : Scan) (free : TypeKind → List Nat) (i : Nat) : TypeKind → List Nat :=
  Function.update free (typeOf fn values i) (s.assigned i :: free (typeOf fn values i))

/-- The registers of the values whose hull has ended are free. -/
def expire (s : Scan) (lo : Nat) : Scan :=
  { s with
    active := s.active.dropWhile (·.1 < lo)
    freeRegs := ((s.active.takeWhile (·.1 < lo)).map (·.2)).foldl (freeReg fn values s) s.freeRegs }

def fresh (s : Scan) (t : TypeKind) : Except String (Nat × Scan) :=
  if kMaxBytecodeRegisters - 2 ≤ s.registerTypes.length then
    .error (s!"Function @{fn.name} needs more than {kMaxBytecodeRegisters - 2}" ++
      " simultaneously live bytecode registers")
  else .ok (s.registerTypes.length, { s with registerTypes := s.registerTypes ++ [t] })

def occupy (s : Scan) (i r : Nat) : Scan :=
  { s with
    assigned := Function.update s.assigned i r
    active := s.active.orderedInsert activeBefore ((infoAt values i).hi, i) }

def assign (s : Scan) (i : Nat) : Except String Scan :=
  let s := expire fn values s (infoAt values i).lo
  match (infoAt values i).fixedReg with
  | some r => .ok (occupy values s i r)
  | none =>
    match s.freeRegs (typeOf fn values i) with
    | r :: rest =>
      .ok (occupy values
        { s with freeRegs := Function.update s.freeRegs (typeOf fn values i) rest } i r)
    | [] => (fresh fn s (typeOf fn values i)).map fun (r, s) => occupy values s i r

/-- The entry parameters hold the arguments in the first registers. -/
def reserveParams : List TypeKind → Scan → Except String Scan
  | [], s => .ok s
  | t :: types, s => (fresh fn s t).bind fun (_, s) => reserveParams types s

def entryTypes : List TypeKind :=
  match fn.blocks with
  | [] => fn.paramTypes
  | entry :: _ => entry.params.map fn.ty

def startsBefore (a b : Nat) : Prop := (infoAt values a).lo ≤ (infoAt values b).lo

instance : DecidableRel (startsBefore values) := fun _ _ => inferInstanceAs (Decidable (_ ≤ _))

/-- The values by the start of their hulls. -/
def scanOrder : List Nat := (List.range values.length).insertionSort (startsBefore values)

def scan : Except String Scan :=
  (reserveParams fn (entryTypes fn) {}).bind fun s => (scanOrder values).foldlM (assign fn values) s

end Scan

/-! ## The live sets of safepoints -/

section LiveSets

variable (fn : Function) (layout : BlockLayout) (values : List ValueInfo)

/-- The last use of a value in a block. -/
def lastUse (b i : Nat) : Option Nat :=
  (((blockUses fn b).filter (·.value == (infoAt values i).value)).map (·.pos)).getLast?

/-- The values that may be live at a safepoint of the block: those it reads, and those live into
it or out of it. -/
def candidates (b : Nat) : List Nat :=
  (List.range values.length).filter fun i =>
    (lastUse fn values b i).isSome ∨ b ∈ liveIn fn layout (infoAt values i) ∨
      b ∈ liveOut fn layout (infoAt values i)

/-- Whether a candidate is live at the safepoint at `pos`: written in this block before its live
part begins, or live into it; live to the block's end, or to its last use here. -/
def liveAt (b pos i : Nat) : Bool :=
  let v := infoAt values i
  let isIn : Bool := b ∈ liveIn fn layout v
  let isOut : Bool := b ∈ liveOut fn layout v
  let start := if isIn then blockStart fn b else v.defPos
  let stop := if isOut then blockEnd fn b else (lastUse fn values b i).getD start
  (isIn || v.defBlock == b) && decide (start < pos) && decide (pos ≤ stop)

/-- The registers live at a safepoint, in order. -/
def liveRegs (assigned : Nat → Nat) (b pos : Nat) : List Nat :=
  (((candidates fn layout values b).filter (liveAt fn layout values b pos)).map
    assigned).insertionSort (· ≤ ·)

def safepoints : List (Nat × Nat) :=
  (List.range fn.blocks.length).flatMap fun b =>
    ((fn.block b).insts.zipIdx.filter fun (inst, _) => isGcSafepoint inst.opcode).map
      fun (_, k) => (b, k)

end LiveSets

structure RegisterAssignment where
  reg : Nat → Option Nat
  registerTypes : List TypeKind
  numValues : Nat
  liveAtSafepoint : List ((Nat × Nat) × List Nat)

/-- The live set of the safepoint at a place. -/
def RegisterAssignment.liveAt (out : RegisterAssignment) (place : Nat × Nat) : Option (List Nat) :=
  out.liveAtSafepoint.lookup place

def RegisterAssignment.numRegisters (out : RegisterAssignment) : Nat := out.registerTypes.length

section Allocate

variable (fn : Function) (layout : BlockLayout)

/-- The first value that is defined a second time. -/
def definedTwice (seen : List Nat) : List Nat → Option Nat
  | [] => none
  | v :: vs => if v ∈ seen then some v else definedTwice (v :: seen) vs

def indexOf (values : List ValueInfo) (v : Nat) : Option Nat :=
  values.findIdx? (·.value == v)

def allocateBytecodeRegisters : Except String RegisterAssignment :=
  let values := valueInfos fn layout
  match definedTwice [] (values.map (·.value)) with
  | some v => .error s!"Function @{fn.name}: value %{v} is defined twice"
  | none =>
    match (uses fn).find? fun u => (indexOf values u.value).isNone with
    | some u => .error s!"Function @{fn.name}: value %{u.value} is used but never defined"
    | none =>
      (scan fn values).map fun s =>
        { reg := fun v => (indexOf values v).map s.assigned
          registerTypes := s.registerTypes
          numValues := values.length
          liveAtSafepoint := (safepoints fn).map fun (b, k) =>
            ((b, k), liveRegs fn layout values s.assigned b (blockStart fn b + 1 + k)) }

end Allocate

end Brass.Vm.BytecodeRegalloc
