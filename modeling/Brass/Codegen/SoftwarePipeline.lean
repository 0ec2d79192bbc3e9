import Brass.Codegen.Lir
import Mathlib.Data.List.MinMax

/-!
# Software pipelining

The pass that takes a loop of one block apart: the load of the next iteration is started
before the present one ends. A prologue loads for the first iteration, the kernel computes
with what was loaded and loads again, an epilogue computes once more.

A pointer to a block is the block's id. What a clone copies besides opcode, operands,
constraints and clobbers is one type parameter.
-/

namespace Brass.Codegen.SoftwarePipeline

variable {α : Type}

structure LoopBlock (α : Type) where
  id : UInt32
  name : String := ""
  instructions : List (LirInst α) := []
  predecessors : List UInt32 := []
  successors : List UInt32 := []

/-- `vregCount` is the size of the table of virtual registers, `nextBlockId` the counter of
`create_block`. Each block has an id of its own, its edges lead to blocks of the function, and
the counter is not at its end. -/
structure LoopFunction (α : Type) where
  blocks : List (LoopBlock α)
  vregCount : UInt32
  nextBlockId : UInt32
  ids_nodup : (blocks.map (·.id)).Nodup
  ids_lt : ∀ b ∈ blocks, b.id < nextBlockId
  successors_lt : ∀ b ∈ blocks, ∀ id ∈ b.successors, id < nextBlockId
  room : nextBlockId.toNat + 2 < 2 ^ 32

structure PipelineOptions where
  enableSoftwarePipelining : Bool := true
  minTripCount : Nat := 2
  maxBodyInstructions : Nat := 100

/-! ## The parts of a loop -/

def vregOf (op : LirOperand) : Option VReg :=
  match op.kind with
  | .vreg v => some v
  | _ => none

def labelIs (id : UInt32) (op : LirOperand) : Bool := decide (op.kind = .label id)

def immOf (op : LirOperand) : Option Int64 :=
  match op.kind with
  | .immInt v => some v
  | _ => none

/-- A `jcc` whose first use is the label of the block. -/
def isSelfBranch (id : UInt32) (inst : LirInst α) : Bool :=
  inst.opcode == .jcc && inst.uses.head?.any (labelIs id)

def isBarrier (inst : LirInst α) : Bool :=
  inst.isCall || inst.opcode == .safepoint || inst.opcode == .guardExit

def isLoad (inst : LirInst α) : Bool := inst.uses.any LirOperand.accessesMemory

def isStore (inst : LirInst α) : Bool := inst.defs.any LirOperand.accessesMemory

def loadDst (inst : LirInst α) : Option VReg :=
  if isLoad inst then inst.defs.head?.bind vregOf else none

/-- The register of an update of an induction variable: an addition or subtraction to
itself. -/
def ivReg (inst : LirInst α) : Option VReg :=
  if inst.opcode = .add ∨ inst.opcode = .add32 ∨ inst.opcode = .sub ∨ inst.opcode = .sub32 then
    match inst.defs.head?.bind vregOf, inst.uses.head?.bind vregOf with
    | some d, some u => if d.id = u.id then some d else none
    | _, _ => none
  else none

def isCompare (inst : LirInst α) : Bool := inst.opcode == .cmp || inst.opcode == .cmp32

structure LoopParts (α : Type) where
  load : Option (Nat × LirInst α × VReg) := none
  computeIndices : List Nat := []
  storeIndices : List Nat := []
  iv : Option Nat := none
  cmpIdx : Nat := 0
  branchIdx : Nat := 0
  tripCount : Int := -1

/-- One instruction of the search for the parts. -/
def classify (parts : LoopParts α) (i : Nat) (inst : LirInst α) : LoopParts α :=
  match loadDst inst, parts.load with
  | some dst, none => { parts with load := some (i, inst, dst) }
  | _, _ =>
    if (ivReg inst).isSome then { parts with iv := some i }
    else if isCompare inst then
      { parts with
        cmpIdx := i
        tripCount := match inst.uses[1]?.bind immOf with
          | some v => v.toInt
          | none => parts.tripCount }
    else if isStore inst then { parts with storeIndices := parts.storeIndices ++ [i] }
    else { parts with computeIndices := parts.computeIndices ++ [i] }

def classifyAll : LoopParts α → Nat → List (LirInst α) → LoopParts α
  | parts, _, [] => parts
  | parts, i, inst :: rest => classifyAll (classify parts i inst) (i + 1) rest

/-- The last instruction that branches back. -/
def findBranch (block : LoopBlock α) : Option Nat :=
  ((List.range block.instructions.length).reverse).find? fun i =>
    block.instructions[i]?.any (isSelfBranch block.id)

def usesVReg (v : VReg) (inst : LirInst α) : Bool :=
  inst.uses.any fun u => (vregOf u).any fun w => w.id == v.id

def analyzeLoopBlock (block : LoopBlock α) (maxBodyInstructions : Nat) : Option (LoopParts α) :=
  let n := block.instructions.length
  if n < 4 ∨ maxBodyInstructions < n then none
  else
    match findBranch block with
    | none => none
    | some branchIdx =>
      if (block.instructions.take (branchIdx + 1)).any isBarrier then none
      else
        let parts := classifyAll { branchIdx := branchIdx } 0 (block.instructions.take branchIdx)
        match parts.load, parts.iv with
        | some (_, _, dst), some _ =>
          if parts.computeIndices.any fun c => block.instructions[c]?.any (usesVReg dst) then
            some parts
          else none
        | _, _ => none

/-- `is_pipelinable_loop`, with the parts that it finds. -/
def pipelinableParts (block : LoopBlock α) (opts : PipelineOptions) : Option (LoopParts α) :=
  if !opts.enableSoftwarePipelining || !block.successors.contains block.id then none
  else
    match analyzeLoopBlock block opts.maxBodyInstructions with
    | none => none
    | some parts =>
      if 0 ≤ parts.tripCount ∧ parts.tripCount < opts.minTripCount then none else some parts

/-! ## Clones -/

/-- The map of a substitution for one register. -/
def mapVReg (old new v : VReg) : VReg := if v.id = old.id then new else v

def mapMem (old new : VReg) (m : LirMem) : LirMem :=
  { m with
    baseVreg := if m.baseVreg.isValid then mapVReg old new m.baseVreg else m.baseVreg
    indexVreg := if m.indexVreg.isValid then mapVReg old new m.indexVreg else m.indexVreg
    oneBase := by
      intro h
      by_cases hv : m.baseVreg.isValid = true
      · exact m.oneBase hv
      · rw [if_neg hv] at h
        exact m.oneBase h
    oneIndex := by
      intro h
      by_cases hv : m.indexVreg.isValid = true
      · exact m.oneIndex hv
      · rw [if_neg hv] at h
        exact m.oneIndex h }

def mapOperand (old new : VReg) (op : LirOperand) : LirOperand :=
  match op.kind with
  | .vreg v => { op with kind := .vreg (mapVReg old new v) }
  | .mem m => { op with kind := .mem (mapMem old new m) }
  | _ => op

/-- `clone_instruction`, which leaves `is_invoke` behind. -/
def cloneInstruction (old new : VReg) (src : LirInst α) : LirInst α :=
  { src with
    defs := src.defs.map (mapOperand old new)
    uses := src.uses.map (mapOperand old new)
    isInvoke := false }

def copyInstruction (src : LirInst α) : LirInst α := { src with isInvoke := false }

/-! ## The new code

Each instruction stands with the index of the instruction of the body that it performs: that
index is no part of the code. -/

abbrev Tagged (α : Type) := Option Nat × LirInst α

section NewCode

variable [Inhabited α]

def jumpTo (id : UInt32) : LirInst α :=
  { opcode := .jmp, uses := [{ kind := .label id }], useConstraints := [{}], rest := default }

/-- The clones of the instructions at the given places. -/
def clonesAt (body : List (LirInst α)) (old new : VReg) (indices : List Nat) : List (Tagged α) :=
  indices.filterMap fun i => body[i]?.map fun inst => (some i, cloneInstruction old new inst)

def prologueCode (loop : UInt32) (loadIdx : Nat) (load : LirInst α) (dst prime : VReg) :
    List (Tagged α) :=
  [(some loadIdx, cloneInstruction dst prime load), (none, jumpTo loop)]

def epilogueCode (body : List (LirInst α)) (parts : LoopParts α) (dst prime : VReg) (exit : UInt32) :
    List (Tagged α) :=
  clonesAt body dst prime parts.computeIndices ++ clonesAt body dst prime parts.storeIndices ++
    [(none, jumpTo exit)]

/-- `prime = next`. -/
def copyNext (dst prime next : VReg) : LirInst α :=
  { opcode := if dst.isXmm then .movaps else .mov
    defs := [{ kind := .vreg prime, size := prime.size }]
    uses := [{ kind := .vreg next, size := next.size }]
    defConstraints := [{}]
    useConstraints := [{}]
    rest := default }

def kernelCode (body : List (LirInst α)) (parts : LoopParts α) (loadIdx : Nat) (load : LirInst α)
    (dst prime next : VReg) (epilogue : UInt32) : List (Tagged α) :=
  clonesAt body dst prime parts.computeIndices ++ clonesAt body dst prime parts.storeIndices ++
    [(some loadIdx, cloneInstruction dst next load)] ++
    ((parts.iv.bind (body[·]?)).map fun inst => (none, copyInstruction inst)).toList ++
    [(none, copyNext dst prime next)] ++
    (body[parts.cmpIdx]?.map fun inst => (none, copyInstruction inst)).toList ++
    (body[parts.branchIdx]?.map fun inst => (none, copyInstruction inst)).toList ++
    [(none, jumpTo epilogue)]

/-! ## The pass -/

def blockById (blocks : List (LoopBlock α)) (id : UInt32) : Option (LoopBlock α) :=
  blocks.find? (·.id == id)

def replaceId (old new : UInt32) (ids : List UInt32) : List UInt32 :=
  ids.map fun id => if id = old then new else id

/-- A label of a branch, renamed. -/
def retargetOperand (old new : UInt32) (op : LirOperand) : LirOperand :=
  if labelIs old op then { op with kind := .label new } else op

def retargetInst (old new : UInt32) (inst : LirInst α) : LirInst α :=
  if inst.isTerminator then { inst with uses := inst.uses.map (retargetOperand old new) } else inst

/-- The blocks that the pass makes and the one that it rebuilds. -/
structure Pipelined (α : Type) where
  loop : UInt32
  preheader : UInt32
  exit : UInt32
  prologue : UInt32
  epilogue : UInt32
  prime : VReg
  next : VReg
  prologueCode : List (Tagged α)
  kernelCode : List (Tagged α)
  epilogueCode : List (Tagged α)

/-- `pipeline_loop` up to the code that it makes; `none` where it returns false. -/
def planPipeline (fn : LoopFunction α) (loop : LoopBlock α) (opts : PipelineOptions) :
    Option (Pipelined α) :=
  match pipelinableParts loop opts with
  | none => none
  | some parts =>
    match parts.load, loop.predecessors.find? (· != loop.id), loop.successors.find? (· != loop.id) with
    | some (loadIdx, load, dst), some preheader, some exit =>
      let prime : VReg := { id := fn.vregCount, regClass := dst.regClass, size := dst.size }
      let next : VReg := { id := fn.vregCount + 1, regClass := dst.regClass, size := dst.size }
      let prologue := fn.nextBlockId
      let epilogue := fn.nextBlockId + 1
      some
        { loop := loop.id, preheader := preheader, exit := exit
          prologue := prologue, epilogue := epilogue, prime := prime, next := next
          prologueCode := prologueCode loop.id loadIdx load dst prime
          kernelCode := kernelCode loop.instructions parts loadIdx load dst prime next epilogue
          epilogueCode := epilogueCode loop.instructions parts dst prime exit }
    | _, _, _ => none

def setKernel (p : Pipelined α) (b : LoopBlock α) : LoopBlock α :=
  if b.id = p.loop then { b with instructions := p.kernelCode.map Prod.snd } else b

def rewirePreheader (p : Pipelined α) (b : LoopBlock α) : LoopBlock α :=
  if b.id = p.preheader then
    { b with
      instructions := b.instructions.map (retargetInst p.loop p.prologue)
      successors := replaceId p.loop p.prologue b.successors }
  else b

def rewireLoop (p : Pipelined α) (b : LoopBlock α) : LoopBlock α :=
  if b.id = p.loop then
    { b with
      predecessors := replaceId p.preheader p.prologue b.predecessors
      successors := replaceId p.exit p.epilogue b.successors }
  else b

def rewireExit (p : Pipelined α) (b : LoopBlock α) : LoopBlock α :=
  if b.id = p.exit then { b with predecessors := replaceId p.loop p.epilogue b.predecessors } else b

/-- The edges and the code of one block once the loop is rebuilt. -/
def rewireBlock (p : Pipelined α) (b : LoopBlock α) : LoopBlock α :=
  rewireExit p (rewireLoop p (rewirePreheader p (setKernel p b)))

/-- The blocks after `pipeline_loop`. -/
def pipelineLoop (fn : LoopFunction α) (name : String) (p : Pipelined α) : List (LoopBlock α) :=
  fn.blocks.map (rewireBlock p) ++
    [{ id := p.prologue, name := name ++ "_prologue"
       instructions := p.prologueCode.map Prod.snd
       predecessors := [p.preheader], successors := [p.loop] },
      { id := p.epilogue, name := name ++ "_epilogue"
        instructions := p.epilogueCode.map Prod.snd
        predecessors := [p.loop], successors := [p.exit] }]

end NewCode

end Brass.Codegen.SoftwarePipeline
