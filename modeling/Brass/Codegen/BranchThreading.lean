import Brass.Codegen.LirFunction

/-!
# Branch threading

The closing branches of a block are redirected past blocks that only jump on, and a block
that only jumps on is not emitted when nothing enters it any more. Only closing branches are
redirected: a branch inside a block, an unwind target, a resume entry and the entry keep the
block they name.

The label of a block that is not emitted is bound where the block would have stood, so what
still jumped there would run into the next block that is emitted.
-/

namespace Brass.Codegen.BranchThreading

structure Block where
  id : UInt32
  instructions : List Inst := []
  predecessors : List Nat := []
  loopDepth : Nat := 0

/-- `ids_nodup`, `ids_valid`: `create_block` counts the ids up from zero, and the largest
number is no block. -/
structure Function where
  blocks : List Block
  resumeEntries : List (UInt32 × UInt32) := []
  loopDepthsComputed : Bool := false
  ids_nodup : (blocks.map (·.id)).Nodup
  ids_valid : ∀ b ∈ blocks, b.id ≠ 0xFFFFFFFF

def noId : UInt32 := 0xFFFFFFFF

/-- The label of a branch of the given opcode (`is_label_branch`). -/
def branchLabel (op : LirOpcode) (inst : Inst) : Option UInt32 :=
  if inst.opcode = op then inst.uses.head?.bind LirOperand.label? else none

def isBranch (inst : Inst) : Bool := inst.opcode == .jmp || inst.opcode == .jcc

structure ClosingBranches where
  count : Nat := 0
  conditional : Bool := false
  taken : UInt32 := 0
  other : UInt32 := 0

/-- The closing branches of a block before the block `next`. -/
def closingOf (instructions : List Inst) (next : Option UInt32) : ClosingBranches :=
  match instructions.reverse with
  | [] => {}
  | last :: before =>
    match branchLabel .jmp last, before.head?.bind (branchLabel .jcc) with
    | some other, some taken => { count := 2, conditional := true, taken, other }
    | some other, none => { count := 1, other }
    | none, _ =>
      match branchLabel .jcc last, next with
      | some taken, some other => { count := 1, conditional := true, taken, other }
      | _, _ => {}

section Model

variable (fn : Function)

def block (i : Nat) : Block := fn.blocks.getD i { id := noId }

def nextId (i : Nat) : Option UInt32 := fn.blocks[i + 1]?.map (·.id)

def closingBranches (i : Nat) : ClosingBranches :=
  closingOf (block fn i).instructions (nextId fn i)

def body (i : Nat) : List Inst :=
  (block fn i).instructions.take
    ((block fn i).instructions.length - (closingBranches fn i).count)

def positionOf (id : UInt32) : Option Nat :=
  (List.range fn.blocks.length).find? (fun i => (block fn i).id == id)

/-- The block is a jump and nothing else, and not the entry. -/
def hopAt (i : Nat) : Option UInt32 :=
  match (block fn i).instructions with
  | [inst] => if i = 0 then none else (branchLabel .jmp inst).filter (· != noId)
  | _ => none

def hop (id : UInt32) : Option UInt32 := (positionOf fn id).bind (hopAt fn)

/-- One step along a chain of jumps. -/
def hopOn (id : UInt32) : UInt32 := (hop fn id).getD id

/-- The loop that follows a chain for at most so many steps. -/
def follow : Nat → UInt32 → UInt32
  | 0, t => t
  | steps + 1, t =>
    match hop fn t with
    | some u => follow steps u
    | none => t

/-- `forward_`, read by `target`. -/
def target (id : UInt32) : UInt32 := follow fn fn.blocks.length id

/-- The block before does not end the run of the function. -/
def runsOn (i : Nat) : Bool :=
  match (block fn i).instructions.getLast? with
  | none => true
  | some last => last.opcode != .ret && last.opcode != .trap

/-! ## What is still entered -/

/-- The ids entered so far, the positions of loop heads, and whether the block before runs on
into this one. -/
structure Entering where
  entered : List UInt32 := []
  head : List Nat := []
  falls : Bool := false

def enter (s : Entering) (id : UInt32) : Entering := { s with entered := id :: s.entered }

def depthsKnown : Bool := fn.loopDepthsComputed || fn.blocks.any (fun b => b.loopDepth > 0)

def enteredFromOutside (i : Nat) : Bool :=
  !depthsKnown fn ||
    (block fn i).predecessors.any fun p =>
      (fn.blocks[p]?).any fun b => b.loopDepth < (block fn i).loopDepth

def branchTo (s : Entering) (dest : UInt32) (src : Nat) : Entering :=
  let s := enter s dest
  match positionOf fn dest with
  | some p => if p ≤ src ∧ enteredFromOutside fn p then { s with head := p :: s.head } else s
  | none => s

def enterUse (src : Nat) (inst : Inst) (s : Entering) (u : LirOperand) : Entering :=
  match u.label? with
  | none => s
  | some id => if isBranch inst then branchTo fn s id src else enter s id

def enterInst (src : Nat) (s : Entering) (inst : Inst) : Entering :=
  let s := if inst.rest.unwindBlockId ≠ noId then enter s inst.rest.unwindBlockId else s
  inst.uses.foldl (enterUse fn src inst) s

def enterClosing (i : Nat) (s : Entering) : Entering :=
  let c := closingBranches fn i
  if c.count > 0 then
    let s := if c.conditional then branchTo fn s (target fn c.taken) i else s
    { branchTo fn s (target fn c.other) i with falls := false }
  else { s with falls := runsOn fn i }

def enterBlock (s : Entering) (i : Nat) : Entering :=
  let s := if s.falls then enter s (block fn i).id else s
  enterClosing fn i ((body fn i).foldl (enterInst fn i) s)

/-- The entry and the resume entries. -/
def enterStart : Entering :=
  { entered := fn.blocks.head?.toList.map (·.id) ++ fn.resumeEntries.map (·.2) }

def entering : Entering := (List.range fn.blocks.length).foldl (enterBlock fn) (enterStart fn)

def skipped (i : Nat) : Bool :=
  (hopAt fn i).isSome && !decide ((block fn i).id ∈ (entering fn).entered)

def loopHead (i : Nat) : Bool := decide (i ∈ (entering fn).head)

/-! ## Executing a layout of the blocks -/

/-- How control leaves a block. -/
inductive Outcome
  | leaves
  | label (id : UInt32)
  | unwinds (id : UInt32)
  | taken
  | other
  | falls
  deriving DecidableEq

/-- The ways out of a block with the block each one names; the closing branches go through
`redirect`. An instruction of the body may go to any label among its operands or unwind, and
any block may end the run. -/
inductive Leads (redirect : UInt32 → UInt32) (i : Nat) : Outcome → Option UInt32 → Prop
  | leaves : Leads redirect i .leaves none
  | label {inst : Inst} {u : LirOperand} {id : UInt32} (hi : inst ∈ body fn i)
      (hu : u ∈ inst.uses) (hl : u.label? = some id) : Leads redirect i (.label id) (some id)
  | unwinds {inst : Inst} (hi : inst ∈ body fn i) (hu : inst.rest.unwindBlockId ≠ noId) :
      Leads redirect i (.unwinds inst.rest.unwindBlockId) (some inst.rest.unwindBlockId)
  | taken (hc : 0 < (closingBranches fn i).count)
      (ht : (closingBranches fn i).conditional = true) :
      Leads redirect i .taken (some (redirect (closingBranches fn i).taken))
  | other (hc : 0 < (closingBranches fn i).count) :
      Leads redirect i .other (some (redirect (closingBranches fn i).other))
  | falls {id : UInt32} (hc : (closingBranches fn i).count = 0) (hr : runsOn fn i = true)
      (hn : nextId fn i = some id) : Leads redirect i .falls (some id)

/-- A layout: where the closing branches go, and the block whose code stands at a label. -/
structure Layout where
  redirect : UInt32 → UInt32
  land : UInt32 → Option Nat

/-- Every block stands at its label. -/
def original : Layout := { redirect := fun id => id, land := positionOf fn }

/-- The first block from a position on that is emitted. -/
def nextEmitted (i : Nat) : Option Nat :=
  (List.range fn.blocks.length).find? (fun j => decide (i ≤ j) && !skipped fn j)

def threaded : Layout :=
  { redirect := target fn, land := fun id => (positionOf fn id).bind (nextEmitted fn) }

/-- The blocks that a run from a place visits, with the way each one was left, the blocks
that only jump on left out. The list is that of some part of the run from its start. -/
inductive Visits (lay : Layout) : Option Nat → List (Nat × Outcome) → Prop
  | start (place : Option Nat) : Visits lay place []
  | hop {i : Nat} {t : UInt32} {l : List (Nat × Outcome)} (hh : hopAt fn i = some t)
      (hv : Visits lay (lay.land (lay.redirect t)) l) : Visits lay (some i) l
  | visit {i : Nat} {o : Outcome} {dest : Option UInt32} {l : List (Nat × Outcome)}
      (hh : hopAt fn i = none) (hl : Leads fn lay.redirect i o dest)
      (hv : Visits lay (dest.bind lay.land) l) : Visits lay (some i) ((i, o) :: l)

end Model

end Brass.Codegen.BranchThreading
