import Brass.Codegen.LirFunction
import Brass.Codegen.LiveInterval
import Brass.Util.Search
import Mathlib.Data.List.Sort

/-!
# Liveness analysis

`LivenessAnalysis` of `codegen/live_range.cpp`: the blocks a virtual register is live into
and out of, its live interval, and the loop depth of each block. A guard's exit block reads
its state at the `Jcc` that enters it, so its uses are counted there.

The source computes dominators by the iteration over reverse post-order and answers
dominance questions with the depth-first numbering of the tree; here a block dominates
another if no path from a root avoids it.
-/

namespace Brass.Codegen

open Brass.Util

namespace LirFunction

variable (fn : LirFunction)

/-! ## Guard exits -/

def isExitCandidate (b : LirBlock) : Bool :=
  match b.instructions with
  | [inst] => inst.opcode == .guardExit && b.successors.isEmpty
  | _ => false

/-- Every edge into the block is a `Jcc` that names it. -/
def enteredByJcc (id : UInt32) : Bool :=
  fn.blocks.all (fun b =>
    b.instructions.all (fun inst => !inst.usesLabel id || inst.opcode == .jcc) &&
    b.successors.all (fun s => (fn.block s).id != id ||
      b.instructions.any (fun inst => inst.opcode == .jcc && inst.usesLabel id)))

/-- `guard_exits_`: the block ids with their `GuardExit`. -/
def guardExits : List (UInt32 × Inst) :=
  (fn.blocks.filter (fun b => isExitCandidate b && fn.enteredByJcc b.id)).filterMap
    (fun b => b.instructions.head?.map (fun inst => (b.id, inst)))

def guardExitTakenBy (exits : List (UInt32 × Inst)) (inst : Inst) : Option Inst :=
  if inst.opcode == .jcc then
    inst.uses.findSome? (fun u => u.label?.bind (fun id => exits.lookup id))
  else none

def isGuardExit (b : Nat) : Bool := fn.guardExits.any (fun e => e.1 == (fn.block b).id)

/-! ## Live blocks -/

/-- The registers a block defines, and those it uses before any definition of it. -/
structure LocalLiveness where
  defs : List Nat := []
  uses : List Nat := []

namespace LocalLiveness

def addUse (l : LocalLiveness) (v : Option Nat) : LocalLiveness :=
  match v with
  | none => l
  | some v => if v ∈ l.defs ∨ v ∈ l.uses then l else { l with uses := l.uses ++ [v] }

def addDef (l : LocalLiveness) (v : Option Nat) : LocalLiveness :=
  match v with
  | none => l
  | some v => if v ∈ l.defs then l else { l with defs := l.defs ++ [v] }

def addUses (fn : LirFunction) (l : LocalLiveness) (inst : Inst) : LocalLiveness :=
  (inst.uses.flatMap LirOperand.readVregs).foldl (fun l v => l.addUse (fn.known v)) l

def addInst (fn : LirFunction) (exits : List (UInt32 × Inst)) (l : LocalLiveness) (inst : Inst) :
    LocalLiveness :=
  let l := l.addUses fn inst
  let l := match guardExitTakenBy exits inst with
    | some exit => l.addUses fn exit
    | none => l
  inst.defs.foldl (fun l d =>
    match d.vreg? with
    | some v => l.addDef (fn.known v)
    | none => d.memVregs.foldl (fun l v => l.addUse (fn.known v)) l) l

end LocalLiveness

/-- A guard exit block's uses belong to the `Jcc` that enters it. -/
def localLiveness (b : Nat) : LocalLiveness :=
  if fn.isGuardExit b then {}
  else (fn.block b).instructions.foldl (LocalLiveness.addInst fn fn.guardExits) {}

def locals : List LocalLiveness := (List.range fn.blocks.length).map fn.localLiveness

/-- The blocks with an edge to `b`. -/
def predsOf (b : Nat) : List Nat :=
  (List.range fn.blocks.length).filter (fun i => b ∈ (fn.block i).successors)

/-- The blocks a register is live into: backwards from its uses up to its definitions. -/
def liveInBlocks (locals : List LocalLiveness) (v : Nat) : List Nat :=
  let start := (List.range fn.blocks.length).filter (fun b => v ∈ (locals.getD b {}).uses)
  Search.search (fun b => (fn.predsOf b).filter (fun p => v ∉ (locals.getD p {}).defs))
    (fun new todo => new.reverse ++ todo) fn.blocks.length start start

/-- Per register the blocks it is live into. -/
def liveTable : List (List Nat) :=
  let locals := fn.locals
  (List.range fn.vregTable.length).map (fn.liveInBlocks locals)

def liveIn (table : List (List Nat)) (b : Nat) : List Nat :=
  (List.range table.length).filter (fun v => b ∈ table.getD v [])

def liveOut (table : List (List Nat)) (b : Nat) : List Nat :=
  (List.range table.length).filter (fun v =>
    (fn.block b).successors.any (fun s => s < fn.blocks.length && s ∈ table.getD v []))

/-! ## Intervals -/

def addUseAt (liveFrom id : Nat) (requiresReg : Bool) (fixed : PReg) (ivs : List LiveInterval)
    (v : VReg) : List LiveInterval :=
  if v.isValid then
    ivs.modify v.id.toNat (fun iv => (iv.addUsePos id false requiresReg fixed).addRange liveFrom id)
  else ivs

def addDefAt (id : Nat) (fixed : PReg) (ivs : List LiveInterval) (v : VReg) : List LiveInterval :=
  if v.isValid then
    ivs.modify v.id.toNat (fun iv => (iv.addUsePos id true true fixed).shortenStart id)
  else ivs

/-- One instruction, in the backward walk over its block. -/
def addInstRanges (exits : List (UInt32 × Inst)) (liveFrom : Nat) (ivs : List LiveInterval)
    (i : Nat × Inst) : List LiveInterval :=
  let (id, inst) := i
  let ivs := (inst.defs.zipIdx).foldl (fun ivs d =>
    match d.1.vreg? with
    | some v => addDefAt id (inst.defConstraint d.2).fixedPreg ivs v
    | none => d.1.memVregs.foldl (addUseAt liveFrom id true {}) ivs) ivs
  let ivs := match guardExitTakenBy exits inst with
    | some exit => (exit.uses.filterMap LirOperand.vreg?).foldl (addUseAt liveFrom id false {}) ivs
    | none => ivs
  (inst.uses.zipIdx).foldl (fun ivs u =>
    match u.1.vreg? with
    | some v => addUseAt liveFrom id true (inst.useConstraint u.2).fixedPreg ivs v
    | none => u.1.memVregs.foldl (addUseAt liveFrom id true {}) ivs) ivs

/-- A value live into a block is live from the position before its first instruction. -/
def liveFrom (b : Nat) : Nat := fn.startId b - 1

def addBlockRanges (table : List (List Nat)) (ivs : List LiveInterval) (b : Nat) :
    List LiveInterval :=
  let ivs := (fn.liveOut table b).foldl
    (fun ivs v => ivs.modify v (fun iv => iv.addRange (fn.liveFrom b) (fn.endId b + 1))) ivs
  if fn.isGuardExit b then ivs
  else (fn.numbered b).reverse.foldl (addInstRanges fn.guardExits (fn.liveFrom b)) ivs

/-- The positions of the calls at which a collection may move objects. -/
def callInstIds : List Nat :=
  (fn.allNumbered.filter (fun i => (i.2.isCall && !i.2.rest.noGcPoint) ||
    i.2.opcode == .safepoint)).map (fun i => i.1)

/-- Some segment holds a call. -/
def holdsCall (calls : List Nat) (segs : List LiveRangeSegment) : Bool :=
  segs.any (fun seg =>
    match calls[partitionPoint calls (fun c => c < seg.start)]? with
    | some c => c ≤ seg.stop
    | none => false)

/-- The order of the uses at one position is left open by `std::sort`. -/
def finishInterval (calls : List Nat) (iv : LiveInterval) : LiveInterval :=
  { iv with
    usePositions := iv.usePositions.insertionSort (fun a b => a.instId ≤ b.instId)
    spansCall := holdsCall calls iv.segments }

def buildIntervals (table : List (List Nat)) : List LiveInterval :=
  ((List.range fn.blocks.length).reverse.foldl (fn.addBlockRanges table)
    (fn.vregTable.map (fun v => { vreg := v }))).map (finishInterval fn.callInstIds)

/-! ## Loops -/

def succs (b : Nat) : List Nat := (fn.block b).successors.filter (· < fn.blocks.length)

def preds (b : Nat) : List Nat := (fn.block b).predecessors.filter (· < fn.blocks.length)

/-- The entry and every block without predecessors. -/
def roots : List Nat :=
  (List.range fn.blocks.length).filter (fun b => b = 0 ∨ (fn.block b).predecessors = [])

/-- The blocks that a path from a root reaches without passing through `avoid`. -/
def reachedAvoiding (avoid : Option Nat) : List Nat :=
  let start := fn.roots.filter (fun b => some b ≠ avoid)
  Search.search (fun b => (fn.succs b).filter (fun s => some s ≠ avoid))
    (fun new todo => new.reverse ++ todo) fn.blocks.length start start

/-- Every block dominates one that no root reaches. -/
def dominates (a b : Nat) : Bool :=
  b ∉ fn.reachedAvoiding none || (a ∈ fn.reachedAvoiding none && b ∉ fn.reachedAvoiding (some a))

/-- The blocks of the loop of a back edge. -/
def loopBody (latch header : Nat) : List Nat :=
  if latch = header then [header]
  else header :: Search.search (fun b => (fn.preds b).filter (· ≠ header))
    (fun new todo => new.reverse ++ todo) fn.blocks.length [latch] [latch]

def loops : List (List Nat) :=
  (List.range fn.blocks.length).flatMap (fun i =>
    ((fn.succs i).filter (fun s => fn.dominates s i)).map (fn.loopBody i))

def loopDepths : List Nat :=
  let loops := fn.loops
  (List.range fn.blocks.length).map (fun b => loops.countP (fun body => decide (b ∈ body)))

end LirFunction

/-- A block that is not empty, with its positions and its loop depth. -/
structure BlockRange where
  block : Nat
  startId : Nat
  endId : Nat
  loopDepth : Nat
  deriving DecidableEq, Repr

def LirFunction.blockRanges (fn : LirFunction) : List BlockRange :=
  let depths := fn.loopDepths
  ((List.range fn.blocks.length).filter (fun b => (fn.block b).instructions ≠ [])).map
    (fun b => ⟨b, fn.startId b, fn.endId b, depths.getD b 0⟩)

def loopDepthAt (ranges : List BlockRange) (instId : Nat) : Nat :=
  match (ranges.take (partitionPoint ranges (fun r => ¬ instId < r.startId))).getLast? with
  | none => 0
  | some r => if instId ≤ r.endId then r.loopDepth else 0

end Brass.Codegen
