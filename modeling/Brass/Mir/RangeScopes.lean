import Brass.Mir.DominatorTreeSound
import Brass.Mir.ValueRange
import Brass.Util.LinkedLog
import Brass.Util.PartitionPoint

/-!
# The path-sensitive pass of the range analysis

Pass 3 walks the dominator tree with the ranges in scope. A block loads what pass 2 has found
for its parameters, refines what the branch into it says, and evaluates its instructions; all
that it sets goes through a list by which it is undone when the walk leaves the block. What a
block has set stays in a log, where each entry has a link to the one before it that is still in
scope, and `getRangeAt` looks a value up there. The results of the first two passes, and
`evaluate_instruction`, are what the definitions here start from.
-/

namespace Brass.Mir

open Brass.Util

inductive RangeOpcode
  | iconst (c : Int)
  | and_
  | or_
  | cmp (c : Comparison)
  | other (op : Nat)
  deriving DecidableEq, Repr

structure RangeInst where
  opcode : RangeOpcode
  type : ValueType
  operands : List Nat
  result : Option Nat
  deriving DecidableEq, Repr

/-- The tree of `and` and `or` instructions over a condition is at most so deep. -/
def CondEnds (definition : Nat → Option RangeInst) : Nat → Nat → Prop
  | 0, _ => False
  | depth + 1, v => ∀ inst, definition v = some inst → inst.opcode = .and_ ∨ inst.opcode = .or_ →
    CondEnds definition depth (inst.operands.getD 0 0) ∧
      CondEnds definition depth (inst.operands.getD 1 0)

/-- What pass 3 reads of a function. The terminator of a block is its `br_if`, with the condition
and the two targets; conditions are not cyclic. -/
structure RangeFunction where
  cfg : Cfg
  dom : DominatorTree
  built : DominatorTree.Built cfg dom
  insts : Nat → List RangeInst
  brIf : Nat → Option (Nat × Nat × Nat)
  definition : Nat → Option RangeInst
  type : Nat → ValueType
  evaluate : RangeInst → (Nat → ValueRange) → ValueRange
  condDepth : Nat
  condEnds : ∀ b c t f, Search.Reaches cfg.next 0 b → brIf b = some (c, t, f) →
    CondEnds definition condDepth c

abbrev Ranges := Nat → Option ValueRange

namespace RangeFunction

variable (F : RangeFunction)

def getConstInt (v : Nat) : Option Int :=
  match F.definition v with
  | some { opcode := .iconst c, .. } => some c
  | _ => none

def getRange (globalRanges : Ranges) (v : Nat) : ValueRange :=
  match F.getConstInt v with
  | some c => .constant c
  | none =>
    match globalRanges v with
    | some r => r
    | none => if F.type v = .i32 then .fullI32 else .full

def getContextRange (globalRanges contextRanges : Ranges) (v : Nat) : ValueRange :=
  match F.getConstInt v with
  | some c => .constant c
  | none => (contextRanges v).getD (F.getRange globalRanges v)

end RangeFunction

/-! ## Entering a block -/

/-- The ranges in scope, and what they were before, in the order of the changes. -/
structure Scope where
  ranges : Ranges
  rollback : List (Nat × Option ValueRange)

namespace Scope

def set (s : Scope) (v : Nat) (r : ValueRange) : Scope where
  ranges := Function.update s.ranges v (some r)
  rollback := s.rollback ++ [(v, s.ranges v)]

/-- The changes undone, the last one first. -/
def undo (ranges : Ranges) (rollback : List (Nat × Option ValueRange)) : Ranges :=
  rollback.reverse.foldl (fun ranges e => Function.update ranges e.1 e.2) ranges

end Scope

namespace RangeFunction

variable (F : RangeFunction)

/-- `set_val_range`: a constant needs no range. -/
def setValRange (s : Scope) (v : Nat) (r : ValueRange) : Scope :=
  if (F.getConstInt v).isSome then s else s.set v r

def applyComparison (globalRanges : Ranges) (c : Comparison) (operands : List Nat) (s : Scope) :
    Scope :=
  let lhs := operands.getD 0 0
  let rhs := operands.getD 1 0
  if (F.type lhs).isInt && (F.type rhs).isInt then
    (c.refine (F.getContextRange globalRanges s.ranges lhs)
      (F.getContextRange globalRanges s.ranges rhs)).foldl (fun s w =>
        F.setValRange s (match w.1 with | .lhs => lhs | .rhs => rhs) w.2) s
  else s

def applyBranchCondition (globalRanges : Ranges) (isTrueEdge : Bool) :
    Nat → Nat → Scope → Scope
  | 0, _, s => s
  | depth + 1, cond, s =>
    match F.definition cond with
    | none => s
    | some cdef =>
      match cdef.opcode with
      | .and_ =>
        if isTrueEdge then
          applyBranchCondition globalRanges isTrueEdge depth (cdef.operands.getD 1 0)
            (applyBranchCondition globalRanges isTrueEdge depth (cdef.operands.getD 0 0) s)
        else s
      | .or_ =>
        if isTrueEdge then s
        else
          applyBranchCondition globalRanges isTrueEdge depth (cdef.operands.getD 1 0)
            (applyBranchCondition globalRanges isTrueEdge depth (cdef.operands.getD 0 0) s)
      | .cmp c =>
        F.applyComparison globalRanges (if isTrueEdge then c else c.invert) cdef.operands
          (F.setValRange s cond (.constant (if isTrueEdge then 1 else 0)))
      | _ => s

/-- What pass 2 has found for the parameters of the block. -/
def loadBlockRanges (globalRanges : Ranges) (params : List (Nat × ValueRange)) (s : Scope) :
    Scope :=
  params.foldl (fun s p =>
    s.set p.1 (p.2.intersectWith (F.getContextRange globalRanges s.ranges p.1))) s

/-- What the branch into a block with one predecessor says. -/
def applyBranchInto (globalRanges : Ranges) (bb : Nat) (s : Scope) : Scope :=
  match F.cfg.preds.getD bb [] with
  | [pred] =>
    match F.brIf pred with
    | some (cond, trueTarget, falseTarget) =>
      let toTrue := trueTarget == bb && falseTarget != bb
      let toFalse := falseTarget == bb && trueTarget != bb
      if toTrue || toFalse then
        F.applyBranchCondition globalRanges toTrue F.condDepth cond s
      else s
    | none => s
  | _ => s

def evaluateInst (s : Scope × Ranges) (inst : RangeInst) : Scope × Ranges :=
  match inst.result with
  | none => s
  | some v =>
    let r := fitToType (F.evaluate inst (F.getContextRange s.2 s.1.ranges)) inst.type
    (s.1.set v r, Function.update s.2 v (some (match s.2 v with
      | some old => old.unionWith r
      | none => r)))

/-- `enter_dominator_block`, up to the log: the scope after it and the global ranges. -/
def enterDominatorBlock (blockRanges : Nat → List (Nat × ValueRange)) (globalRanges : Ranges)
    (bb : Nat) (ranges : Ranges) : Scope × Ranges :=
  let s := F.loadBlockRanges globalRanges (blockRanges bb) { ranges, rollback := [] }
  (F.insts bb).foldl F.evaluateInst (F.applyBranchInto globalRanges bb s, globalRanges)

end RangeFunction

/-! ## The walk -/

structure Pass3Write where
  block : Nat
  enclosing : Option Nat
  range : ValueRange
  deriving DecidableEq, Repr

/-- The state of the walk. The rollbacks are those of the open blocks, the innermost first;
`subtreeEnd` is `none` while a block is open. -/
structure Pass3 where
  currentRanges : Ranges
  globalRanges : Ranges
  rollbacks : List (List (Nat × Option ValueRange))
  visit : Nat → Option Nat
  subtreeEnd : List (Option Nat)
  staged : List (Nat × Pass3Write)
  lastStaged : Nat → Option Nat

namespace Pass3

def isOpen (s : Pass3) (block : Nat) : Bool := s.subtreeEnd.getD block none == none

/-- The nearest write up the links whose block is still open. -/
def nearestOpen (s : Pass3) (up : Option Nat) : Option Nat :=
  LinkedLog.climb (fun up => s.staged[up]?.bind (·.2.enclosing))
    (fun up => s.staged[up]?.any fun e => s.isOpen e.2.block) s.staged.length up

def stageWrite (s : Pass3) (v block : Nat) (r : ValueRange) : Pass3 :=
  match s.lastStaged v with
  | some latest =>
    match s.staged[latest]? with
    | some (_, w) =>
      if w.block = block then
        { s with staged := s.staged.set latest (v, { w with range := r }) }
      else
        { s with
          staged := s.staged ++
            [(v, { block, enclosing := s.nearestOpen (some latest), range := r })]
          lastStaged := Function.update s.lastStaged v (some s.staged.length) }
    | none => s
  | none =>
    { s with
      staged := s.staged ++ [(v, { block, enclosing := none, range := r })]
      lastStaged := Function.update s.lastStaged v (some s.staged.length) }

/-- What the block has changed, as the changes have left it. -/
def stageScope (s : Pass3) (scope : Scope) (block : Nat) : Pass3 :=
  scope.rollback.foldl (fun s e =>
    match scope.ranges e.1 with
    | some r => s.stageWrite e.1 block r
    | none => s) s

def enter (F : RangeFunction) (blockRanges : Nat → List (Nat × ValueRange)) (s : Pass3)
    (bb : Nat) : Pass3 :=
  let block := s.subtreeEnd.length
  let (scope, globalRanges) := F.enterDominatorBlock blockRanges s.globalRanges bb s.currentRanges
  stageScope
    { s with
      currentRanges := scope.ranges
      globalRanges := globalRanges
      rollbacks := scope.rollback :: s.rollbacks
      visit := Function.update s.visit bb (some block)
      subtreeEnd := s.subtreeEnd ++ [none] } scope block

def leave (s : Pass3) (bb : Nat) : Pass3 :=
  { s with
    subtreeEnd := s.subtreeEnd.set ((s.visit bb).getD 0) (some (s.subtreeEnd.length - 1))
    currentRanges := Scope.undo s.currentRanges (s.rollbacks.headD [])
    rollbacks := s.rollbacks.tail }

def init (globalRanges : Ranges) : Pass3 where
  currentRanges := globalRanges
  globalRanges := globalRanges
  rollbacks := []
  visit := fun _ => none
  subtreeEnd := []
  staged := []
  lastStaged := fun _ => none

end Pass3

/-! ## The index -/

/-- The writes of each value, with the links moved to them. -/
structure WriteIndex where
  runs : Nat → List Pass3Write
  moved : List Nat

namespace WriteIndex

def push (x : WriteIndex) (e : Nat × Pass3Write) : WriteIndex where
  runs := Function.update x.runs e.1 (x.runs e.1 ++
    [{ e.2 with enclosing := e.2.enclosing.map fun i => x.moved.getD i 0 }])
  moved := x.moved ++ [(x.runs e.1).length]

def ofStaged (staged : List (Nat × Pass3Write)) : WriteIndex :=
  staged.foldl push { runs := fun _ => [], moved := [] }

end WriteIndex

structure RangeAnalysis where
  globalRanges : Ranges
  blockRanges : Nat → List (Nat × ValueRange)
  visit : Nat → Option Nat
  subtreeEnd : List (Option Nat)
  writes : Nat → List Pass3Write
  pass3InitialRanges : Ranges

namespace RangeAnalysis

/-- The index of what the walk has left; the ranges in scope at its end are those it has started
from. -/
def ofPass3 (blockRanges : Nat → List (Nat × ValueRange)) (s : Pass3) : RangeAnalysis where
  globalRanges := s.globalRanges
  blockRanges := blockRanges
  visit := s.visit
  subtreeEnd := s.subtreeEnd
  writes := (WriteIndex.ofStaged s.staged).runs
  pass3InitialRanges := s.currentRanges

def run (F : RangeFunction) (blockRanges : Nat → List (Nat × ValueRange)) (globalRanges : Ranges)
    (fuel : Nat) : Option RangeAnalysis := do
  let s ← TreeWalk.walkFrom F.dom.children (Pass3.enter F blockRanges) Pass3.leave fuel 0
    (.init globalRanges)
  pure (ofPass3 blockRanges s)

/-- `t` is in the subtree of the block with the number `block`. -/
def inSubtree (a : RangeAnalysis) (block t : Nat) : Bool :=
  block ≤ t && (a.subtreeEnd.getD block none).all fun last => t ≤ last

/-- The last write of a run at or before `t`. -/
def lastAt (run : List Pass3Write) (t : Nat) : Option Nat :=
  match partitionPoint run fun e => decide (e.block ≤ t) with
  | 0 => none
  | n + 1 => some n

/-- From there up the links, to the first write whose block has `t` in its subtree. -/
def climb (a : RangeAnalysis) (run : List Pass3Write) (t : Nat) : Option Nat :=
  LinkedLog.climb (fun i => run[i]?.bind (·.enclosing))
    (fun i => run[i]?.any fun e => a.inSubtree e.block t) run.length (lastAt run t)

def getRangeAt (F : RangeFunction) (a : RangeAnalysis) (v bb : Nat) : ValueRange :=
  match F.getConstInt v with
  | some c => .constant c
  | none =>
    match a.visit bb with
    | some t =>
      match (a.climb (a.writes v) t).bind ((a.writes v)[·]?) with
      | some e => e.range
      | none => (a.pass3InitialRanges v).getD (F.getRange a.globalRanges v)
    | none =>
      match (a.blockRanges bb).lookup v with
      | some r => r
      | none => F.getRange a.globalRanges v

end RangeAnalysis

/-! ## Copies of the scope -/

/-- What a walk knows that copies the whole scope at every block. -/
structure ScopeCopies where
  scopes : List Ranges
  globalRanges : Ranges
  scopeAt : Nat → Ranges
  refined : Nat → Nat → Bool

namespace ScopeCopies

def enter (F : RangeFunction) (blockRanges : Nat → List (Nat × ValueRange)) (s : ScopeCopies)
    (bb : Nat) : ScopeCopies :=
  let (scope, globalRanges) := F.enterDominatorBlock blockRanges s.globalRanges bb
    (s.scopes.headD fun _ => none)
  { scopes := scope.ranges :: s.scopes
    globalRanges := globalRanges
    scopeAt := Function.update s.scopeAt bb scope.ranges
    refined := Function.update s.refined bb fun v => scope.rollback.any (·.1 == v) }

def leave (s : ScopeCopies) (_bb : Nat) : ScopeCopies := { s with scopes := s.scopes.tail }

def init (globalRanges : Ranges) : ScopeCopies where
  scopes := [globalRanges]
  globalRanges := globalRanges
  scopeAt := fun _ _ => none
  refined := fun _ _ => false

/-- `d` is the nearest dominator of `bb` that has refined `v`. -/
structure Nearest (c : ScopeCopies) (dom : DominatorTree) (v bb d : Nat) : Prop where
  dominates : dom.dominates d bb = true
  refined : c.refined d v = true
  nearest : ∀ e, dom.dominates e bb = true → c.refined e v = true → dom.dominates e d = true

/-- The range of `v` at `bb` by the copies: the one that the nearest dominator of `bb` has
written, or else the one that pass 3 has started from. A block that pass 3 does not come to has
only what pass 2 has found for it. -/
def RangeAt (F : RangeFunction) (blockRanges : Nat → List (Nat × ValueRange))
    (globalRanges : Ranges) (c : ScopeCopies) (v bb : Nat) (r : ValueRange) : Prop :=
  match F.getConstInt v with
  | some k => r = .constant k
  | none =>
    if F.dom.isReachable bb then
      (∃ d, c.Nearest F.dom v bb d ∧ c.scopeAt d v = some r) ∨
        (∀ d, F.dom.dominates d bb = true → c.refined d v = false) ∧
          r = (globalRanges v).getD (F.getRange c.globalRanges v)
    else r = ((blockRanges bb).lookup v).getD (F.getRange c.globalRanges v)

end ScopeCopies

end Brass.Mir
