import Brass.Codegen.LiveRange
import Brass.Codegen.RegisterConstraints

/-!
# The data of the linear scan

What `LinearScanAllocator::allocate` computes before it scans (`codegen/linear_scan.cpp`,
`codegen/linear_scan_resolve.cpp`): hints from copies, the blocks by position, the uses that
need no register, the values that keep one location for their whole life, and the costs of a
whole life in a slot. `ScanData.of` puts it together for a function.

A cost is a sum of powers of eight that a `double` represents exactly; here it is a natural
number.
-/

namespace Brass.Codegen

open Brass.Util

/-! ## Hints -/

/-- `coalesce_hints_`, `fixed_preg_hints_` and `vreg_at_preg_hints_`, each with the register
the hint is for. -/
structure Hints where
  coalesce : List (Nat × VReg) := []
  fixedPreg : List (Nat × PReg) := []
  atPreg : List ((Nat × Nat) × PReg) := []
  deriving DecidableEq

namespace Hints

def partners (h : Hints) (a b : VReg) : Hints :=
  { h with coalesce := h.coalesce ++ [(a.id.toNat, b), (b.id.toNat, a)] }

def fixed (h : Hints) (v : VReg) (id : Nat) (p : PReg) : Hints :=
  { h with
    fixedPreg := h.fixedPreg ++ [(v.id.toNat, p)]
    atPreg := h.atPreg ++ [((v.id.toNat, id), p)] }

def copy (h : Hints) (id : Nat) (d u : LirOperand) : Hints :=
  match d.kind, u.kind with
  | .vreg dst, .vreg src =>
    if dst.regClass = src.regClass ∧ dst.id ≠ src.id then h.partners dst src else h
  | .vreg dst, .preg p => h.fixed dst id p
  | .preg p, .vreg src => h.fixed src id p
  | _, _ => h

/-- `lea dst, [base + index]` -/
def lea (h : Hints) (dst : VReg) (m : LirMem) : Hints :=
  let plain := m.scale = .one ∧ m.disp = 0
  let h := if m.baseVreg.isValid ∧ dst.regClass = m.baseVreg.regClass ∧ dst.id ≠ m.baseVreg.id ∧
      (¬ m.indexVreg.isValid ∨ plain) then h.partners dst m.baseVreg else h
  if m.indexVreg.isValid ∧ m.baseVreg.isValid ∧ plain ∧ dst.regClass = m.indexVreg.regClass ∧
      dst.id ≠ m.indexVreg.id ∧ m.indexVreg.id ≠ m.baseVreg.id then h.partners dst m.indexVreg
  else h

def addInst (h : Hints) (i : Nat × Inst) : Hints :=
  let (id, inst) := i
  match inst.opcode with
  | .mov | .mov32 | .movsd | .movss | .movaps | .vmovaps | .vmovups =>
    match inst.defs, inst.uses with
    | d :: _, u :: _ => h.copy id d u
    | _, _ => h
  | .parallelCopy => (inst.defs.zip inst.uses).foldl (fun h c => h.copy id c.1 c.2) h
  | .lea =>
    match inst.defs.map LirOperand.vreg?, inst.uses.map LirOperand.mem? with
    | [some dst], [some m] => h.lea dst m
    | _, _ => h
  | _ => h

end Hints

def buildCoalesceHints (fn : LirFunction) : Hints := fn.allNumbered.foldl Hints.addInst {}

/-! ## Blocks by position -/

/-- `predEnds`: the last positions of the predecessors that are not empty. -/
structure BlockSpan where
  start : Nat
  stop : Nat
  depth : Nat
  entryDepth : Nat
  loopFrom : Nat
  loopTo : Nat
  predEnds : List Nat
  deriving DecidableEq, Repr

/-- The last range of the run of blocks at a depth or deeper that a list starts with. -/
def lastOfRun (depth : Nat) (ranges : List BlockRange) : Option BlockRange :=
  (ranges.takeWhile (fun r => depth ≤ r.loopDepth)).getLast?

/-- The span of the range `r`, the ranges before it reversed in `before`. -/
def blockSpan (fn : LirFunction) (before : List BlockRange) (r : BlockRange)
    (after : List BlockRange) : BlockSpan where
  start := r.startId
  stop := r.endId
  depth := r.loopDepth
  entryDepth := match before with
    | [] => r.loopDepth
    | prev :: _ => min r.loopDepth prev.loopDepth
  loopFrom := ((lastOfRun r.loopDepth before).getD r).startId
  loopTo := ((lastOfRun r.loopDepth after).getD r).endId
  predEnds := ((fn.preds r.block).filter (fun p => (fn.block p).instructions ≠ [])).map fn.endId

def buildBlockSpans (fn : LirFunction) : List BlockRange → List BlockRange → List BlockSpan
  | _, [] => []
  | before, r :: after =>
    blockSpan fn before r after :: buildBlockSpans fn (r :: before) after

/-! ## Uses read from a slot -/

def slotFoldWidth : LirOpcode → UInt8
  | .add | .sub | .and | .or | .xor | .cmp | .addsd | .subsd | .mulsd | .divsd => 8
  | .add32 | .sub32 | .and32 | .or32 | .xor32 | .cmp32 => 4
  | _ => 0

/-- The register that the last use of an instruction reads alone, at the width the emitter
reads from a slot. -/
def foldedUse (inst : Inst) : Option VReg :=
  match inst.uses.getLast? with
  | none => none
  | some src =>
    match src.vreg? with
    | none => none
    | some v =>
      let width := slotFoldWidth inst.opcode
      let shares := fun (op : LirOperand) => op.isMem || op.vreg? == some v
      if width ≠ 0 ∧ v.isValid ∧ src.size = width ∧ ¬ inst.uses.dropLast.any shares ∧
          ¬ inst.defs.any shares ∧
          ¬ (inst.useConstraint (inst.uses.length - 1)).fixedPreg.isValid then some v
      else none

/-- In a loop only a value defined outside the innermost loop around the use is read from its
slot. -/
def foldUseAt (ranges : List BlockRange) (id : Nat) (iv : LiveInterval) : LiveInterval :=
  let depth := loopDepthAt ranges id
  let invariant := depth = 0 ∨
    ¬ iv.usePositions.any (fun u => u.isDef && depth ≤ loopDepthAt ranges u.instId)
  if invariant then
    { iv with
      usePositions := iv.usePositions.map (fun u =>
        if u.instId = id ∧ ¬ u.isDef ∧ ¬ u.fixedReg.isValid then { u with requiresReg := false }
        else u) }
  else iv

def markFoldedUses (arch : Arch) (fn : LirFunction) (ranges : List BlockRange)
    (ivs : List LiveInterval) : List LiveInterval :=
  match arch with
  | .aarch64 => ivs
  | .x64 =>
    ((List.range fn.blocks.length).filter (fun b => !fn.isGuardExit b)).foldl (fun ivs b =>
      (fn.numbered b).foldl (fun ivs i =>
        match foldedUse i.2 with
        | some v => ivs.modify v.id.toNat (foldUseAt ranges i.1)
        | none => ivs) ivs) ivs

/-! ## Edges -/

def isUnconditionalEnd (inst : Inst) : Bool :=
  inst.opcode == .jmp || inst.opcode == .ret || inst.opcode == .trap || inst.opcode == .guardExit

inductive EdgePlace
  | endOfPred
  | startOfSucc
  | split
  | none
  deriving DecidableEq, Repr

structure Transfer where
  ways : Nat
  byJcc : Bool
  unplaceable : Bool

namespace LirFunction

variable (fn : LirFunction)

/-- The block falls into the next one. -/
def fallsInto (p s : Nat) : Bool :=
  match (fn.block p).instructions.getLast? with
  | none => false
  | some last => !isUnconditionalEnd last && p + 1 == s && decide (s < fn.blocks.length)

def transfers (p s : Nat) : Transfer :=
  let insts := (fn.block p).instructions
  let naming := insts.zipIdx.filter (fun e => e.1.namesLabel (fn.block s).id)
  { ways := naming.length + (if fn.fallsInto p s then 1 else 0)
    byJcc := naming.any (fun e => e.1.opcode == .jcc)
    unplaceable := naming.any (fun e =>
      e.1.opcode != .jcc && !(e.1.opcode == .jmp && e.2 + 1 == insts.length)) }

def landingPads : List UInt32 :=
  (fn.allNumbered.filter (fun i => i.2.isInvoke && i.2.rest.unwindBlockId != 0xFFFFFFFF)).map
    (fun i => i.2.rest.unwindBlockId)

def isEnteredImplicitly (b : Nat) : Bool :=
  (fn.block b).id ∈ fn.landingPads || (fn.resumeEntries.any (fun e => e.2 == (fn.block b).id))

def predCount (s : Nat) : Nat :=
  ((List.range fn.blocks.length).map (fun p => (fn.block p).successors.count s)).sum

def classifyEdge (p s : Nat) : EdgePlace :=
  if (fn.block p).instructions = [] then .none
  else
    let t := fn.transfers p s
    if t.ways = 0 ∨ t.unplaceable then .none
    else
      let leaving := (fn.block p).successors.countP (fun q =>
        !fn.isGuardExit q && (decide (0 < (fn.transfers p q).ways) || (fn.transfers p q).unplaceable))
      if leaving = 1 ∧ ¬ t.byJcc then .endOfPred
      else if fn.predCount s = 1 ∧ ¬ fn.isEnteredImplicitly s then .startOfSucc
      else .split

/-- The guard exits that more than one `Jcc` enters. -/
def sharedExits : List Inst :=
  let taken := (fn.allNumbered.filter (fun i => i.2.opcode == .jcc)).flatMap (fun i =>
    i.2.uses.filterMap LirOperand.label?)
  (fn.guardExits.filter (fun e => 2 ≤ taken.count e.1)).map Prod.snd

/-- The positions of the branches (or of the fall-through) from a block to a target. -/
def branchesTo (b s : Nat) : List Nat :=
  ((fn.numbered b).filter (fun i =>
    (i.2.opcode == .jcc || i.2.opcode == .jmp) && i.2.namesLabel (fn.block s).id)).map Prod.fst ++
    (if fn.fallsInto b s then [fn.endId b] else [])

/-- The positions from the first to the last of two branches of a block to one target. -/
def noSplitWindow (b : Nat) : Option (Nat × Nat) :=
  if (fn.block b).instructions.length < 2 ∨ fn.isGuardExit b then none
  else
    let spans := (fn.block b).successors.filterMap (fun s =>
      let branches := fn.branchesTo b s
      let first := branches.foldl min kNever
      let last := branches.foldl max 0
      if branches.length < 2 ∨ first = last then none else some (first, last))
    let lo := (spans.map Prod.fst).foldl min kNever
    let hi := (spans.map Prod.snd).foldl max 0
    if lo < hi then some (lo, hi) else none

/-- `no_split_windows_` -/
def noSplitWindows : List (Nat × Nat) :=
  ((List.range fn.blocks.length).filterMap fn.noSplitWindow).insertionSort
    (fun a b => a.1 < b.1 ∨ (a.1 = b.1 ∧ a.2 ≤ b.2))

/-- The registers that `mark_unsplittable_live_ins` marks at a block. -/
def unsplittableAt (table : List (List Nat)) (b : Nat) : List Nat :=
  if (fn.block b).instructions = [] then liveIn table b ++ fn.liveOut table b
  else
    (if fn.isEnteredImplicitly b then liveIn table b else []) ++
      (if fn.isGuardExit b then []
      else (fn.succs b).flatMap (fun s =>
        if !fn.isGuardExit s && !fn.isEnteredImplicitly s && fn.classifyEdge b s == .none then
          liveIn table s
        else []))

/-- Per register, whether it keeps one location for its whole life. -/
def markUnsplittable (table : List (List Nat)) : List Bool :=
  let marked := (fn.sharedExits.flatMap (fun exit =>
      exit.uses.flatMap (fun u => u.readVregs.filterMap fn.known))) ++
    (List.range fn.blocks.length).flatMap (fn.unsplittableAt table)
  fn.vregTable.zipIdx.map (fun v => v.1.isGcref || v.2 ∈ marked)

end LirFunction

/-! ## Costs -/

/-- `8 ^ min(depth, 6)` -/
def depthWeight (depth : Nat) : Nat := 1 <<< (3 * min depth 6)

def weightAt (ranges : List BlockRange) (pos : Nat) : Nat := depthWeight (loopDepthAt ranges pos)

/-- What keeping a value in its slot for its whole life costs. -/
def wholeLifeCost (ranges : List BlockRange) (iv : LiveInterval) : Nat :=
  ((iv.usePositions.filter (fun u => u.isDef || u.requiresReg)).map
    (fun u => weightAt ranges u.instId)).sum

/-- The position of a value's one definition. -/
def defPosition (iv : LiveInterval) : Nat :=
  match (iv.usePositions.filter (fun u => u.isDef)).map (fun u => u.instId) with
  | [] => kNever
  | d :: ds => if ds.all (· = d) then d else kNever

/-- Every read of the value that takes a register is a parallel copy's. -/
def onlyCopied (copyIds : List Nat) (iv : LiveInterval) : Bool :=
  iv.usePositions.all (fun u => u.isDef || !u.requiresReg || u.instId ∈ copyIds)

/-! ## The data of a function -/

structure ScanData where
  arch : Arch
  reservedGprs : BitVec 32
  calleeSavedGprs : BitVec 32
  calleeSavedXmms : BitVec 32
  availableGprs : List PReg
  availableXmms : List PReg
  intervals : List LiveInterval
  gprConstraints : List (Nat × ConstraintWord)
  xmmConstraints : List (Nat × ConstraintWord)
  memIndex : List Nat
  hints : Hints
  ranges : List BlockRange
  spans : List BlockSpan
  noSplitWindows : List (Nat × Nat)
  defPos : List Nat
  onlyCopied : List Bool
  wholeLifeCost : List Nat
  unsplittable : List Bool
  deriving DecidableEq

/-- Steps 0 and 1 of `allocate`. -/
def ScanData.of (fn : LirFunction) (cc : CallingConv) : ScanData :=
  let table := fn.liveTable
  let ranges := fn.blockRanges
  let intervals := markFoldedUses cc.arch fn ranges (fn.buildIntervals table)
  let copyIds := (fn.allNumbered.filter (fun i => i.2.opcode == .parallelCopy)).map Prod.fst
  { arch := cc.arch
    reservedGprs := fn.reservedGprs
    calleeSavedGprs := cc.calleeSavedGprs
    calleeSavedXmms := cc.calleeSavedXmms
    availableGprs := Brass.Codegen.availableGprs cc fn.reservedGprs
    availableXmms := Brass.Codegen.availableXmms cc
    intervals := intervals
    gprConstraints := constraintIndex cc fn .gpr
    xmmConstraints := constraintIndex cc fn .xmm
    memIndex := memIndexVregs fn
    hints := buildCoalesceHints fn
    ranges := ranges
    spans := buildBlockSpans fn [] ranges
    noSplitWindows := fn.noSplitWindows
    defPos := intervals.map defPosition
    onlyCopied := intervals.map (Brass.Codegen.onlyCopied copyIds)
    wholeLifeCost := intervals.map (Brass.Codegen.wholeLifeCost ranges)
    unsplittable := fn.markUnsplittable table }

end Brass.Codegen
