import Brass.Codegen.LinearScanSetup
import Brass.Util.SparseTable

/-!
# Pieces of live intervals

A piece is a window of instruction positions over the live interval of a register, with one
location: a register or a slot. The queries of `codegen/linear_scan_pieces.cpp` about pieces:
the uses in them, the first position two of them are both live at, the registers that
instructions inside block, and where to split.
-/

namespace Brass.Codegen

open Brass.Util

/-- `base` is the register, which is the place of its interval. A window reaches from
`fromPos` to `toPos`; the first and the last live position in it are `start` and `stop`. -/
structure AllocPiece where
  base : Nat
  fromPos : Nat
  toPos : Nat
  start : Nat
  stop : Nat
  reg : PReg := {}
  spilled : Bool := false
  seq : Nat
  deriving DecidableEq, Repr

def AllocPiece.inRegister (p : AllocPiece) : Bool := !p.spilled && p.reg.isValid

def limitBefore (blockedAt : Nat) : Nat := if blockedAt = kNever then kNever else blockedAt - 1

namespace ScanData

variable (d : ScanData)

def interval (v : Nat) : LiveInterval := d.intervals.getD v { vreg := {} }

def vreg (p : AllocPiece) : VReg := (d.interval p.base).vreg

def available : RegClass → List PReg
  | .gpr => d.availableGprs
  | .xmm => d.availableXmms

def constraints : RegClass → List (Nat × ConstraintWord)
  | .gpr => d.gprConstraints
  | .xmm => d.xmmConstraints

def calleeSaved (reg : PReg) : Bool :=
  match reg.regClass with
  | .gpr => d.calleeSavedGprs.getLsbD reg.code.toNat
  | .xmm => d.calleeSavedXmms.getLsbD reg.code.toNat

/-! ## Windows -/

/-- The last live position of a window that ends at `to'`. -/
def lastLive (segs : List LiveRangeSegment) (toPos : Nat) : Nat :=
  match (segs.take (partitionPoint segs (fun s => ¬ toPos < s.start))).getLast? with
  | none => toPos
  | some s => min s.stop toPos

def newPiece (base fromPos toPos seq : Nat) : AllocPiece :=
  let segs := (d.interval base).segments
  { base := base
    fromPos := fromPos
    toPos := toPos
    start := match segs[partitionPoint segs (fun s => s.stop < fromPos)]? with
      | none => fromPos
      | some s => max s.start fromPos
    stop := lastLive segs toPos
    seq := seq }

/-- A piece's segments, clamped to its window (`SegCursor`). -/
def clamped (p : AllocPiece) : List LiveRangeSegment :=
  let segs := (d.interval p.base).segments
  ((segs.drop (partitionPoint segs (fun s => s.stop < p.fromPos))).takeWhile
    (fun s => s.start ≤ p.toPos)).map (fun s => ⟨max s.start p.fromPos, min s.stop p.toPos⟩)

def pieceCovers (p : AllocPiece) (id : Nat) : Bool :=
  p.fromPos ≤ id && id ≤ p.toPos && (d.interval p.base).covers id

/-! ## Uses -/

def usesFrom (p : AllocPiece) (pos : Nat) : List UsePosition :=
  let uses := (d.interval p.base).usePositions
  (uses.drop (partitionPoint uses (fun u => u.instId < pos))).takeWhile
    (fun u => u.instId ≤ p.toPos)

def nextUse (p : AllocPiece) (pos : Nat) (regOnly : Bool) : Nat :=
  match (d.usesFrom p (max pos p.fromPos)).find? (fun u => !regOnly || u.requiresReg) with
  | none => kNever
  | some u => u.instId

def spanAt (pos : Nat) : Option BlockSpan :=
  (d.spans.take (partitionPoint d.spans (fun s => ¬ pos < s.start))).getLast?

/-- The position by which a holder of a register needs its value again: its next use, or the
end of the loop around `pos` if the loop reads it before. -/
def neededAgain (h : AllocPiece) (pos : Nat) : Nat :=
  let u := d.nextUse h pos true
  match d.spanAt pos with
  | none => u
  | some s =>
    let uses := (d.interval h.base).usePositions
    if s.depth = 0 ∨ pos > s.loopTo then u
    else if u ≠ kNever ∧ u ≤ s.loopTo then u
    else if !d.pieceCovers h s.loopTo then u
    else if ((uses.drop (partitionPoint uses (fun x => x.instId < s.loopFrom))).takeWhile
        (fun x => x.instId < pos)).any (fun x => x.requiresReg) then s.loopTo
    else u

def lastUseAtOrBefore (p : AllocPiece) (pos : Nat) : Nat :=
  let uses := (d.interval p.base).usePositions
  match (uses.take (partitionPoint uses (fun u => ¬ min pos p.toPos < u.instId))).getLast? with
  | none => kNever
  | some u => if u.instId ≥ p.fromPos then u.instId else kNever

/-! ## Intersections -/

/-- The first position at which two lists of segments overlap strictly. -/
def meetFrom : Nat → List LiveRangeSegment → List LiveRangeSegment → Nat
  | fuel + 1, x :: xs, y :: ys =>
    if x.start < y.stop ∧ y.start < x.stop then max x.start y.start
    else if x.stop < y.stop then meetFrom fuel xs (y :: ys)
    else meetFrom fuel (x :: xs) ys
  | _, _, _ => kNever

def firstIntersection (a b : AllocPiece) : Nat :=
  if a.stop ≤ b.start ∨ b.stop ≤ a.start then kNever
  else meetFrom ((d.clamped a).length + (d.clamped b).length) (d.clamped a) (d.clamped b)

/-! ## Blocked registers -/

/-- The registers that the value's own operands at a position name. -/
def ownFixedRegs (p : AllocPiece) (pos : Nat) : BitVec 32 :=
  let v := d.vreg p
  let uses := (d.interval p.base).usePositions
  let fixed := ((uses.drop (partitionPoint uses (fun u => u.instId < pos))).takeWhile
    (fun u => u.instId = pos)).map (fun u => u.fixedReg)
  let copied := (d.hints.atPreg.filter (fun h => h.1 = (p.base, pos))).map Prod.snd
  maskOf ((fixed ++ copied).filter (fun r => r.isValid && r.regClass == v.regClass))

/-- The registers that a piece never takes: the index of a memory operand takes neither R12
nor RSP. -/
def alwaysBlocked (p : AllocPiece) : BitVec 32 :=
  if (d.vreg p).regClass = .gpr then
    d.reservedGprs |||
      (if d.arch = .x64 ∧ p.base ∈ d.memIndex then regBit 12 ||| regBit 4 else 0)
  else 0

/-- A vector value that no callee-saved register holds in full. -/
def fprWiderThanCalleeSaved (v : VReg) : Bool :=
  v.regClass == .xmm && decide (v.size > (if d.arch = .aarch64 then 8 else 16))

/-- `constraint_or_`: the union of the words of the `2 ^ k` indices from `i` on. -/
def orLevel (words : List (BitVec 32)) : Nat → Nat → BitVec 32 :=
  sparse (· ||| ·) (fun i => words.getD i 0)

/-- The highest level at `i` below which no word meets `want`. -/
def levelUp (words : List (BitVec 32)) (i stop : Nat) (want : BitVec 32) : Nat → Nat → Nat
  | 0, k => k
  | fuel + 1, k =>
    if 2 ^ (k + 1) ≤ words.length ∧ i + 2 ^ (k + 1) ≤ stop ∧ orLevel words (k + 1) i &&& want = 0
    then levelUp words i stop want fuel (k + 1)
    else k

/-- The first index in `[i, stop)` whose word meets `want`, or `stop`. -/
def firstConstrained (words : List (BitVec 32)) (stop : Nat) (want : BitVec 32) : Nat → Nat → Nat
  | 0, _ => stop
  | fuel + 1, i =>
    if i < stop then
      if orLevel words 0 i &&& want ≠ 0 then i
      else firstConstrained words stop want fuel
        (i + 2 ^ levelUp words i stop want words.length 0)
    else stop

/-- The registers still without a limit, and the limits so far. -/
structure Limits where
  remaining : BitVec 32
  out : List Nat

def Limits.hit (l : Limits) (mask : BitVec 32) (pos : Nat) : Limits where
  remaining := l.remaining &&& ~~~mask
  out := l.out.mapIdx (fun r x => if mask.getLsbD r then pos else x)

def blockedBy (p : AllocPiece) (wide : Bool) (pos : Nat) (w : ConstraintWord) : BitVec 32 :=
  w.clob ||| (if wide then w.call else 0) ||| (w.pin &&& ~~~(d.ownFixedRegs p pos))

/-- The constrained instructions of one segment, from index `i` on. -/
def limitsIn (p : AllocPiece) (wide : Bool) (cs : List (Nat × ConstraintWord))
    (words : List (BitVec 32)) (stop : Nat) : Nat → Nat → Limits → Limits
  | 0, _, l => l
  | fuel + 1, i, l =>
    if i < stop ∧ l.remaining ≠ 0 then
      let i := firstConstrained words stop l.remaining words.length i
      match cs[i]? with
      | none => l
      | some (pos, w) =>
        if i = stop then l
        else limitsIn p wide cs words stop fuel (i + 1)
          (l.hit (d.blockedBy p wide pos w &&& l.remaining) pos)
    else l

/-- `reg_limits`: for each register of the piece's class the first position in the piece at
which an instruction blocks it. -/
def regLimits (p : AllocPiece) : List Nat :=
  let v := d.vreg p
  let wide := d.fprWiderThanCalleeSaved v
  let poolMask := maskOf (d.available v.regClass)
  let cs := d.constraints v.regClass
  let words := cs.map (fun c => c.2.clob ||| c.2.pin ||| (if wide then c.2.call else 0))
  let start : Limits := { remaining := poolMask, out := List.replicate 32 kNever }
  ((d.clamped p).foldl (fun l s =>
    if l.remaining = 0 then l
    else
      let i := partitionPoint cs (fun c => c.1 < s.start)
      let stop := i + partitionPoint (cs.drop i) (fun c => ¬ s.stop < c.1)
      d.limitsIn p wide cs words stop (stop - i) i l)
    (start.hit (d.alwaysBlocked p &&& poolMask) 0)).out

/-! ## Split positions -/

/-- Of two spans the one entered at the least depth, the later one among equals. -/
def betterSpan (a b : Nat) : Nat :=
  let depth := fun i => (d.spans[i]?.map BlockSpan.entryDepth).getD 0
  if depth a ≠ depth b then (if depth a < depth b then a else b) else max a b

/-- The start of a block entered at a lesser depth than `hi`, or `hi`. -/
def shallowest (lo hi : Nat) : Nat :=
  let a := partitionPoint d.spans (fun s => s.start < lo + 1)
  let b := partitionPoint d.spans (fun s => ¬ hi + 1 < s.start)
  if a < b then
    -- `depth_rmq_`
    match d.spans[sparseQuery d.betterSpan id a b]? with
    | none => hi
    | some s =>
      if s.entryDepth < loopDepthAt d.ranges (hi - 1) ∨ s.start - 1 = hi then s.start - 1 else hi
  else hi

/-- Not between two branches of a block to one target. -/
def outsideWindow (lo best : Nat) : Nat :=
  match (d.noSplitWindows.take
      (partitionPoint d.noSplitWindows (fun w => ¬ best < w.1))).getLast? with
  | none => best
  | some w => if best < w.2 then (if w.1 - 1 ≥ lo then w.1 - 1 else kNever) else best

/-- An odd position in `[lo, hi]` to split at. -/
def splitPosition (lo hi : Nat) : Nat :=
  let lo := if lo % 2 = 0 then lo + 1 else lo
  let hi' := if hi % 2 = 0 then hi - 1 else hi
  if hi = 0 ∨ lo > hi' then kNever else d.outsideWindow lo (d.shallowest lo hi')

end ScanData

end Brass.Codegen
