import Brass.Codegen.AllocPiece

/-!
# The linear scan

The scan of `codegen/linear_scan_pieces.cpp`. Pieces are taken in the order of their starts.
Each gets a register free for all of it, or one free for a prefix that holds a use (the rest
is split off and scanned later), or the register of holders that are split and wait in their
slots, or its own slot. What waits in a slot goes back to the scan before its next use, or
at a block that a path enters with the value in a register (`registerReentry`).

The heap of pieces to scan is a list from which the least piece is taken. Slots are not
numbered here: a spilled piece is in the slot of its value.
-/

namespace Brass.Codegen

open Brass.Util

structure ScanState where
  pieces : List AllocPiece := []
  vregPieces : List (List Nat)
  active : List Nat := []
  unhandled : List Nat := []
  unsplittable : List Bool
  deriving DecidableEq

namespace ScanState

def piece (s : ScanState) (i : Nat) : AllocPiece := s.pieces.getD i ⟨0, 0, 0, 0, 0, {}, false, 0⟩

def setPiece (s : ScanState) (i : Nat) (f : AllocPiece → AllocPiece) : ScanState :=
  { s with pieces := s.pieces.modify i f }

def pushUnhandled (s : ScanState) (i : Nat) : ScanState := { s with unhandled := s.unhandled ++ [i] }

def isUnsplittable (s : ScanState) (v : Nat) : Bool := s.unsplittable.getD v false

/-- The pieces of a register, in the order of their windows. -/
def piecesOf (s : ScanState) (v : Nat) : List Nat := s.vregPieces.getD v []

def spill (s : ScanState) (i : Nat) : ScanState :=
  s.setPiece i (fun p => { p with spilled := true, reg := {} })

def assign (s : ScanState) (i : Nat) (reg : PReg) : ScanState :=
  { s.setPiece i (fun p => { p with reg := reg, spilled := false }) with active := s.active ++ [i] }

end ScanState

open ScanState

namespace ScanData

variable (d : ScanData)

/-- `split_piece`: piece `i` keeps its window up to `q`, the new piece takes the rest. -/
def splitPiece (s : ScanState) (i q : Nat) : Nat × ScanState :=
  let p := s.piece i
  let right := s.pieces.length
  let list := s.piecesOf p.base
  let at' := partitionPoint list (fun k =>
    ¬ q < ((s.pieces.modify i (fun p => { p with toPos := q })).getD k (s.piece k)).fromPos)
  (right,
    { s with
      pieces := s.pieces.modify i (fun p =>
        { p with toPos := q, stop := lastLive (d.interval p.base).segments q }) ++
          [d.newPiece p.base q p.toPos right]
      vregPieces := s.vregPieces.set p.base (list.take at' ++ right :: list.drop at') })

/-! ## Waiting in a slot -/

def inRegisterAt (s : ScanState) (v pos : Nat) : Bool :=
  let list := s.piecesOf v
  match (list.take (partitionPoint list (fun i => ¬ pos < (s.piece i).fromPos))).getLast? with
  | none => false
  | some i => pos ≤ (s.piece i).toPos && (s.piece i).inRegister

/-- The position before the first block in the piece that a path enters with the value in a
register, from a block that ends before the piece. -/
def registerReentry (s : ScanState) (p : AllocPiece) (limit : Nat) : Nat :=
  match d.spanAt p.start with
  | none => kNever
  | some _ =>
    let later := (d.spans.drop (partitionPoint d.spans (fun b => ¬ p.start + 1 < b.start))).takeWhile
      (fun b => b.start ≤ limit)
    match (later.take 16).find? (fun b =>
      b.predEnds.any (fun e => e < p.start && inRegisterAt s p.base e)) with
    | none => kNever
    | some b => b.start - 1

/-- Where `spill_and_requeue` splits piece `i`, which waits in its slot. -/
def requeueAt (s : ScanState) (i after : Nat) : Option Nat :=
  let p := s.piece i
  if s.isUnsplittable p.base then none
  else
    let lo := max p.start after + 1
    let u := d.nextUse p (lo + 1) true
    let r := d.registerReentry s p (if u = kNever then p.stop else u)
    let range := if r ≠ kNever ∧ r > p.start then (p.start + 1, r)
      else (lo, if u = kNever then kNever else u - 1)
    if range.2 = kNever then none
    else
      let q := d.splitPosition range.1 range.2
      if q = kNever ∨ q ≤ p.start ∨ q ≥ p.stop then none else some q

def spillAndRequeue (s : ScanState) (i after : Nat) : ScanState :=
  let s := s.spill i
  match d.requeueAt s i after with
  | none => s
  | some q =>
    let (right, s) := d.splitPiece s i q
    s.pushUnhandled right

/-- Where `evict_from` splits the active piece `i`. -/
def evictAt (s : ScanState) (i pos : Nat) : Option Nat :=
  let a := s.piece i
  let last := if pos = 0 then kNever else d.lastUseAtOrBefore a (pos - 1)
  let lo := max (a.start + 1) (if last = kNever then 0 else last + 1)
  let q := if lo ≤ pos then d.splitPosition lo pos else kNever
  if q = kNever ∨ q ≤ a.start ∨ q ≥ a.stop then none else some q

/-- `evict_from`: the active piece `i` gives up its register from `pos` on. -/
def evictFrom (pos : Nat) (s : ScanState) (i : Nat) : ScanState :=
  let s := { s with active := s.active.filter (· ≠ i) }
  if s.isUnsplittable (s.piece i).base then s.spill i
  else
    match d.evictAt s i pos with
    | none => d.spillAndRequeue s i pos
    | some q =>
      let (right, s) := d.splitPiece s i q
      d.spillAndRequeue s right pos

/-! ## Hints -/

/-- `hint_regs`: registers of the pool, each once. The piece is asked about by a copy of it,
so no piece of the list is that one. -/
def hintRegs (s : ScanState) (p : AllocPiece) : List PReg :=
  let v := d.vreg p
  let pool := maskOf (d.available v.regClass)
  let own := ((s.piecesOf p.base).map s.piece).filter (fun q => q.toPos = p.fromPos ∧ ¬ q.spilled)
  let fixed := d.usesFrom p p.fromPos
  let partners := (d.hints.coalesce.filter (fun h => h.1 = p.base)).map Prod.snd
  let joined := (partners.flatMap (fun v => (s.piecesOf v.id.toNat).map s.piece)).filter (fun q =>
    q.inRegister ∧ q.start ≤ p.stop + 1 ∧ p.start ≤ q.stop + 1)
  let wanted := own.map AllocPiece.reg ++ fixed.map UsePosition.fixedReg ++
    (d.hints.fixedPreg.filter (fun h => h.1 = p.base)).map Prod.snd ++ joined.map AllocPiece.reg
  wanted.foldl (fun acc r =>
    if r.isValid ∧ r.regClass = v.regClass ∧ r.code < 32 ∧ pool.getLsbD r.code.toNat ∧ r ∉ acc then
      acc ++ [r]
    else acc) []

/-! ## A free register -/

/-- The active piece `a` limits its register to where it first meets the piece `p`. -/
def stopAtActive (s : ScanState) (p : AllocPiece) (limits : List Nat) (a : Nat) : List Nat :=
  let other := s.piece a
  if (d.vreg other).regClass ≠ (d.vreg p).regClass ∨ other.reg.code ≥ 32 then limits
  else
    let c := d.firstIntersection other p
    if c = kNever then limits else limits.modify other.reg.code.toNat (min c)

/-- For each register how far a piece may reach in it. -/
def freeLimits (s : ScanState) (p : AllocPiece) : List Nat :=
  s.active.foldl (d.stopAtActive s p) ((d.regLimits p).map limitBefore)

def limitOf (limits : List Nat) (r : PReg) : Nat := limits.getD r.code.toNat 0

/-- The first register that is free for all of the piece: a hint, a caller-saved one, then a
callee-saved one. -/
def wholeRegister (limits : List Nat) (hints pool : List PReg) (p : AllocPiece) : Option PReg :=
  let whole := fun r => decide (limitOf limits r ≥ p.stop)
  ((hints.find? whole).or (pool.find? (fun r => !d.calleeSaved r && whole r))).or
    (pool.find? (fun r => d.calleeSaved r && whole r))

/-- The register free for the longest prefix. -/
def longestRegister (limits : List Nat) (regs : List PReg) : Option PReg × Nat :=
  regs.foldl (fun best r =>
    if limitOf limits r > best.2 then (some r, limitOf limits r) else best) (none, 0)

def tryAllocateFree (s : ScanState) (i : Nat) : Option ScanState :=
  let p := s.piece i
  let pool := d.available (d.vreg p).regClass
  let maxQ := d.freeLimits s p
  let hints := d.hintRegs s p
  match d.wholeRegister maxQ hints pool p with
  | some r => some (s.assign i r)
  | none =>
    if s.isUnsplittable p.base then none
    else
      match longestRegister maxQ (hints ++ pool) with
      | (none, _) => none
      | (some best, bestQ) =>
        let u := d.nextUse p p.start true
        if bestQ ≤ p.start ∨ u = kNever ∨ u ≥ bestQ then none
        else
          let q := d.splitPosition (u + 1) bestQ
          if q = kNever ∨ q ≤ p.start ∨ q ≥ p.stop then none
          else
            let (right, s) := d.splitPiece s i q
            some ((s.assign i best).pushUnhandled right)

/-! ## A register in use -/

/-- Per register: how far an instruction or a value that keeps its register lets a piece
reach, the position by which a holder needs it again, the cost of the holders, and they. -/
structure Blocked where
  hardQ : List Nat
  useQ : List Nat
  wholeCost : List Nat
  holders : List (List Nat)

/-- The active piece `a` against the piece `p`. -/
def addHolder (s : ScanState) (p : AllocPiece) (wholeOnly : Bool) (b : Blocked) (a : Nat) :
    Blocked :=
  let other := s.piece a
  if (d.vreg other).regClass ≠ (d.vreg p).regClass ∨ other.reg.code ≥ 32 then b
  else
    let c := d.firstIntersection other p
    let r := other.reg.code.toNat
    if c = kNever then b
    else if s.isUnsplittable other.base then
      if wholeOnly then
        { b with
          wholeCost := b.wholeCost.modify r (· + d.wholeLifeCost.getD other.base 0)
          holders := b.holders.modify r (· ++ [a]) }
      else if d.onlyCopied.getD other.base false then
        { b with holders := b.holders.modify r (· ++ [a]) }
      else { b with hardQ := b.hardQ.modify r (min c), useQ := b.useQ.modify r (min c) }
    else
      { b with
        holders := b.holders.modify r (· ++ [a])
        useQ := b.useQ.modify r (min (d.neededAgain other p.start)) }

def blocked (s : ScanState) (p : AllocPiece) (wholeOnly : Bool) : Blocked :=
  let hard := (d.regLimits p).map limitBefore
  s.active.foldl (d.addHolder s p wholeOnly)
    ⟨hard, hard, List.replicate 32 0, List.replicate 32 []⟩

def Blocked.holdersOf (b : Blocked) (r : PReg) : List Nat := b.holders.getD r.code.toNat []

/-- A value that cannot be split takes the register whose holders cost least, if that is less
than its own life in its slot. -/
def cheapestWhole (b : Blocked) (regs : List PReg) (p : AllocPiece) (cost : Nat) : Option PReg :=
  (regs.foldl (fun (best : Option PReg × Nat) r =>
    if limitOf b.hardQ r < p.stop then best
    else if limitOf b.wholeCost r < best.2 then (some r, limitOf b.wholeCost r)
    else best) (none, cost)).1

/-- A move at a split that opens a block runs on the edges into it. -/
def weightSplit (q : Nat) : Nat :=
  match d.spans[partitionPoint d.spans (fun s => s.start < q + 1)]? with
  | none => weightAt d.ranges q
  | some s => if s.start = q + 1 then depthWeight s.entryDepth else weightAt d.ranges q

/-- The span a piece starts in; one split off at a block boundary belongs to the next block. -/
def spanOf (p : AllocPiece) : Option BlockSpan :=
  match d.spanAt p.start with
  | some s => if p.start ≤ s.stop then some s else
      d.spans[partitionPoint d.spans (fun s => ¬ p.start < s.start)]?
  | none => d.spans[partitionPoint d.spans (fun s => ¬ p.start < s.start)]?

/-- What the piece `p` that wants a register knows of its place: the depth it starts at, the
end of the loop it starts in, its first use and the depth of that. -/
structure Wish where
  depthHere : Nat
  loopTo : Nat
  first : Nat
  depthUse : Nat

def wish (p : AllocPiece) : Wish :=
  let span := d.spanOf p
  let depthHere := (span.map BlockSpan.depth).getD 0
  let first := d.nextUse p p.start true
  { depthHere := depthHere
    loopTo := match span with
      | some s => if s.depth > 0 then s.loopTo else kNever
      | none => kNever
    first := first
    depthUse := if first = kNever then depthHere else loopDepthAt d.ranges first }

/-- What evicting the holder `h` costs, and whether it is invariant in the loop of the use. -/
def evictCost (s : ScanState) (p : AllocPiece) (w : Wish) (a : Nat) : Nat × Bool :=
  let h := s.piece a
  if s.isUnsplittable h.base then
    (((d.interval h.base).usePositions.map (fun u => weightAt d.ranges u.instId)).sum, false)
  else
    let again := d.neededAgain h p.start
    let reload := if again = kNever then 0 else weightAt d.ranges again
    let def' := d.defPos.getD h.base kNever
    let defDepth := if def' = kNever then kNever else loopDepthAt d.ranges def'
    let invariant := !(defDepth == kNever || decide (defDepth ≥ w.depthUse))
    if def' ≠ kNever ∧ defDepth < w.depthHere then (reload, invariant)
    else
      let last := if p.start = 0 then kNever else d.lastUseAtOrBefore h (p.start - 1)
      let lo := max (h.start + 1) (if last = kNever then 0 else last + 1)
      let q := if lo ≤ p.start then d.splitPosition lo p.start else kNever
      let store := if q = kNever then weightAt d.ranges p.start else d.weightSplit q
      let store := if again ≠ kNever ∧ w.loopTo ≠ kNever ∧ d.pieceCovers h w.loopTo then
        max store (weightAt d.ranges again) else store
      (reload + store, invariant)

/-- The cost of a register's holders, and whether all of them are invariant. -/
def registerCost (s : ScanState) (p : AllocPiece) (w : Wish) (holders : List Nat) : Nat × Bool :=
  let costs := holders.map (d.evictCost s p w)
  ((costs.map Prod.fst).sum, !holders.isEmpty && costs.all Prod.snd)

/-- The choice so far: a register, when its holders need it again, and what they cost. -/
structure Choice where
  best : Option PReg := none
  bestUse : Nat := 0
  bestCost : Nat := 0

def considerRegister (s : ScanState) (p : AllocPiece) (b : Blocked) (w : Wish) (ownCost : Nat)
    (ch : Choice) (r : PReg) : Choice :=
  let (cost, invariantOnly) := d.registerCost s p w (b.holdersOf r)
  let use := limitOf b.useQ r
  if limitOf b.hardQ r ≤ p.start then ch
  else if use < w.first ∧ ¬ (invariantOnly ∧ cost < ownCost) then ch
  else if ch.best = none ∨ cost < ch.bestCost ∨ (cost = ch.bestCost ∧ use > ch.bestUse) then
    ⟨some r, use, cost⟩
  else ch

/-- What the value itself costs in its slot, every iteration. -/
def ownCost (p : AllocPiece) (w : Wish) : Nat :=
  if w.depthUse > 0 ∧ w.first ≠ kNever then
    let def' := d.defPos.getD p.base kNever
    weightAt d.ranges w.first +
      if def' = kNever ∨ loopDepthAt d.ranges def' ≥ w.depthUse then weightAt d.ranges w.first else 0
  else 0

/-- A value that waits in its slot is read from there if a register would pay back less than it
costs. -/
def staysInSlot (s : ScanState) (i : Nat) (w : Wish) (ownCost : Nat) (ch : Choice) : Bool :=
  let p := s.piece i
  if w.first > p.start ∧ ch.bestUse ≥ w.first then
    let waits := (s.piecesOf p.base).any (fun k =>
      k ≠ i && (s.piece k).toPos = p.fromPos && (s.piece k).spilled)
    let uses := d.usesFrom p p.fromPos
    let startsWithDef := (uses.head?.map UsePosition.isDef).getD false
    if waits ∧ ¬ startsWithDef then
      let near := uses.takeWhile (fun u => u.instId < ch.bestUse)
      let stay := (ownCost - weightAt d.ranges w.first) +
        ((near.filter (fun u => u.requiresReg && !u.isDef)).map
          (fun u => weightAt d.ranges u.instId)).sum
      let fixed := near.any (fun u => u.instId = w.first && u.fixedReg.isValid)
      !fixed && decide (stay ≤ ch.bestCost)
    else false
  else false

/-- The holders of the register that still meet the piece give it up. -/
def evictHolders (i pos : Nat) (s : ScanState) (holders : List Nat) : ScanState :=
  holders.foldl (fun s a =>
    if d.firstIntersection (s.piece a) (s.piece i) ≠ kNever then d.evictFrom pos s a else s) s

/-- The piece takes the register, up to where it is blocked. -/
def takeRegister (s : ScanState) (i : Nat) (b : Blocked) (first : Nat) (best : PReg) : ScanState :=
  let p := s.piece i
  let hard := limitOf b.hardQ best
  if hard < p.stop then
    let q := if hard > first then d.splitPosition (first + 1) hard else kNever
    if q = kNever ∨ q ≤ p.start ∨ q ≥ p.stop then d.spillAndRequeue s i p.start
    else
      let (right, s) := d.splitPiece s i q
      d.evictHolders i p.start ((s.pushUnhandled right).assign i best) (b.holdersOf best)
  else d.evictHolders i p.start (s.assign i best) (b.holdersOf best)

def allocateBlocked (s : ScanState) (i : Nat) : ScanState :=
  let p := s.piece i
  let regs := d.hintRegs s p ++ d.available (d.vreg p).regClass
  if s.isUnsplittable p.base then
    let b := d.blocked s p true
    match cheapestWhole b regs p (d.wholeLifeCost.getD p.base 0) with
    | none => s.spill i
    | some best => ((b.holdersOf best).foldl (d.evictFrom p.start) s).assign i best
  else
    let b := d.blocked s p false
    let w := d.wish p
    let own := d.ownCost p w
    let ch := regs.foldl (d.considerRegister s p b w own) {}
    match ch.best with
    | none => d.spillAndRequeue s i p.start
    | some best =>
      if w.first = kNever then d.spillAndRequeue s i p.start
      else if d.staysInSlot s i w own ch then d.spillAndRequeue s i w.first
      else d.takeRegister s i b w.first best

/-! ## The scan -/

/-- `later`, as an order: by start, end and creation. -/
def before (s : ScanState) (a b : Nat) : Bool :=
  let x := s.piece a
  let y := s.piece b
  if x.start ≠ y.start then x.start < y.start
  else if x.stop ≠ y.stop then x.stop < y.stop
  else x.seq < y.seq

def nextPiece (s : ScanState) : Option Nat :=
  match s.unhandled with
  | [] => none
  | i :: rest => some (rest.foldl (fun m k => if before s k m then k else m) i)

/-- One round of the loop of `run_scan`. -/
def scanStep (s : ScanState) : Option ScanState :=
  (nextPiece s).map (fun i =>
    let pos := (s.piece i).start
    let s := { s with
      unhandled := s.unhandled.filter (· ≠ i)
      active := s.active.filter (fun a => ¬ (s.piece a).stop ≤ pos) }
    let v := d.vreg (s.piece i)
    if v.isGcref ∧ (d.interval (s.piece i).base).spansCall then s.spill i
    else
      match d.tryAllocateFree s i with
      | some s => s
      | none => d.allocateBlocked s i)

/-! ## Values live across calls -/

/-- A candidate for a callee-saved register: its piece and the weight of its reads. -/
abbrev Cand := Nat × Nat

/-- A value live across two or more calls is not split. -/
def spansCalls (calls : List Nat) (iv : LiveInterval) : Bool :=
  decide (2 ≤ (iv.segments.map (fun sg =>
    partitionPoint calls (fun c => ¬ sg.stop < c) - partitionPoint calls (fun c => c < sg.start))).sum)

def settleOne (calls : List Nat) (st : ScanState × List Cand) (i : Nat) : ScanState × List Cand :=
  let (s, cands) := st
  let p := s.piece i
  let v := d.vreg p
  let iv := d.interval p.base
  if v.regClass ≠ .gpr ∨ v.isGcref ∨ ¬ iv.spansCall then (s, cands)
  else
    let s := if spansCalls calls iv then { s with unsplittable := s.unsplittable.set p.base true }
      else s
    let weight := (iv.usePositions.map (fun u => weightAt d.ranges u.instId)).sum
    if iv.usePositions.any (fun u => u.fixedReg.isValid) ∨ weight < 64 then (s, cands)
    else (s, cands ++ [(i, weight)])

/-- A candidate takes the first callee-saved register that nothing blocks in its life. -/
def takeCalleeSaved (st : ScanState × List Nat) (c : Cand) : ScanState × List Nat :=
  let (s, taken) := st
  let p := s.piece c.1
  let limits := d.regLimits p
  let free := d.availableGprs.find? (fun r =>
    d.calleeSaved r && limitOf limits r == kNever &&
      !taken.any (fun t => (s.piece t).reg == r && d.firstIntersection (s.piece t) p != kNever))
  match free with
  | none => (s, taken)
  | some r => ({ s with unsplittable := s.unsplittable.set p.base true }.assign c.1 r, taken ++ [c.1])

def settleCallSpanning (s : ScanState) : ScanState :=
  let calls := (d.gprConstraints.filter (fun c => c.2.call ≠ 0)).map Prod.fst
  let (s, cands) := s.unhandled.foldl (d.settleOne calls) (s, [])
  let sorted := cands.insertionSort (fun a b =>
    a.2 > b.2 ∨ (a.2 = b.2 ∧ (s.piece a.1).seq ≤ (s.piece b.1).seq))
  let (s, taken) := sorted.foldl d.takeCalleeSaved (s, [])
  { s with unhandled := s.unhandled.filter (· ∉ taken) }

/-- A piece for the whole life of each register that is live anywhere. -/
def addInterval (s : ScanState) (iv : LiveInterval × Nat) : ScanState :=
  if ¬ iv.1.vreg.isValid ∨ iv.1.startId > iv.1.endId ∨ iv.1.segments = [] then s
  else
    let i := s.pieces.length
    { s with
      pieces := s.pieces ++ [d.newPiece iv.2 0 kNever i]
      vregPieces := s.vregPieces.modify iv.2 (· ++ [i]) }.pushUnhandled i

def initialState : ScanState :=
  d.settleCallSpanning (d.intervals.zipIdx.foldl d.addInterval
    { vregPieces := List.replicate d.intervals.length [], unsplittable := d.unsplittable })

/-- The states that the scan passes through. -/
inductive ScanRun : ScanState → Prop
  | init : ScanRun d.initialState
  | step {s t : ScanState} : ScanRun s → d.scanStep s = some t → ScanRun t

/-- The state after at most `fuel` rounds. -/
def runScan (s : ScanState) : Nat → ScanState
  | 0 => s
  | fuel + 1 =>
    match d.scanStep s with
    | none => s
    | some t => runScan t fuel

end ScanData

end Brass.Codegen
