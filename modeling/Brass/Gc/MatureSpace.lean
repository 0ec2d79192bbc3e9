import Mathlib.Data.List.Sort

/-!
# The mature space

The mature blocks of `gc/heap_spaces.cpp` and their part of the lazy sweep in
`gc/heap_sweep_lazy.cpp`. Objects are bump-allocated into runs of free lines of a block. A
marking cycle's finish makes every block in use unswept by a new epoch; slices then sweep
the blocks from the top, and the allocator sweeps a few itself, from either end, when it
finds no free lines.

Addresses are bytes from `mature_lo`. The bit sets and byte arrays of a block are
functions of the granule or the line. A vector is the list of its entries from the back,
where it grows and shrinks. `unsweptBlocks` is an `Int`, so that a decrement that would
wrap in `size_t` is visible.
-/

namespace Brass.Gc.Mature

def kGranuleBytes : Nat := 8

def kHeaderBytes : Nat := 8

def kBlockBytes : Nat := 32768

def kLineBytes : Nat := 256

def kLinesPerBlock : Nat := 128

def kMaxMediumObjectBytes : Nat := 8192

/-- Free blocks that a sweep leaves committed at least. -/
def kRetainedFreeBlocks : Nat := 64

/-- The most blocks that one refill of the allocator sweeps. -/
def kAllocatorSweepBlocks : Nat := 4

/-- The most blocks that one release step decommits. -/
def kReleaseRunBlocks : Nat := 64

/-- The side metadata of a block. `size` stands for the headers in the block's memory: the
bytes of the object, its header included, whose payload starts at a granule. -/
structure BlockMeta where
  starts : Nat → Bool
  marks : Nat → Bool
  lineUsed : Nat → Bool
  lineMark : Nat → Bool
  size : Nat → Nat
  inUse : Bool
  committed : Bool
  sweepEpoch : UInt32

def BlockMeta.fresh : BlockMeta :=
  ⟨fun _ => false, fun _ => false, fun _ => false, fun _ => false, fun _ => 0, false, false, 0⟩

structure BumpRegion where
  cursor : Nat
  limit : Nat
  block : Option Nat
  nextLine : Nat
  deriving DecidableEq, Repr

def BumpRegion.none : BumpRegion := ⟨0, 0, Option.none, 0⟩

/-- The fields of `HeapState` that the mature space reads and other parts set. -/
structure Setting where
  reserveMatureBlocks : Nat
  minFullThresholdBytes : Nat
  collecting : Bool
  parallelPromotion : Bool
  deriving DecidableEq, Repr

structure MatureSpace where
  reserve : Nat
  blocks : Nat → BlockMeta
  /-- The number of blocks below the frontier. -/
  count : Nat
  freeBlocks : List Nat
  recyclableBlocks : List Nat
  smallRegion : BumpRegion
  mediumRegion : BumpRegion
  /-- Whether a marking cycle is open: `mark_phase` is not `Idle`. -/
  marking : Bool
  active : Bool
  epoch : UInt32
  low : Nat
  high : Nat
  unsweptBlocks : Int
  releasePlanned : Bool
  /-- What is left of the release list. -/
  releaseList : List Nat

def MatureSpace.empty (reserve : Nat) : MatureSpace :=
  ⟨reserve, fun _ => .fresh, 0, [], [], .none, .none, false, false, 0, 0, 0, 0, false, []⟩

def blockBase (index : Nat) : Nat := index * kBlockBytes

def blockUnswept (s : MatureSpace) (index : Nat) : Bool :=
  (s.blocks index).inUse && (s.blocks index).sweepEpoch != s.epoch

def setBlock (s : MatureSpace) (index : Nat) (m : BlockMeta) : MatureSpace :=
  { s with blocks := Function.update s.blocks index m }

/-! ## The sweep -/

/-- A block's metadata once swept: the marked starts and the marked lines. -/
def BlockMeta.swept (m : BlockMeta) (epoch : UInt32) : BlockMeta :=
  { m with
    starts := fun g => m.starts g && m.marks g
    marks := fun _ => false
    lineUsed := m.lineMark
    lineMark := fun _ => false
    sweepEpoch := epoch }

def usedLines (m : BlockMeta) : Nat := (List.range kLinesPerBlock).countP m.lineUsed

def sweepBlock (s : MatureSpace) (index : Nat) : MatureSpace :=
  let m := (s.blocks index).swept s.epoch
  let s := { s with unsweptBlocks := s.unsweptBlocks - 1 }
  if usedLines m = 0 then
    { setBlock s index { m with inUse := false } with freeBlocks := index :: s.freeBlocks }
  else if usedLines m < kLinesPerBlock then
    { setBlock s index m with recyclableBlocks := index :: s.recyclableBlocks }
  else setBlock s index m

def sweepBlockFromTop : Nat → MatureSpace → MatureSpace × Bool
  | 0, s => (s, false)
  | n + 1, s =>
    if s.low < s.high then
      let index := s.high - 1
      let s := { s with high := index }
      if blockUnswept s index then (sweepBlock s index, true)
      else sweepBlockFromTop n s
    else (s, false)

/-- The blocks to give back, past those retained, from the highest. -/
def planRelease (g : Setting) (s : MatureSpace) : MatureSpace :=
  let free := s.freeBlocks.insertionSort (· ≤ ·)
  let inUse := s.count - free.length
  let retained := max kRetainedFreeBlocks (max (inUse / 4) (g.minFullThresholdBytes / kBlockBytes))
  { s with
    releasePlanned := true
    freeBlocks := free
    releaseList := free.reverse.take (free.length - retained) }

def releasable (s : MatureSpace) (index : Nat) : Bool :=
  !(s.blocks index).inUse && (s.blocks index).committed

def decommit (s : MatureSpace) (index : Nat) : MatureSpace :=
  setBlock s index { s.blocks index with committed := false }

/-- The planned blocks just below `low` join the run that is decommitted. -/
def extendRelease (s : MatureSpace) (low length : Nat) : List Nat → MatureSpace
  | [] => { s with releaseList := [] }
  | next :: rest =>
    if 0 < low ∧ length < kReleaseRunBlocks ∧ next = low - 1 ∧ releasable s next then
      extendRelease (decommit s next) next (length + 1) rest
    else { s with releaseList := next :: rest }

/-- The next run of planned blocks is decommitted; `false` once none is left. -/
def releaseStep (s : MatureSpace) : List Nat → MatureSpace × Bool
  | [] => ({ s with releaseList := [] }, false)
  | high :: rest =>
    if releasable s high then (extendRelease (decommit s high) high 1 rest, true)
    else releaseStep s rest

/-- One piece of the work between two looks at the clock; `false` when all is done. -/
def sweepPiece (g : Setting) (s : MatureSpace) : MatureSpace × Bool :=
  match sweepBlockFromTop (s.high - s.low) s with
  | (t, true) => (t, true)
  | (t, false) =>
    if !t.releasePlanned then (planRelease g t, true)
    else releaseStep t t.releaseList

/-- At most `n` pieces, with whether all is done. -/
def sweepWork (g : Setting) : Nat → MatureSpace → MatureSpace × Bool
  | 0, s => (s, false)
  | n + 1, s =>
    match sweepPiece g s with
    | (t, true) => sweepWork g n t
    | (t, false) => (t, true)

def endSweep (s : MatureSpace) : MatureSpace :=
  { s with active := false, releaseList := [] }

/-- The pieces that are left at most. -/
def piecesLeft (s : MatureSpace) : Nat :=
  (s.high - s.low) + (if s.releasePlanned then s.releaseList.length else s.count + 1) + 1

def completeSweep (g : Setting) (s : MatureSpace) : MatureSpace :=
  if s.active then endSweep (sweepWork g (piecesLeft s) s).1 else s

/-- `sweep_slice`, with a budget for `n` pieces of this space's work. -/
def sweepSlice (g : Setting) (s : MatureSpace) (n : Nat) : MatureSpace :=
  if s.active then
    match sweepWork g n s with
    | (t, true) => endSweep t
    | (t, false) => t
  else s

/-- `none` is the fatal error of a cycle that finishes with a sweep pending. -/
def beginSweep (s : MatureSpace) : Option MatureSpace :=
  if s.active then none
  else some { s with
    epoch := s.epoch + 1
    marking := false
    active := true
    low := 0
    high := s.count
    unsweptBlocks := (s.count : Int) - s.freeBlocks.length
    releasePlanned := false
    releaseList := []
    smallRegion := .none
    mediumRegion := .none
    recyclableBlocks := [] }

/-- `start_cycle`: the last sweep is finished before the marker runs. -/
def startCycle (g : Setting) (s : MatureSpace) : MatureSpace :=
  { completeSweep g s with marking := true }

/-- The allocator's share, for the `n` blocks of `[low, high)`: blocks from one end until
one has free lines, a few at most. -/
def sweepForAllocation (fromTop : Bool) : Nat → Nat → MatureSpace → MatureSpace × Bool
  | 0, _, s => (s, false)
  | n + 1, swept, s =>
    if s.low < s.high ∧ swept < kAllocatorSweepBlocks then
      let index := if fromTop then s.high - 1 else s.low
      let s := if fromTop then { s with high := s.high - 1 } else { s with low := s.low + 1 }
      if blockUnswept s index then
        let t := sweepBlock s index
        if !(t.blocks index).inUse || decide (s.recyclableBlocks.length < t.recyclableBlocks.length)
        then (t, true)
        else sweepForAllocation fromTop n (swept + 1) t
      else sweepForAllocation fromTop n swept s
    else (s, false)

def sweepBlocksForAllocation (s : MatureSpace) (fromTop : Bool) : MatureSpace × Bool :=
  sweepForAllocation fromTop (s.high - s.low) 0 s

/-! ## Allocation -/

def matureBlocksAvailable (s : MatureSpace) : Nat :=
  (s.reserve / kBlockBytes - s.count) + s.freeBlocks.length

def atReserve (g : Setting) (s : MatureSpace) : Bool :=
  !g.collecting && decide (matureBlocksAvailable s ≤ g.reserveMatureBlocks)

/-- Whether the next block would have to lie past the reservation's end. -/
def noFreshBlock (s : MatureSpace) : Bool :=
  decide (s.reserve < (s.count + 1) * kBlockBytes)

def maySweep (g : Setting) (s : MatureSpace) : Bool :=
  decide (s.low < s.high) && !g.parallelPromotion

/-- What the allocator sweeps before it takes a free block. -/
def sweepBeforeAcquire (g : Setting) (s : MatureSpace) (holesWillDo : Bool) : MatureSpace :=
  if maySweep g s then
    let s :=
      if s.freeBlocks.isEmpty then
        let (t, found) := sweepBlocksForAllocation s false
        if !found && (!holesWillDo || t.recyclableBlocks.isEmpty) then
          (sweepBlocksForAllocation t true).1
        else t
      else s
    if atReserve g s || (s.freeBlocks.isEmpty && noFreshBlock s) then completeSweep g s else s
  else s

/-- What `acquire_free_block` returns: `UINT32_MAX`, `kHolesFiled` or a block. -/
inductive Acquired where
  | exhausted
  | holesFiled
  | block (index : Nat)
  deriving DecidableEq, Repr

def takeBlock (s : MatureSpace) (index : Nat) : MatureSpace :=
  setBlock s index
    { s.blocks index with committed := true, inUse := true, sweepEpoch := s.epoch }

def acquireFreeBlock (g : Setting) (s : MatureSpace) (holesWillDo : Bool) :
    MatureSpace × Acquired :=
  let s := sweepBeforeAcquire g s holesWillDo
  if holesWillDo && !s.recyclableBlocks.isEmpty then (s, .holesFiled)
  else if atReserve g s then (s, .exhausted)
  else
    match s.freeBlocks with
    | index :: rest => (takeBlock { s with freeBlocks := rest } index, .block index)
    | [] =>
      if noFreshBlock s then (s, .exhausted)
      else
        let index := s.count
        let s := setBlock { s with count := s.count + 1 } index .fresh
        (takeBlock s index, .block index)

/-- The next run of free lines of the region's block. -/
def nextHole (s : MatureSpace) (region : BumpRegion) : Option BumpRegion :=
  match region.block with
  | none => none
  | some index =>
    let used := (s.blocks index).lineUsed
    match (List.range' region.nextLine (kLinesPerBlock - region.nextLine)).find?
        (fun l => !used l) with
    | none => none
    | some line =>
      let stop := ((List.range' (line + 1) (kLinesPerBlock - (line + 1))).find? used).getD
        kLinesPerBlock
      some
        { region with
          cursor := blockBase index + line * kLineBytes
          limit := blockBase index + stop * kLineBytes
          nextLine := stop }

/-- The end of a refill; `stuck` is a loop that has run out of its rounds. -/
inductive Refill where
  | ok
  | exhausted
  | stuck
  deriving DecidableEq, Repr

def refillMedium (g : Setting) (s : MatureSpace) : MatureSpace × Refill :=
  match acquireFreeBlock g s false with
  | (s, .block index) =>
    ({ s with
        mediumRegion :=
          ⟨blockBase index, blockBase index + kBlockBytes, some index, kLinesPerBlock⟩ }, .ok)
  | (s, _) => (s, .exhausted)

def enterBlock (s : MatureSpace) (index : Nat) : MatureSpace :=
  { s with smallRegion := { s.smallRegion with block := some index, nextLine := 0 } }

/-- The small region's refill, for at most `n` rounds. -/
def refillSmall (g : Setting) : Nat → MatureSpace → MatureSpace × Refill
  | 0, s => (s, .stuck)
  | n + 1, s =>
    match nextHole s s.smallRegion with
    | some region => ({ s with smallRegion := region }, .ok)
    | none =>
      let s :=
        if s.recyclableBlocks.isEmpty && maySweep g s then (sweepBlocksForAllocation s false).1
        else s
      match s.recyclableBlocks with
      | index :: rest => refillSmall g n (enterBlock { s with recyclableBlocks := rest } index)
      | [] =>
        match acquireFreeBlock g s true with
        | (s, .holesFiled) => refillSmall g n s
        | (s, .exhausted) => ({ s with smallRegion := .none }, .exhausted)
        | (s, .block index) => refillSmall g n (enterBlock s index)

/-- The rounds of a refill: another block is entered, after one that the sweep filed. -/
def refillRounds : Nat := 3

inductive Which where
  | small
  | medium
  deriving DecidableEq, Repr

def regionOf (s : MatureSpace) : Which → BumpRegion
  | .small => s.smallRegion
  | .medium => s.mediumRegion

def setRegion (s : MatureSpace) (w : Which) (r : BumpRegion) : MatureSpace :=
  match w with
  | .small => { s with smallRegion := r }
  | .medium => { s with mediumRegion := r }

def fits (r : BumpRegion) (total : Nat) : Bool := decide (total ≤ r.limit - r.cursor)

def refillRegion (g : Setting) (s : MatureSpace) : Which → MatureSpace × Refill
  | .small => refillSmall g refillRounds s
  | .medium => refillMedium g s

def makeRoom (g : Setting) (total : Nat) (w : Which) : Nat → MatureSpace → MatureSpace × Refill
  | 0, s => (s, .stuck)
  | n + 1, s =>
    if fits (regionOf s w) total then (s, .ok)
    else
      match refillRegion g s w with
      | (t, .ok) => makeRoom g total w n t
      | (t, r) => (t, r)

/-- The lines of `[header, header + total)` in the block at `lo`. -/
def linesOf (lo header total line : Nat) : Bool :=
  decide ((header - lo) / kLineBytes ≤ line ∧ line ≤ (header + total - 1 - lo) / kLineBytes)

/-- The granule of the payload of the object at `header`, in the block at `lo`. -/
def granuleOf (lo header : Nat) : Nat := (header + kHeaderBytes - lo) / kGranuleBytes

/-- The object at the region's cursor: its start bit, its lines, and the header that the
caller writes. -/
def place (s : MatureSpace) (w : Which) (index total : Nat) : MatureSpace :=
  let r := regionOf s w
  let header := r.cursor
  let m := s.blocks index
  let lo := blockBase index
  let s := setBlock s index
    { m with
      starts := Function.update m.starts (granuleOf lo header) true
      lineUsed := fun l => m.lineUsed l || linesOf lo header total l
      size := Function.update m.size (granuleOf lo header) total }
  setRegion s w { r with cursor := r.cursor + total }

def chooseRegion (s : MatureSpace) (total : Nat) : Which :=
  if decide (kLineBytes < total) && !fits s.smallRegion total then .medium else .small

/-- The address of the object's header, or how the refill failed. -/
def matureAllocate (g : Setting) (s : MatureSpace) (total : Nat) :
    MatureSpace × Except Refill Nat :=
  let w := chooseRegion s total
  match makeRoom g total w 2 s with
  | (s, .ok) =>
    match (regionOf s w).block with
    | some index => (place s w index total, .ok (regionOf s w).cursor)
    | none => (s, .error .stuck)
  | (s, r) => (s, .error r)

/-! ## Runs -/

/-- The bytes of an object with a payload of `requested` bytes: whole granules, at least
one, and the header. -/
def totalFor (requested : Nat) : Nat :=
  (if requested = 0 then kGranuleBytes
   else (requested + (kGranuleBytes - 1)) / kGranuleBytes * kGranuleBytes) + kHeaderBytes

/-- An object: the address of its header and its bytes. -/
structure Obj where
  header : Nat
  total : Nat
  deriving DecidableEq, Repr

def Obj.block (o : Obj) : Nat := o.header / kBlockBytes

def Obj.granule (o : Obj) : Nat := granuleOf (blockBase o.block) o.header

inductive Op where
  | allocate (g : Setting) (requested : Nat)
  | startCycle (g : Setting)
  | mark (index granule : Nat)
  | beginSweep
  | slice (g : Setting) (pieces : Nat)
  | completeSweep (g : Setting)
  deriving DecidableEq, Repr

/-- The marker reaches the object at a start: its mark and the marks of its lines, by the
size in its header. -/
def markObject (s : MatureSpace) (index granule : Nat) : MatureSpace :=
  let m := s.blocks index
  let header := blockBase index + granule * kGranuleBytes - kHeaderBytes
  setBlock s index
    { m with
      marks := Function.update m.marks granule true
      lineMark := fun l =>
        m.lineMark l || linesOf (blockBase index) header (m.size granule) l }

/-- The space with the objects that are live: those allocated and not found dead by a
cycle that has finished. -/
structure World where
  space : MatureSpace
  live : List Obj

def World.empty (reserve : Nat) : World := ⟨.empty reserve, []⟩

/-- The objects that a finishing cycle found. -/
def marked (s : MatureSpace) (o : Obj) : Bool := (s.blocks o.block).marks o.granule

/-- One operation. `old_allocate` sends larger objects to the large-object space, and the
marker, which runs while a cycle is open, reaches objects in blocks in use. -/
def step (w : World) : Op → Option World
  | .allocate g requested =>
    let total := totalFor requested
    if total ≤ kMaxMediumObjectBytes then
      match matureAllocate g w.space total with
      | (s, .ok header) => some ⟨s, ⟨header, total⟩ :: w.live⟩
      | (s, .error .exhausted) => some ⟨s, w.live⟩
      | (_, .error _) => none
    else some w
  | .startCycle g => some { w with space := startCycle g w.space }
  | .mark index granule =>
    if w.space.marking && (w.space.blocks index).inUse && (w.space.blocks index).starts granule then
      some { w with space := markObject w.space index granule }
    else none
  | .beginSweep =>
    (beginSweep w.space).map fun s => ⟨s, w.live.filter (marked w.space)⟩
  | .slice g pieces => some { w with space := sweepSlice g w.space pieces }
  | .completeSweep g => some { w with space := completeSweep g w.space }

def run (w : World) : List Op → Option World
  | [] => some w
  | op :: ops => (step w op).bind fun w => run w ops

end Brass.Gc.Mature
