import Brass.Util.SortedMap

/-!
# The large-object space

The large objects of `gc/heap_spaces.cpp` and their part of the lazy sweep in
`gc/heap_sweep_lazy.cpp`. An object takes a run of whole pages below `frontier`, and a
freed run is coalesced with its neighbours and kept for first-fit reuse. After a marking
cycle a cursor walks the page table a few steps at a time, between allocations that
rewrite it, and frees the objects that are not marked.

Pages are numbered from `large_lo`, and the reservation is below `2 ^ 32` pages, so page
numbers are natural numbers. The vectors `large_page_head` and `large_page_committed` have
the length `frontier`. The two byte counts are `Int`, so that a subtraction that would
wrap in `size_t` is visible.
-/

namespace Brass.Gc.Large

open Brass.Util

def kPageBytes : Nat := 4096

def kHeaderBytes : Nat := 8

def kRetainedLargeBytes : Nat := 8 * 2 ^ 20

/-- The most walk steps one allocation makes before it grows the frontier. -/
def kAllocatorSweepLarge : Nat := 16

abbrev Run := Nat × Nat

/-- What the space reads of an `ObjectHeader`: the payload's size and `kGcLargeMarked`. -/
structure Header where
  size : UInt32
  marked : Bool
  deriving DecidableEq, Repr

/-- The fields of `HeapState` that the large-object space reads and other parts set. -/
structure Setting where
  largeReserve : Nat
  reserveLargeBytes : Nat
  fullThreshold : Nat
  collecting : Bool
  parallelPromotion : Bool
  deriving DecidableEq, Repr

structure LargeSpace where
  frontier : Nat
  freeRuns : List Run
  objects : List Run
  /-- A page's head page plus one, or `0`. -/
  pageHead : Nat → Nat
  pageCommitted : Nat → Bool
  usedBytes : Int
  retainedBytes : Int
  /-- The header word at the start of a page. -/
  header : Nat → Header
  /-- `sweep.active`, which also covers the mature blocks. -/
  active : Bool
  largeActive : Bool
  cursor : Nat

def LargeSpace.empty : LargeSpace :=
  ⟨0, [], [], fun _ => 0, fun _ => false, 0, 0, fun _ => ⟨0, false⟩, false, false, 0⟩

/-- The entries `a, …, a + n - 1` of a table set to `v`. -/
def setRange {α : Type} (f : Nat → α) (a n : Nat) (v : α) (p : Nat) : α :=
  if a ≤ p ∧ p < a + n then v else f p

def pagesFor (total : Nat) : Nat := (total + kPageBytes - 1) / kPageBytes

/-! ## Freeing a run -/

/-- A run joined with the free run that ends where it starts. -/
def joinPrevious (runs : List Run) (start count : Nat) : List Run × Nat × Nat :=
  match SortedMap.before runs start with
  | some prev =>
    if prev.1 + prev.2 = start then
      (SortedMap.erase runs prev.1, prev.1, count + prev.2)
    else (runs, start, count)
  | none => (runs, start, count)

/-- A run joined with the free run that starts where it ends. -/
def joinNext (runs : List Run) (start count : Nat) : List Run × Nat :=
  match SortedMap.lowerBound runs (start + count) with
  | some next =>
    if next.1 = start + count then
      (SortedMap.erase runs next.1, count + next.2)
    else (runs, count)
  | none => (runs, count)

/-- The free runs after `[head, head + pages)` is freed, and the length of the run it
joined. -/
def insertFree (runs : List Run) (head pages : Nat) : List Run × Nat :=
  let (runs, start, count) := joinPrevious runs head pages
  let (runs, count) := joinNext runs start count
  (SortedMap.emplace runs start count, count)

/-- The freed pages stay committed while the retained ones are within the cap. -/
def retainOrDecommit (g : Setting) (s : LargeSpace) (head pages : Nat) : LargeSpace :=
  let bytes := pages * kPageBytes
  if s.retainedBytes + bytes ≤ max kRetainedLargeBytes g.fullThreshold then
    { s with retainedBytes := s.retainedBytes + bytes }
  else { s with pageCommitted := setRange s.pageCommitted head pages false }

def freeLarge (g : Setting) (s : LargeSpace) (head pages : Nat) : LargeSpace × Nat :=
  let s := retainOrDecommit g s head pages
  let (runs, count) := insertFree s.freeRuns head pages
  ({ s with
      pageHead := setRange s.pageHead head pages 0
      usedBytes := s.usedBytes - (pages * kPageBytes : Nat)
      freeRuns := runs }, count)

/-! ## The walk -/

/-- The object at the cursor is freed if dead, and loses its mark if not. -/
def judgeObject (g : Setting) (s : LargeSpace) (head pages : Nat) : LargeSpace × Nat :=
  if (s.header head).marked then
    ({ s with header := Function.update s.header head ⟨(s.header head).size, false⟩ }, 0)
  else freeLarge g { s with objects := SortedMap.erase s.objects head } head pages

/-- What a step does at page `p` below the frontier: the space, the next page and the
length of the free run that a freed object joined. -/
def visitPage (g : Setting) (s : LargeSpace) (p : Nat) : LargeSpace × Nat × Nat :=
  if s.pageHead p = 0 then
    (s, p + (SortedMap.find s.freeRuns p).getD 1, 0)
  else
    let head := s.pageHead p - 1
    let pages := pagesFor (kHeaderBytes + (s.header head).size.toNat)
    -- A head behind the cursor is an object allocated since the walk passed.
    if head = p then
      let (s, run) := judgeObject g s head pages
      (s, head + pages, run)
    else (s, head + pages, 0)

/-- One step of the walk: the space, whether there was one, and the length of the free
run that a freed object joined. -/
def sweepLargeStep (g : Setting) (s : LargeSpace) : LargeSpace × Bool × Nat :=
  if s.frontier ≤ s.cursor then ({ s with largeActive := false }, false, 0)
  else
    let (t, p, run) := visitPage g s s.cursor
    ({ t with
        cursor := p
        largeActive := if t.frontier ≤ p then false else t.largeActive }, true, run)

/-- At most `n` steps of `while (large_active && sweep_large_step(…))`. -/
def sweepSteps (g : Setting) : Nat → LargeSpace → LargeSpace
  | 0, s => s
  | n + 1, s =>
    if s.largeActive then
      let (t, more, _) := sweepLargeStep g s
      if more then sweepSteps g n t else t
    else s

/-- The walk is finished, and with it (the blocks' part is outside this space) the sweep. -/
def completeSweep (g : Setting) (s : LargeSpace) : LargeSpace :=
  if s.active then { sweepSteps g (s.frontier + 1) s with active := false } else s

/-- At most `n` steps, until a freed object joins a free run of `pages` pages. -/
def sweepForRun (g : Setting) (pages : Nat) : Nat → LargeSpace → LargeSpace × Bool
  | 0, s => (s, false)
  | n + 1, s =>
    if s.largeActive then
      let (t, more, run) := sweepLargeStep g s
      if !more then (t, false)
      else if pages ≤ run then (t, true)
      else sweepForRun g pages n t
    else (s, false)

def sweepLargeForAllocation (g : Setting) (s : LargeSpace) (pages : Nat) :
    LargeSpace × Bool :=
  sweepForRun g pages kAllocatorSweepLarge s

/-- `sweep_slice`: `steps` steps of the walk fit the budget; `rest` tells whether the
blocks' part that follows was finished too. -/
def sweepSlice (g : Setting) (s : LargeSpace) (steps : Nat) (rest : Bool) : LargeSpace :=
  if s.active then
    let t := sweepSteps g steps s
    if !t.largeActive && rest then { t with active := false } else t
  else s

/-- `none` is the fatal error of a cycle that finishes with a sweep pending. -/
def beginSweep (s : LargeSpace) : Option LargeSpace :=
  if s.active then none
  else some { s with active := true, largeActive := decide (0 < s.frontier), cursor := 0 }

/-! ## Allocation -/

/-- Whether `pages` more pages would eat into the promotion reserve. -/
def overReserve (g : Setting) (s : LargeSpace) (pages : Nat) : Bool :=
  !g.collecting &&
    decide ((g.largeReserve : Int) < s.usedBytes + (pages * kPageBytes : Nat) + g.reserveLargeBytes)

def takeRun (s : LargeSpace) (pages : Nat) : LargeSpace × Option Nat :=
  match s.freeRuns.find? (fun r => pages ≤ r.2) with
  | some r =>
    let runs := SortedMap.erase s.freeRuns r.1
    let runs :=
      if r.2 - pages ≠ 0 then SortedMap.emplace runs (r.1 + pages) (r.2 - pages) else runs
    ({ s with freeRuns := runs }, some r.1)
  | none => (s, none)

/-- Whether an allocation may advance the pending walk. -/
def maySweep (g : Setting) (s : LargeSpace) : Bool := s.largeActive && !g.parallelPromotion

/-- A free run after the walk has freed one, for an allocation that found none. -/
def takeRunSweeping (g : Setting) (s : LargeSpace) (pages : Nat) : LargeSpace × Option Nat :=
  if maySweep g s then
    let (t, found) := sweepLargeForAllocation g s pages
    if found then takeRun t pages else (t, none)
  else (s, none)

/-- A free run after the sweep is finished, for an allocation at the reservation's end. -/
def takeRunAtEnd (g : Setting) (s : LargeSpace) (pages : Nat) : LargeSpace × Option Nat :=
  if maySweep g s && decide (g.largeReserve < (s.frontier + pages) * kPageBytes) then
    takeRun (completeSweep g s) pages
  else (s, none)

/-- A stage that runs when the stages before it found no run. -/
def orElseTake (r : LargeSpace × Option Nat) (next : LargeSpace → LargeSpace × Option Nat) :
    LargeSpace × Option Nat :=
  match r with
  | (s, some start) => (s, some start)
  | (s, none) => next s

/-- `pages` fresh pages, `none` at the reservation's end. -/
def growFrontier (g : Setting) (s : LargeSpace) (pages : Nat) : LargeSpace × Option Nat :=
  if g.largeReserve < (s.frontier + pages) * kPageBytes then (s, none)
  else
    ({ s with
        frontier := s.frontier + pages
        pageHead := fun p => if p < s.frontier then s.pageHead p else 0
        pageCommitted := fun p => if p < s.frontier then s.pageCommitted p else false },
      some s.frontier)

/-- The pages `p, …, p + n - 1` committed; a page that a free run left committed is no
longer a retained one. -/
def commitRun (s : LargeSpace) (p : Nat) : Nat → LargeSpace
  | 0 => s
  | n + 1 =>
    let s :=
      if s.pageCommitted p then { s with retainedBytes := s.retainedBytes - kPageBytes }
      else { s with pageCommitted := Function.update s.pageCommitted p true }
    commitRun s (p + 1) n

def placeObject (s : LargeSpace) (start pages : Nat) : LargeSpace :=
  let s := commitRun s start pages
  { s with
    objects := SortedMap.emplace s.objects start pages
    pageHead := setRange s.pageHead start pages (start + 1)
    usedBytes := s.usedBytes + (pages * kPageBytes : Nat) }

/-- The space with an object of `total` bytes at a page, `none` when there is no room. -/
def largeAllocate (g : Setting) (s : LargeSpace) (total : Nat) : LargeSpace × Option Nat :=
  let pages := pagesFor total
  let s :=
    if overReserve g s pages && maySweep g s then completeSweep g s else s
  if overReserve g s pages then (s, none)
  else
    let r := takeRun s pages
    let r := orElseTake r fun s => takeRunSweeping g s pages
    let r := orElseTake r fun s => takeRunAtEnd g s pages
    let r := orElseTake r fun s => growFrontier g s pages
    match r with
    | (s, some start) => (placeObject s start pages, some start)
    | (s, none) => (s, none)

/-- `note_large_allocated`: marked when the walk has yet to reach it. -/
def noteLargeAllocated (s : LargeSpace) (start : Nat) : LargeSpace :=
  if s.largeActive && decide (s.cursor ≤ start) then
    { s with header := Function.update s.header start ⟨(s.header start).size, true⟩ }
  else s

/-- An allocation as every caller makes it: the header is written as soon as the run is
there. The run is returned beside the space. -/
def allocate (g : Setting) (s : LargeSpace) (payload : UInt32) : LargeSpace × Option Run :=
  match largeAllocate g s (kHeaderBytes + payload.toNat) with
  | (t, some start) =>
    (noteLargeAllocated { t with header := Function.update t.header start ⟨payload, false⟩ } start,
      some (start, pagesFor (kHeaderBytes + payload.toNat)))
  | (t, none) => (t, none)

/-- `large_head_of`, by page: the first page of the object that a page is part of. -/
def largeHeadOf (s : LargeSpace) (page : Nat) : Option Nat :=
  if s.frontier ≤ page then none
  else if s.pageHead page = 0 then none
  else some (s.pageHead page - 1)

/-! ## Runs -/

inductive Op where
  | allocate (g : Setting) (payload : UInt32)
  | mark (head : Nat)
  | beginSweep
  | slice (g : Setting) (steps : Nat) (rest : Bool)
  | completeSweep (g : Setting)
  deriving DecidableEq, Repr

/-- One operation, with the run it allocated. The marker sets the marks of objects, and
`start_cycle` finishes the last sweep before the marker runs. -/
def step (s : LargeSpace) : Op → Option (LargeSpace × List Run)
  | .allocate g payload =>
    let (t, r) := allocate g s payload
    some (t, r.toList)
  | .mark head =>
    if !s.active && (SortedMap.find s.objects head).isSome then
      some ({ s with header := Function.update s.header head ⟨(s.header head).size, true⟩ }, [])
    else none
  | .beginSweep => (beginSweep s).map fun t => (t, [])
  | .slice g steps rest => some (sweepSlice g s steps rest, [])
  | .completeSweep g => some (completeSweep g s, [])

def run (s : LargeSpace) : List Op → Option (LargeSpace × List Run)
  | [] => some (s, [])
  | op :: ops =>
    (step s op).bind fun (t, runs) =>
      (run t ops).map fun (u, more) => (u, runs ++ more)

end Brass.Gc.Large
