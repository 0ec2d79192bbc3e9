import Brass.Runtime.ParallelChunks
import Brass.Runtime.Reduction

/-!
# Workers running a parallel loop

One call of `ParallelRuntime::parallel_for` made outside any kernel, as steps of its workers: pops
of a worker's own queue, steals from another's, looks at the queues before giving up, and, inside
a kernel, recorded partial results and nested calls. Each worker keeps its own partial result, but
`current_reduction_`, the kind under which results are combined, belongs to the runtime. A nested
call of kind `none` only runs its kernel, as part of the kernel that makes it.
-/

namespace Brass.Runtime

/-- The arguments of `parallel_for` and the runtime's number of workers, at least one. -/
structure ParallelFor where
  numWorkers : BitVec 32
  numWorkers_pos : 0 < numWorkers.toNat
  tripCount : BitVec 64
  grainSize : BitVec 64
  reduction : ReductionKind
  /-- What the integer at `red_target` holds before the call; `none` for a null pointer. -/
  redTarget : Option (BitVec 64)

namespace ParallelFor

abbrev n (call : ParallelFor) : Nat := call.numWorkers.toNat

/-- Calls whose kernel the master runs alone, over the whole range. -/
def Fallback (call : ParallelFor) : Prop :=
  call.n ≤ 1 ∨ call.tripCount ≤ call.grainSize

instance (call : ParallelFor) : Decidable call.Fallback :=
  inferInstanceAs (Decidable (_ ∨ _))

end ParallelFor

/-- A call that has returned: the ranges its kernel was handed, the partial results recorded for
it, and what its target holds. -/
structure CompletedCall where
  tripCount : BitVec 64
  reduction : ReductionKind
  ranges : List ParallelChunk
  recorded : List (BitVec 64)
  redTarget : Option (BitVec 64)

/-- Every index was handed out once, and an integer target holds the fold of the results recorded
for the call, in whatever order. -/
structure CompletedCall.Exact (done : CompletedCall) : Prop where
  ranges : Partition done.tripCount done.ranges
  target : done.reduction.isInteger = true → ∀ v, done.redTarget = some v →
    ∀ vals, vals.Perm done.recorded → v = foldReduction done.reduction vals

/-- A nested reducing call in progress on a worker. Between saving the worker's state and setting
the kind the call has not `entered` its kernel. -/
structure Frame where
  tripCount : BitVec 64
  reduction : ReductionKind
  hasTarget : Bool
  savedI64 : BitVec 64
  savedKind : ReductionKind
  entered : Bool
  recorded : List (BitVec 64)

inductive Phase
  | popping
  | stealing (offset : Nat)
  | checking (next : Nat)
  | running (frames : List Frame)
  | finished

namespace Phase

/-- The nested calls in progress, the innermost first. -/
def frames : Phase → List Frame
  | .running frames => frames
  | _ => []

/-- Whether the last look over the queues has passed the queue of `j`. -/
def HasSeen : Phase → Nat → Prop
  | .checking next, j => j < next
  | .finished, _ => True
  | _, _ => False

end Phase

/-- The runtime during a call. The lists `ranges`, `recorded` and `nested` log what happened. -/
structure State where
  queue : Nat → List ParallelChunk
  redI64 : Nat → BitVec 64
  phase : Nat → Phase
  currentReduction : ReductionKind
  returned : Option CompletedCall
  ranges : List ParallelChunk
  recorded : Nat → List (BitVec 64)
  nested : List CompletedCall

namespace State

def goes (s : State) (w : Nat) (p : Phase) : State :=
  { s with phase := Function.update s.phase w p }

/-- Worker `w` takes the chunk `c` from the queue of `victim` and starts the kernel on it. -/
def hand (s : State) (w victim : Nat) (c : ParallelChunk) (rest : List ParallelChunk) : State :=
  { s with
    queue := Function.update s.queue victim rest
    phase := Function.update s.phase w (.running [])
    ranges := s.ranges ++ [c] }

def recordReduction (s : State) (w : Nat) (v : BitVec 64) : State :=
  { s with
    redI64 := Function.update s.redI64 w (combineReductionI64 s.currentReduction (s.redI64 w) v) }

def enter (s : State) (w : Nat) (trip : BitVec 64) (k : ReductionKind) (hasTarget : Bool)
    (frames : List Frame) : State :=
  { s with
    redI64 := Function.update s.redI64 w (initialReductionI64 k)
    phase := Function.update s.phase w (.running ({
      tripCount := trip, reduction := k, hasTarget, savedI64 := s.redI64 w,
      savedKind := s.currentReduction, entered := false, recorded := [] } :: frames)) }

/-- The record of a nested call whose kernel has returned, the worker's partial result `red`. -/
def nestedCall (f : Frame) (red : BitVec 64) : CompletedCall where
  tripCount := f.tripCount
  reduction := f.reduction
  ranges := [⟨0, f.tripCount⟩]
  recorded := f.recorded
  redTarget := if f.hasTarget && !f.reduction.isFpReduction then some red else none

def leave (s : State) (w : Nat) (f : Frame) (frames : List Frame) : State :=
  { s with
    redI64 := Function.update s.redI64 w f.savedI64
    phase := Function.update s.phase w (.running frames)
    currentReduction := f.savedKind
    nested := s.nested ++ [nestedCall f (s.redI64 w)] }

@[simp] theorem goes_phase {s : State} {w : Nat} {p : Phase} :
    (s.goes w p).phase = Function.update s.phase w p := rfl
@[simp] theorem hand_phase {s : State} {w victim : Nat} {c : ParallelChunk}
    {rest : List ParallelChunk} :
    (s.hand w victim c rest).phase = Function.update s.phase w (.running []) := rfl
@[simp] theorem hand_queue {s : State} {w victim : Nat} {c : ParallelChunk}
    {rest : List ParallelChunk} :
    (s.hand w victim c rest).queue = Function.update s.queue victim rest := rfl

/-- What the master stores in the target. -/
def total (s : State) (call : ParallelFor) : BitVec 64 :=
  if call.Fallback then s.redI64 0
  else (List.range call.n).foldl
    (fun total w => combineReductionI64 call.reduction total (s.redI64 w))
    (initialReductionI64 call.reduction)

def result (s : State) (call : ParallelFor) : CompletedCall where
  tripCount := call.tripCount
  reduction := call.reduction
  ranges := s.ranges
  recorded := (List.range call.n).flatMap s.recorded
  redTarget := call.redTarget.map fun old =>
    if call.reduction.isInteger then s.total call else old

end State

/-- What a step does to the partial results: worker `w` records `v`, or nothing. -/
inductive Event
  | record (w : Nat) (v : BitVec 64)
  | silent

inductive Step (call : ParallelFor) (s : State) : Event → State → Prop
  | popFront {w c rest} : w < call.n → s.phase w = .popping → s.queue w = c :: rest →
      Step call s .silent (s.hand w w c rest)
  | popFails {w} : w < call.n → s.phase w = .popping → s.queue w = [] →
      Step call s .silent (s.goes w (.stealing 1))
  | stealBack {w k c rest} : w < call.n → s.phase w = .stealing k → k < call.n →
      s.queue ((w + k) % call.n) = rest ++ [c] →
      Step call s .silent (s.hand w ((w + k) % call.n) c rest)
  /- The victim's queue is empty, or its lock is taken. -/
  | stealFails {w k} : w < call.n → s.phase w = .stealing k → k < call.n →
      Step call s .silent (s.goes w (.stealing (k + 1)))
  | stealEnds {w k} : w < call.n → s.phase w = .stealing k → call.n ≤ k →
      Step call s .silent (s.goes w (.checking 0))
  | isEmpty {w j} : w < call.n → s.phase w = .checking j → j < call.n → s.queue j = [] →
      Step call s .silent (s.goes w (.checking (j + 1)))
  | workLeft {w j} : w < call.n → s.phase w = .checking j → j < call.n → s.queue j ≠ [] →
      Step call s .silent (s.goes w .popping)
  | noWorkLeft {w j} : w < call.n → s.phase w = .checking j → call.n ≤ j →
      Step call s .silent (s.goes w .finished)
  | recordOwn {w v} : w < call.n → s.phase w = .running [] →
      Step call s (.record w v)
        { s.recordReduction w v with
          recorded := Function.update s.recorded w (s.recorded w ++ [v]) }
  | recordNested {w v f frames} : w < call.n → s.phase w = .running (f :: frames) →
      f.entered = true →
      Step call s (.record w v)
        ((s.recordReduction w v).goes w
          (.running ({ f with recorded := f.recorded ++ [v] } :: frames)))
  | enter {w trip k hasTarget frames} : w < call.n → s.phase w = .running frames →
      (∀ f ∈ frames.head?, f.entered = true) → trip ≠ 0 → k.isReduction = true →
      Step call s .silent (s.enter w trip k hasTarget frames)
  | setKind {w f frames} : w < call.n → s.phase w = .running (f :: frames) → f.entered = false →
      Step call s .silent
        { s.goes w (.running ({ f with entered := true } :: frames)) with
          currentReduction := f.reduction }
  | leave {w f frames} : w < call.n → s.phase w = .running (f :: frames) → f.entered = true →
      Step call s .silent (s.leave w f frames)
  | kernelReturns {w} : w < call.n → s.phase w = .running [] →
      Step call s .silent (s.goes w (if call.Fallback then .finished else .popping))
  | join : (∀ w < call.n, s.phase w = .finished) → s.returned = none →
      Step call s .silent
        { s with returned := some (s.result call), currentReduction := .none }

/-- The chunks dealt round robin to the queues. -/
def deal (n : Nat) : List ParallelChunk → Nat → (Nat → List ParallelChunk) → Nat →
    List ParallelChunk
  | [], _, queue => queue
  | c :: rest, i, queue =>
    deal n rest (i + 1) (Function.update queue (i % n) (queue (i % n) ++ [c]))

/-- The state in which the workers start, the partial results of earlier calls being `red`. A
division by zero leaves none. -/
def start (call : ParallelFor) (red : Nat → BitVec 64) : Option State :=
  let base : State := {
    queue := fun _ => [], redI64 := red, phase := fun _ => .finished,
    currentReduction := call.reduction, returned := none,
    ranges := [], recorded := fun _ => [], nested := [] }
  if call.tripCount = 0 then
    some { base with
      currentReduction := .none
      returned := some {
        tripCount := 0, reduction := call.reduction, ranges := [], recorded := [],
        redTarget := call.redTarget } }
  else if call.Fallback then
    some { base with
      redI64 := if call.reduction.isReduction then
          Function.update red 0 (initialReductionI64 call.reduction) else red
      phase := Function.update base.phase 0 (.running [])
      ranges := [⟨0, call.tripCount⟩] }
  else
    (effectiveGrain call.numWorkers call.tripCount call.grainSize).map fun grain =>
      { base with
        queue := deal call.n (chunks call.tripCount grain) 0 base.queue
        redI64 := if call.reduction.isReduction then
            fun w => if w < call.n then initialReductionI64 call.reduction else red w else red
        phase := fun _ => .popping }

/-- The states a call reaches by steps allowed by `p`. -/
inductive Runs (call : ParallelFor) (p : State → Event → Prop) (s₀ : State) : State → Prop
  | start : Runs call p s₀ s₀
  | step {s e t} : Runs call p s₀ s → p s e → Step call s e t → Runs call p s₀ t

/-- The kind of the innermost reducing call that the kernel of `w` belongs to. -/
def State.ownKind (s : State) (call : ParallelFor) (w : Nat) : ReductionKind :=
  match (s.phase w).frames with
  | [] => call.reduction
  | f :: _ => f.reduction

/-- Where several workers run, a partial result is recorded while `current_reduction_` is the kind
of the call it is recorded for. -/
def RecordsOwnKind (call : ParallelFor) (s : State) : Event → Prop
  | .record w _ => ¬ call.Fallback → s.currentReduction = s.ownKind call w
  | .silent => True

/-- The trip counts and grain sizes for which no index is lost. With a trip count of 0 the target
keeps what the caller put there, which has to be the identity. -/
def ParallelFor.Fits (call : ParallelFor) : Prop :=
  if call.tripCount = 0 then
    call.reduction.isInteger = true →
      ∀ v, call.redTarget = some v → v = initialReductionI64 call.reduction
  else call.Fallback ∨
    ∃ grain, effectiveGrain call.numWorkers call.tripCount call.grainSize = some grain ∧
      Brass.Runtime.Fits call.tripCount grain

end Brass.Runtime
