import Mathlib.Data.List.Perm.Subperm

/-!
# The compile pool

`CompilePool` queues jobs for worker threads. A step here is one critical section of its mutex: a
call, or a worker taking a job, parking, ending or coming back from a job. A condition variable may
wake its threads at any time. Beside the fields of the class the state holds the threads that were
started, the `shutdown` calls that wait in `join`, and the number of accepted submissions.
-/

namespace Brass.Runtime.CompilePool

/-- `run` is the job's function, known by the number of its submission. -/
structure Job where
  owner : Nat
  priority : UInt8
  seq : UInt64
  run : Nat
  /-- Whether a heat function was given. -/
  heat : Bool
  heatAtSubmit : UInt64
  deriving DecidableEq

def kReservedPriority : UInt8 := 128

namespace Job

def bulk (job : Job) : Bool := job.priority < kReservedPriority

/-- What the job's function ran since the submission, `now` being what the heat functions return
in this pick. -/
def gain (now : Job → UInt64) (job : Job) : UInt64 :=
  let heat := if job.heat then now job else 0
  if job.heatAtSubmit < heat then heat - job.heatAtSubmit else 0

/-- Whether `it` takes the place of the best job found so far. -/
abbrev Beats (now : Job → UInt64) (it best : Job) : Prop :=
  best.priority < it.priority ∨ it.priority = best.priority ∧
    (best.gain now < it.gain now ∨ it.gain now = best.gain now ∧ it.seq < best.seq)

/-- Whether a worker may take the job, `bulkOk` being whether it may take one of low priority. -/
def mayStart (bulkOk : Bool) (job : Job) : Bool := !job.bulk || bulkOk

/-- One round of the loop of `pick_locked`. -/
def consider (bulkOk : Bool) (now : Job → UInt64) (best : Option Job) (it : Job) : Option Job :=
  if it.mayStart bulkOk then
    match best with
    | none => some it
    | some b => if it.Beats now b then some it else some b
  else best

end Job

inductive Phase
  | top
  | parked
  | running (job : Job)
  | ended
  deriving DecidableEq

/-- Threads are known by the order in which they were started. -/
structure State where
  isShared : Bool
  configuredThreads : Nat
  workers : List Nat := []
  exited : List Nat := []
  live : Nat := 0
  idle : Nat := 0
  queue : List Job := []
  /-- 0 for an owner that has no entry. -/
  running : Nat → Nat := fun _ => 0
  busy : Nat := 0
  bulkRunning : Nat := 0
  nextSeq : UInt64 := 1
  stopping : Bool := false
  closed : Bool := false
  threads : List Phase := []
  joining : List (List Nat) := []
  submitted : Nat := 0

/-- What a step does to the jobs. -/
inductive Event
  | accepted (job : Job)
  | refused
  | started (job : Job)
  | cancelled (owner : Nat) (jobs : List Job)
  | dropped (jobs : List Job)
  | silent

namespace State

variable (s : State)

def startLocked (threads : Nat) : State :=
  if s.workers ≠ [] ∨ threads = 0 then s
  else
    { s with
      stopping := false, closed := false, configuredThreads := threads, live := s.live + threads
      workers := List.range' s.threads.length threads
      threads := s.threads ++ List.replicate threads .top }

/-- The threads in `exited` have ended, so that joining them does not wait. -/
def spawnLocked : State :=
  if s.queue.length ≤ s.idle ∨ s.configuredThreads ≤ s.live then s
  else
    { s with
      exited := [], live := s.live + 1
      workers := s.workers.filter (· ∉ s.exited) ++ [s.threads.length]
      threads := s.threads ++ [.top] }

def enqueue (job : Job) : State :=
  { s with queue := s.queue ++ [job], nextSeq := s.nextSeq + 1, submitted := s.submitted + 1 }

def submit (owner : Nat) (priority : UInt8) (heat : Bool) (now : UInt64) : State × Event :=
  if s.closed ∨ s.stopping then (s, .refused)
  else
    let heatAtSubmit := if heat then now else 0
    let job : Job := { owner, priority, seq := s.nextSeq, run := s.submitted, heat, heatAtSubmit }
    (if s.isShared then (s.enqueue job).spawnLocked else s.enqueue job, .accepted job)

def cancel (owner : Nat) : State × Event :=
  ({ s with queue := s.queue.filter (·.owner ≠ owner) },
    .cancelled owner (s.queue.filter (·.owner = owner)))

def ownerIdleLocked (owner : Nat) : Bool :=
  s.running owner = 0 && s.queue.all (·.owner ≠ owner)

/-- The condition on which `wait_owner` returns. -/
def ownerDone (owner : Nat) : Bool :=
  if s.live = 0 then s.running owner = 0 else s.ownerIdleLocked owner

/-- The first section of `shutdown`; the call goes on to join the workers it took. -/
def shutdown : State × Event :=
  let dropped := s.queue
  let s := { s with queue := [], closed := s.closed || s.isShared }
  (if s.workers = [] then s
    else { s with stopping := true, joining := s.workers :: s.joining, workers := [] },
    .dropped dropped)

/-- The last section of a `shutdown` that took `workers`. -/
def joined (workers : List Nat) : Option State :=
  if workers ∈ s.joining ∧ ∀ w ∈ workers, s.threads[w]? = some .ended then
    some { s with joining := s.joining.erase workers, exited := [], stopping := false }
  else none

def size : Nat := if s.isShared then s.configuredThreads else s.workers.length

def bulkOk : Bool := s.bulkRunning < if 1 < s.size then s.size - 1 else s.size

def pickLocked (now : Job → UInt64) : Option Job :=
  s.queue.foldl (Job.consider s.bulkOk now) none

/-- `++idle_`, and the wait begins. -/
def park (w : Nat) : State :=
  { s with idle := s.idle + 1, threads := s.threads.set w .parked }

/-- The wait is over and the thread ends. -/
def leave (w : Nat) : State :=
  { s with idle := s.idle - 1, live := s.live - 1, threads := s.threads.set w .ended }

def take (w : Nat) (job : Job) : State :=
  { s with
    idle := s.idle - 1, queue := s.queue.erase job
    running := Function.update s.running job.owner (s.running job.owner + 1)
    busy := s.busy + 1, bulkRunning := s.bulkRunning + job.bulk.toNat
    threads := s.threads.set w (.running job) }

/-- The predicate `ready` of a waiting worker and what follows the wait. -/
def poll (w : Nat) (timedOut : Bool) (now : Job → UInt64) : State × Event :=
  if s.stopping then (s.leave w, .silent)
  else match s.pickLocked now with
    | some job => (s.take w job, .started job)
    | none =>
      if timedOut then ({ s.leave w with exited := s.exited ++ [w] }, .silent) else (s, .silent)

/-- Worker `w` at its wait. Only a worker of the shared pool that was parked can time out. -/
def wait (w : Nat) (timedOut : Bool) (now : Job → UInt64) : Option (State × Event) :=
  match s.threads[w]? with
  | some .top => some ((s.park w).poll w false now)
  | some .parked => some (s.poll w (s.isShared && timedOut) now)
  | _ => none

/-- Worker `w` after its job. -/
def finish (w : Nat) : Option State :=
  match s.threads[w]? with
  | some (.running job) =>
    some { s with
      running := Function.update s.running job.owner (s.running job.owner - 1)
      busy := s.busy - 1, bulkRunning := s.bulkRunning - job.bulk.toNat
      threads := s.threads.set w .top }
  | _ => none

end State

/-- The pool as constructed: `shared()` starts no thread before it needs one. -/
def create (isShared : Bool) (threads : Nat) : State :=
  let s : State := { isShared, configuredThreads := threads }
  if isShared then s else s.startLocked threads

inductive Action
  | start (threads : Nat)
  | submit (owner : Nat) (priority : UInt8) (heat : Bool) (now : UInt64)
  | cancel (owner : Nat)
  | waitOwner (owner : Nat)
  | waitIdle
  | shutdown
  | joined (workers : List Nat)
  | wait (w : Nat) (timedOut : Bool) (now : Job → UInt64)
  | finish (w : Nat)

/-- `waitOwner` and `waitIdle` are the returns of these calls. -/
def step (s : State) : Action → Option (State × Event)
  | .start threads => some (s.startLocked threads, .silent)
  | .submit owner priority heat now => some (s.submit owner priority heat now)
  | .cancel owner => some (s.cancel owner)
  | .waitOwner owner => if s.ownerDone owner then some (s, .silent) else none
  | .waitIdle => if s.busy = 0 ∧ (s.queue = [] ∨ s.live = 0) then some (s, .silent) else none
  | .shutdown => some s.shutdown
  | .joined workers => (s.joined workers).map (·, .silent)
  | .wait w timedOut now => s.wait w timedOut now
  | .finish w => (s.finish w).map (·, .silent)

/-- Runs whose steps all meet `p`, with their events. -/
inductive Runs (p : State → Action → Prop) : State → List Event → State → Prop
  | nil (s) : Runs p s [] s
  | cons {s a t e tr u} : p s a → step s a = some (t, e) → Runs p t tr u → Runs p s (e :: tr) u

/-- A shared pool that was shut down is not started again. -/
def NotReopened (s : State) : Action → Prop
  | .start threads => s.isShared → s.closed → threads = 0
  | _ => True

namespace Event

def accepts : Event → List Job
  | .accepted job => [job]
  | _ => []

/-- The jobs that leave the queue. -/
def takes : Event → List Job
  | .started job => [job]
  | .cancelled _ jobs => jobs
  | .dropped jobs => jobs
  | _ => []

end Event

/-- What the counters of the class count among the threads. -/
inductive Counter
  | live
  | idle
  | busy
  | bulkRunning
  | running (owner : Nat)

namespace Counter

def test : Counter → Phase → Bool
  | .live, .ended => false
  | .live, _ => true
  | .idle, .parked => true
  | .busy, .running _ => true
  | .bulkRunning, .running job => job.bulk
  | .running owner, .running job => job.owner = owner
  | _, _ => false

def value (s : State) : Counter → Nat
  | .live => s.live
  | .idle => s.idle
  | .busy => s.busy
  | .bulkRunning => s.bulkRunning
  | .running owner => s.running owner

end Counter

/-- Whether thread `w` runs a job of low priority. -/
def State.bulkOn (s : State) (w : Nat) : Bool :=
  s.threads[w]?.any Counter.bulkRunning.test

/-- `job` may start and no other job that may start goes before it. -/
structure Chosen (queue : List Job) (bulkOk : Bool) (now : Job → UInt64) (job : Job) : Prop where
  mem : job ∈ queue
  mayStart : job.mayStart bulkOk = true
  best : ∀ it ∈ queue, it.mayStart bulkOk = true → ¬ it.Beats now job

/-- What the pool owes its callers in a state `s` reached with the events `tr`. -/
structure Contract (tr : List Event) (s : State) : Prop where
  once : (tr.flatMap Event.accepts).Nodup
  accounted : (tr.flatMap Event.accepts).Perm (s.queue ++ tr.flatMap Event.takes)
  owned : ∀ owner jobs, .cancelled owner jobs ∈ tr → ∀ job ∈ jobs, job.owner = owner
  cancelled : ∀ before owner jobs after, tr = before ++ .cancelled owner jobs :: after →
    (∀ job, .accepted job ∈ after → job.owner ≠ owner) →
    ∀ job, .started job ∈ after → job.owner ≠ owner
  waited : ∀ owner r, step s (.waitOwner owner) = some r → (∃ ph ∈ s.threads, ph ≠ .ended) →
    (∀ job ∈ s.queue, job.owner ≠ owner) ∧ ∀ job, .running job ∈ s.threads → job.owner ≠ owner
  refused : s.isShared = true → ∀ before jobs after, tr = before ++ .dropped jobs :: after →
    ∀ job, .accepted job ∉ after
  counters : ∀ c : Counter, c.value s = s.threads.countP c.test
  reserved : 2 ≤ s.size → s.workers.countP s.bulkOn < s.size
  chosen : ∀ w timedOut now t job, s.wait w timedOut now = some (t, .started job) →
    Chosen s.queue s.bulkOk now job

end Brass.Runtime.CompilePool
