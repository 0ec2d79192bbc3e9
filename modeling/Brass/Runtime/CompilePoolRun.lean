import Brass.Runtime.CompilePool

/-!
# What the compile pool keeps

The counters follow the phases of the threads, step by step, and the events account for every job.
The one thing that can go wrong is `start` on a shared pool that was shut down: `start_locked`
clears `closed_` there too, and the pool takes jobs again.
-/

namespace Brass.Runtime.CompilePool

open List State Counter Event

variable {p : State → Action → Prop} {s t u : State} {a : Action} {e : Event} {tr : List Event}
  {w : Nat} {timedOut : Bool} {now : Job → UInt64} {job : Job}

namespace Runs

theorem keep {P : State → Prop} (h : Runs p s tr u)
    (hstep : ∀ {s a t e}, p s a → step s a = some (t, e) → P s → P t) (hs : P s) : P u := by
  induction h with
  | nil => exact hs
  | cons hp hst _ ih => exact ih (hstep hp hst hs)

theorem split {before after : List Event} (h : Runs p s (before ++ e :: after) u) :
    ∃ s₁ a t, p s₁ a ∧ step s₁ a = some (t, e) ∧ Runs p t after u := by
  induction before generalizing s with
  | nil =>
    cases h with
    | cons hp hst hrest => exact ⟨_, _, _, hp, hst, hrest⟩
  | cons e' before ih =>
    cases h with
    | cons _ _ hrest => exact ih hrest

end Runs

/-! ### The job a worker takes -/

theorem Job.Beats.not_beats {it b c : Job} (h : it.Beats now b) (hc : ¬ c.Beats now b) :
    ¬ c.Beats now it := by
  simp only [Job.Beats, UInt8.lt_iff_toNat_lt, UInt64.lt_iff_toNat_lt, ← UInt8.toNat_inj,
    ← UInt64.toNat_inj] at *
  omega

theorem Chosen.snoc {queue : List Job} {bulkOk : Bool} {it : Job} (h : Chosen queue bulkOk now job)
    (hit : it.mayStart bulkOk = true → ¬ it.Beats now job) :
    Chosen (queue ++ [it]) bulkOk now job := by
  refine ⟨by simp [h.mem], h.mayStart, fun x hx hok => ?_⟩
  obtain hx | rfl : x ∈ queue ∨ x = it := by simpa using hx
  · exact h.best x hx hok
  · exact hit hok

/-- The best job after the loop of `pick_locked` went over `seen`. -/
def Scanned (bulkOk : Bool) (now : Job → UInt64) (seen : List Job) : Option Job → Prop
  | none => ∀ it ∈ seen, it.mayStart bulkOk = false
  | some job => Chosen seen bulkOk now job

theorem Scanned.consider {bulkOk : Bool} {seen : List Job} {best : Option Job}
    (h : Scanned bulkOk now seen best) (it : Job) :
    Scanned bulkOk now (seen ++ [it]) (Job.consider bulkOk now best it) := by
  unfold Job.consider
  split
  · next hit =>
    cases best with
    | none =>
      refine ⟨by simp, hit, fun x hx hok => ?_⟩
      obtain hx | rfl : x ∈ seen ∨ x = it := by simpa using hx
      · simp [h x hx] at hok
      · simp [Job.Beats]
    | some b =>
      dsimp only
      split
      · next hbeats =>
        refine ⟨by simp, hit, fun x hx hok => ?_⟩
        obtain hx | rfl : x ∈ seen ∨ x = it := by simpa using hx
        · exact hbeats.not_beats (h.best x hx hok)
        · simp [Job.Beats]
      · next hbeats => exact h.snoc fun _ => hbeats
  · next hit =>
    cases best with
    | none => simpa [Scanned, or_imp, forall_and] using And.intro h (by simpa using hit)
    | some b => exact h.snoc fun hok => absurd hok hit

theorem Scanned.foldl {bulkOk : Bool} {seen : List Job} {best : Option Job}
    (h : Scanned bulkOk now seen best) (rest : List Job) :
    Scanned bulkOk now (seen ++ rest) (rest.foldl (Job.consider bulkOk now) best) := by
  induction rest generalizing seen best with
  | nil => simpa using h
  | cons it rest ih => simpa using ih (h.consider it)

theorem pickLocked_chosen (h : s.pickLocked now = some job) : Chosen s.queue s.bulkOk now job := by
  have hseen : Scanned s.bulkOk now [] none := by simp [Scanned]
  have hall := hseen.foldl s.queue
  rwa [← pickLocked, h] at hall

/-! ### One step -/

/-- What a worker does once its wait is over or found nothing. -/
theorem poll_cases (h : s.poll w timedOut now = (t, e)) :
    (t = s ∨ t = s.leave w ∨ t = { s.leave w with exited := s.exited ++ [w] }) ∧ e = .silent ∨
      ∃ job, s.pickLocked now = some job ∧ t = s.take w job ∧ e = .started job := by
  unfold poll at h
  split at h
  · cases h
    exact .inl ⟨.inr (.inl rfl), rfl⟩
  · split at h
    · next job hpick =>
      cases h
      exact .inr ⟨job, hpick, rfl, rfl⟩
    · split at h <;> cases h
      · exact .inl ⟨.inr (.inr rfl), rfl⟩
      · exact .inl ⟨.inl rfl, rfl⟩

theorem wait_cases (h : s.wait w timedOut now = some (t, e)) :
    ∃ r b, (r = s ∨ s.threads[w]? = some .top ∧ r = s.park w) ∧
      r.threads[w]? = some .parked ∧ r.poll w b now = (t, e) := by
  unfold wait at h
  split at h
  · next htop =>
    refine ⟨_, _, .inr ⟨htop, rfl⟩, ?_, by simpa using h⟩
    simp [park, (List.getElem?_eq_some_iff.1 htop).1]
  · next hparked => exact ⟨s, _, .inl rfl, hparked, by simpa using h⟩
  · simp at h

theorem spawnLocked_cases (s : State) : s.spawnLocked = s ∨ s.spawnLocked = { s with
        exited := [], live := s.live + 1
        workers := s.workers.filter (· ∉ s.exited) ++ [s.threads.length]
        threads := s.threads ++ [.top] } := by
  unfold spawnLocked
  split
  · exact .inl rfl
  · exact .inr rfl

/-- What a step does to the jobs and to the door of a shared pool. -/
structure Moves (s t : State) (e : Event) : Prop where
  jobs : (s.queue ++ e.accepts).Perm (t.queue ++ e.takes)
  shared : t.isShared = s.isShared
  submitted : e.accepts = [] ∧ t.submitted = s.submitted ∨
    ∃ job, e = .accepted job ∧ job.run = s.submitted ∧ t.submitted = s.submitted + 1 ∧
      s.closed = false
  closed : s.isShared = true → s.closed = true → t.closed = true
  cancels : ∀ owner jobs, e = .cancelled owner jobs →
    (∀ job ∈ jobs, job.owner = owner) ∧ ∀ job ∈ t.queue, job.owner ≠ owner := by simp
  drops : ∀ jobs, e = .dropped jobs → t.isShared = true → t.closed = true := by simp

theorem Moves.silent (hqueue : t.queue = s.queue) (hshared : t.isShared = s.isShared)
    (hsubmitted : t.submitted = s.submitted)
    (hclosed : s.isShared = true → s.closed = true → t.closed = true) : Moves s t .silent where
  jobs := by rw [hqueue]; rfl
  shared := hshared
  submitted := .inl ⟨rfl, hsubmitted⟩
  closed := hclosed

theorem Moves.accepted (hopen : s.closed = false) (hrun : job.run = s.submitted)
    (hqueue : t.queue = s.queue ++ [job]) (hshared : t.isShared = s.isShared)
    (hsubmitted : t.submitted = s.submitted + 1) : Moves s t (.accepted job) where
  jobs := by simp [hqueue, accepts, takes]
  shared := hshared
  submitted := .inr ⟨job, rfl, hrun, hsubmitted, hopen⟩
  closed := by simp [hopen]

theorem poll_moves (h : s.poll w timedOut now = (t, e)) : Moves s t e := by
  obtain ⟨rfl | rfl | rfl, rfl⟩ | ⟨job, hpick, rfl, rfl⟩ := poll_cases h
  · exact .silent rfl rfl rfl fun _ h => h
  · exact .silent rfl rfl rfl fun _ h => h
  · exact .silent rfl rfl rfl fun _ h => h
  · have hperm := perm_cons_erase (pickLocked_chosen hpick).mem
    exact {
      jobs := by
        simpa [accepts, takes, State.take] using hperm.trans (perm_append_singleton _ _).symm
      shared := rfl
      submitted := .inl ⟨rfl, rfl⟩
      closed := fun _ h => h }

theorem submit_moves {owner : Nat} {priority : UInt8} {heat : Bool} {read : UInt64}
    (h : s.submit owner priority heat read = (t, e)) : Moves s t e := by
  unfold submit at h
  split at h
  · cases h
    exact { jobs := .refl _, shared := rfl, submitted := .inl ⟨rfl, rfl⟩, closed := fun _ h => h }
  · next hopen =>
    have hclosed : s.closed = false := by simpa using fun h => hopen (.inl h)
    obtain ⟨rfl, rfl⟩ := Prod.mk.inj h
    by_cases hshared : s.isShared = true
    · rw [if_pos hshared]
      obtain h | h := spawnLocked_cases (s.enqueue _) <;> rw [h] <;>
        exact .accepted hclosed rfl rfl rfl rfl
    · rw [if_neg hshared]
      exact .accepted hclosed rfl rfl rfl rfl

theorem step_moves (hp : NotReopened s a) (h : step s a = some (t, e)) : Moves s t e := by
  cases a with
  | start threads =>
    simp only [step, startLocked, Option.some.injEq, Prod.mk.injEq] at h
    obtain ⟨rfl, rfl⟩ := h
    split
    · exact .silent rfl rfl rfl fun _ h => h
    · next hn => exact .silent rfl rfl rfl fun h h' => absurd (.inr (hp h h')) hn
  | submit owner priority heat now => exact submit_moves (Option.some.inj h)
  | cancel owner =>
    cases h
    refine ⟨?_, rfl, .inl ⟨rfl, rfl⟩, fun _ h => h, ?_, by simp⟩
    · have hperm := filter_append_perm (·.owner ≠ owner) s.queue
      simpa [accepts, takes] using hperm.symm
    · rintro _ _ ⟨⟩
      simp +contextual
  | waitOwner owner =>
    simp only [step] at h
    split at h <;> cases h
    exact .silent rfl rfl rfl fun _ h => h
  | waitIdle =>
    simp only [step] at h
    split at h <;> cases h
    exact .silent rfl rfl rfl fun _ h => h
  | shutdown =>
    simp only [step, shutdown, Option.some.injEq, Prod.mk.injEq] at h
    obtain ⟨rfl, rfl⟩ := h
    split <;> exact ⟨by simp [accepts, takes], rfl, .inl ⟨rfl, rfl⟩,
      fun _ h => by simp [h], by simp, fun _ _ h => by simpa using .inr h⟩
  | joined workers =>
    simp only [step, joined] at h
    split at h <;> cases h
    exact .silent rfl rfl rfl fun _ h => h
  | wait w timedOut now =>
    obtain ⟨r, b, rfl | ⟨-, rfl⟩, -, h⟩ := wait_cases h
    · exact poll_moves h
    · exact { poll_moves h with }
  | finish w =>
    simp only [step, finish] at h
    split at h <;> cases h
    exact .silent rfl rfl rfl fun _ h => h

/-! ### The counters -/

/-- The counters count the threads, and one worker of the pool at least runs no job of low
priority. -/
structure Kept (s : State) : Prop where
  counters : ∀ c : Counter, c.value s = s.threads.countP c.test
  nodup : s.workers.Nodup
  below : ∀ w ∈ s.workers, w < s.threads.length
  reserved : 2 ≤ s.size → s.workers.countP s.bulkOn < s.size

theorem countP_bulkOn_le (hnodup : s.workers.Nodup)
    (hbelow : ∀ w ∈ s.workers, w < s.threads.length) :
    s.workers.countP s.bulkOn ≤ s.threads.countP bulkRunning.test := by
  have hsub : s.workers.Subperm (range s.threads.length) :=
    hnodup.subperm fun w hw => mem_range.2 (hbelow w hw)
  have hall : (range s.threads.length).map (s.threads[·]?) = s.threads.map some := by
    refine ext_getElem (by simp) fun i hi _ => ?_
    simp at hi ⊢
  calc s.workers.countP s.bulkOn ≤ (range s.threads.length).countP s.bulkOn := hsub.countP_le _
    _ = ((range s.threads.length).map (s.threads[·]?)).countP
          (Option.any bulkRunning.test) := by rw [countP_map]; rfl
    _ = s.threads.countP bulkRunning.test := by rw [hall, countP_map]; rfl

theorem Kept.move {old p : Phase} (h : Kept s) (hw : s.threads[w]? = some old)
    (hthreads : t.threads = s.threads.set w p)
    (hvalue : ∀ c : Counter, (c.test old).toNat ≤ c.value s →
      c.value t + (c.test old).toNat = c.value s + (c.test p).toNat)
    (hworkers : t.workers = s.workers) (hsize : t.size = s.size)
    (hbulk : bulkRunning.test p = true → 2 ≤ s.size → t.bulkRunning < s.size) :
    Kept t := by
  obtain ⟨hlt, hold⟩ := List.getElem?_eq_some_iff.1 hw
  have hcounters : ∀ c : Counter, c.value t = t.threads.countP c.test := by
    intro c
    have hone : (c.test old).toNat ≤ s.threads.countP c.test := by
      cases htest : c.test old with
      | false => simp
      | true => exact countP_pos_iff.2 ⟨old, hold ▸ getElem_mem hlt, htest⟩
    have hc := hvalue c (h.counters c ▸ hone)
    rw [hthreads, countP_set hlt, hold]
    rw [h.counters c] at hc
    generalize s.threads.countP c.test = k, c.test old = x, c.test p = y at hc hone ⊢
    cases x <;> cases y <;> simp at hc hone ⊢ <;> omega
  have hnodup : t.workers.Nodup := hworkers ▸ h.nodup
  have hbelow : ∀ w ∈ t.workers, w < t.threads.length := by
    simpa [hworkers, hthreads] using h.below
  refine ⟨hcounters, hnodup, hbelow, fun h2 => ?_⟩
  rw [hsize] at h2 ⊢
  by_cases hph : bulkRunning.test p = true
  · calc t.workers.countP t.bulkOn
        ≤ t.threads.countP bulkRunning.test := countP_bulkOn_le hnodup hbelow
      _ = t.bulkRunning := (hcounters .bulkRunning).symm
      _ < s.size := hbulk hph h2
  · refine Nat.lt_of_le_of_lt ?_ (h.reserved h2)
    rw [hworkers]
    refine countP_mono_left fun x _ hx => ?_
    simp only [bulkOn, hthreads, getElem?_set] at hx ⊢
    split at hx
    · simp_all
    · exact hx

theorem Kept.grow {n : Nat} (h : Kept s) (hthreads : t.threads = s.threads ++ replicate n .top)
    (hvalue : ∀ c : Counter, c.value t = c.value s + n * (c.test .top).toNat)
    (hnodup : t.workers.Nodup) (hbelow : ∀ w ∈ t.workers, w < s.threads.length + n)
    (hreserved : 2 ≤ t.size → t.workers.countP s.bulkOn < t.size) : Kept t := by
  have hbulkOn : t.bulkOn = s.bulkOn := by
    funext w
    simp only [bulkOn, hthreads, getElem?_append, getElem?_replicate]
    split
    · rfl
    · next hw =>
      rw [getElem?_eq_none (by omega)]
      split <;> rfl
  refine ⟨fun c => ?_, hnodup, by simpa [hthreads] using hbelow, by rwa [hbulkOn]⟩
  rw [hvalue, h.counters c, hthreads, countP_append, countP_replicate]
  cases c.test .top <;> simp

theorem Kept.startLocked (h : Kept s) (n : Nat) : Kept (s.startLocked n) := by
  unfold State.startLocked
  split
  · exact h
  · next hn =>
    refine h.grow rfl (fun c => by cases c <;> simp [value, test])
      nodup_range' (by simp) fun h2 => ?_
    have hnone : (range' s.threads.length n).countP s.bulkOn = 0 := by
      refine countP_eq_zero.2 fun w hw => ?_
      have := (mem_range'_1.1 hw).1
      simp [bulkOn, getElem?_eq_none this]
    exact hnone ▸ by omega

theorem Kept.spawnLocked (h : Kept s) (hshared : s.isShared = true) : Kept s.spawnLocked := by
  obtain ht | ht := spawnLocked_cases s
  · rwa [ht]
  · rw [ht]
    refine h.grow (n := 1) rfl (fun c => by cases c <;> simp [value, test]) ?_ ?_ fun h2 => ?_
    · have hnew : s.threads.length ∉ s.workers := fun hw => Nat.lt_irrefl _ (h.below _ hw)
      refine nodup_append.2 ⟨h.nodup.filter _, by simp, fun w hw w' hw' => ?_⟩
      have := (mem_filter.1 hw).1
      grind
    · intro w hw
      obtain hw | rfl : w ∈ s.workers.filter (· ∉ s.exited) ∨ w = s.threads.length := by
        simpa using hw
      · exact Nat.lt_succ_of_lt (h.below w (mem_filter.1 hw).1)
      · exact Nat.lt_succ_self _
    · have hsize : s.size = s.configuredThreads := by simp [size, hshared]
      have hle : (s.workers.filter (· ∉ s.exited)).countP s.bulkOn ≤ s.workers.countP s.bulkOn :=
        filter_sublist.countP_le
      have hnone : s.bulkOn s.threads.length = false := by simp [bulkOn]
      have hlt := h.reserved (by simpa [size, hshared] using h2)
      simp only [size, hshared, if_true, countP_append, countP_cons, hnone, countP_nil] at hlt ⊢
      simpa using Nat.lt_of_le_of_lt hle hlt

theorem Kept.park (h : Kept s) (hw : s.threads[w]? = some .top) : Kept (s.park w) :=
  h.move hw rfl (fun c _ => by cases c <;> simp_all [value, test, State.park]) rfl rfl
    (by simp [test])

theorem Kept.poll (h : Kept s) (hw : s.threads[w]? = some .parked)
    (hpoll : s.poll w timedOut now = (t, e)) : Kept t := by
  have hleave : Kept (s.leave w) :=
    h.move (w := w) (p := .ended) hw rfl (fun c hc => by cases c <;> simp_all [value, test, leave])
      rfl rfl (by simp [test])
  obtain ⟨rfl | rfl | rfl, -⟩ | ⟨job, hpick, rfl, -⟩ := poll_cases hpoll
  · exact h
  · exact hleave
  · exact ⟨hleave.counters, hleave.nodup, hleave.below, hleave.reserved⟩
  · refine h.move (w := w) (p := .running job) hw rfl (fun c hc => ?_) rfl rfl fun hbulk h2 => ?_
    · cases c <;> simp_all [value, test, State.take, Function.update_apply]
      · grind
    · have hmay := (pickLocked_chosen hpick).mayStart
      have hlow : job.bulk = true := hbulk
      have hok : s.bulkOk = true := by simpa [Job.mayStart, hlow] using hmay
      simp only [State.bulkOk, decide_eq_true_eq] at hok
      simp only [State.take, hlow, Bool.toNat_true]
      split at hok <;> omega

theorem Kept.step (h : Kept s) (hstep : step s a = some (t, e)) : Kept t := by
  cases a with
  | start threads =>
    cases hstep
    exact h.startLocked threads
  | submit owner priority heat now =>
    simp only [CompilePool.step, submit, Option.some.injEq] at hstep
    split at hstep <;> cases hstep
    · exact h
    · have hqueued : ∀ job, Kept (s.enqueue job) :=
        fun _ => ⟨h.counters, h.nodup, h.below, h.reserved⟩
      split
      · next hshared => exact (hqueued _).spawnLocked hshared
      · exact hqueued _
  | cancel owner =>
    cases hstep
    exact ⟨h.counters, h.nodup, h.below, h.reserved⟩
  | waitOwner owner =>
    simp only [CompilePool.step] at hstep
    split at hstep <;> cases hstep
    exact h
  | waitIdle =>
    simp only [CompilePool.step] at hstep
    split at hstep <;> cases hstep
    exact h
  | shutdown =>
    simp only [CompilePool.step, shutdown, Option.some.injEq, Prod.mk.injEq] at hstep
    obtain ⟨rfl, rfl⟩ := hstep
    split
    · exact ⟨h.counters, h.nodup, h.below, h.reserved⟩
    · exact ⟨h.counters, by simp, by simp, fun h2 => Nat.lt_of_lt_of_le (by simp) h2⟩
  | joined workers =>
    simp only [CompilePool.step, joined] at hstep
    split at hstep <;> cases hstep
    exact ⟨h.counters, h.nodup, h.below, h.reserved⟩
  | wait w timedOut now =>
    obtain ⟨r, b, rfl | ⟨htop, rfl⟩, hparked, hpoll⟩ := wait_cases hstep
    · exact h.poll hparked hpoll
    · exact (h.park htop).poll hparked hpoll
  | finish w =>
    simp only [CompilePool.step, finish] at hstep
    split at hstep <;> cases hstep
    next job hjob =>
    refine h.move (w := w) (p := .top) hjob rfl (fun c hc => ?_) rfl rfl (by simp [test])
    cases c <;> simp_all [value, test, Function.update_apply]
    · grind

theorem kept_create (isShared : Bool) (threads : Nat) :
    Kept (create isShared threads) ∧ (create isShared threads).queue = [] := by
  have hnew : Kept { isShared, configuredThreads := threads } := by
    refine ⟨fun c => by cases c <;> rfl, .nil, by simp, fun h2 => ?_⟩
    exact Nat.lt_of_lt_of_le (by simp) h2
  cases isShared with
  | true => exact ⟨hnew, rfl⟩
  | false =>
    refine ⟨hnew.startLocked threads, ?_⟩
    change (startLocked _ threads).queue = []
    unfold startLocked
    split <;> rfl

/-! ### Whole runs -/

namespace Runs

theorem accounted (h : Runs NotReopened s tr u) :
    (s.queue ++ tr.flatMap accepts).Perm (u.queue ++ tr.flatMap takes) := by
  induction h with
  | nil => exact .refl _
  | cons hp hst _ ih =>
    refine perm_iff_count.2 fun job => ?_
    have hone := perm_iff_count.1 (step_moves hp hst).jobs job
    have hrest := perm_iff_count.1 ih job
    simp only [flatMap_cons, count_append] at hone hrest ⊢
    omega

/-- Submissions are numbered as they are accepted. -/
theorem fresh (h : Runs NotReopened s tr u) : (tr.flatMap accepts).Nodup ∧
    ∀ job ∈ tr.flatMap accepts, s.submitted ≤ job.run := by
  induction h with
  | nil => simp
  | cons hp hst _ ih =>
    obtain ⟨hnone, hsame⟩ | ⟨job, rfl, hrun, hnext, -⟩ := (step_moves hp hst).submitted
    · simpa [hnone, ← hsame] using ih
    · simp only [flatMap_cons, accepts, singleton_append, nodup_cons]
      refine ⟨⟨fun hmem => ?_, ih.1⟩, fun x hx => ?_⟩
      · have := ih.2 job hmem
        omega
      · obtain rfl | hx := mem_cons.1 hx
        · exact Nat.le_of_eq hrun.symm
        · have := ih.2 x hx
          omega

theorem started_ne {owner : Nat} (h : Runs NotReopened s tr u) (hs : ∀ job ∈ s.queue, job.owner ≠ owner)
    (hacc : ∀ job, .accepted job ∈ tr → job.owner ≠ owner) :
    ∀ job, .started job ∈ tr → job.owner ≠ owner := by
  intro job hjob
  have htakes : job ∈ u.queue ++ tr.flatMap takes :=
    mem_append_right _ (mem_flatMap.2 ⟨_, hjob, mem_singleton_self _⟩)
  obtain hq | hq := mem_append.1 (h.accounted.mem_iff.2 htakes)
  · exact hs job hq
  · obtain ⟨e, he, hje⟩ := mem_flatMap.1 hq
    cases e <;> simp [accepts] at hje
    exact hacc job (hje ▸ he)

theorem isShared_eq (h : Runs NotReopened s tr u) : u.isShared = s.isShared :=
  h.keep (P := fun t => t.isShared = s.isShared)
    (fun hp hst hs => (step_moves hp hst).shared.trans hs) rfl

end Runs

theorem Kept.waited {owner : Nat} (h : Kept s) (hdone : s.ownerDone owner = true)
    (halive : ∃ ph ∈ s.threads, ph ≠ .ended) : (∀ job ∈ s.queue, job.owner ≠ owner) ∧
      ∀ job, .running job ∈ s.threads → job.owner ≠ owner := by
  obtain ⟨ph, hph, hne⟩ := halive
  have hlive : s.live ≠ 0 := by
    have htest : live.test ph = true := by cases ph <;> simp_all [test]
    have hpos := countP_pos_iff.2 ⟨ph, hph, htest⟩
    rw [← h.counters .live] at hpos
    exact Nat.ne_of_gt hpos
  simp only [ownerDone, hlive, if_false, ownerIdleLocked, Bool.and_eq_true,
    decide_eq_true_eq, all_eq_true] at hdone
  refine ⟨hdone.2, fun job hjob heq => ?_⟩
  have hnone := countP_eq_zero.1 ((h.counters (.running owner)).symm.trans hdone.1)
  exact hnone _ hjob (decide_eq_true heq)

theorem Runs.refuses (h : Runs NotReopened s tr u) (hs : s.isShared = true → s.closed = true)
    (hshared : u.isShared = true) : .accepted job ∉ tr := by
  intro hmem
  induction h with
  | nil => cases hmem
  | cons hp hst hrest ih =>
    have hmoves := step_moves hp hst
    obtain rfl | hmem := mem_cons.1 hmem
    · obtain ⟨h, -⟩ | ⟨-, -, -, -, hopen⟩ := hmoves.submitted
      · cases h
      · have hall := hmoves.shared.symm.trans (hrest.isShared_eq.symm.trans hshared)
        simp [hs hall] at hopen
    · exact ih (fun h => hmoves.closed (hmoves.shared ▸ h) (hs (hmoves.shared ▸ h))) hshared hmem

/-- Every run in which no shared pool is started again after its shutdown keeps the contract. -/
theorem pool_contract (isShared : Bool) (threads : Nat) {tr : List Event}
    (h : Runs NotReopened (create isShared threads) tr s) : Contract tr s := by
  obtain ⟨hcreate, hqueue⟩ := kept_create isShared threads
  have hkept : Kept s := h.keep (fun _ hst hs => hs.step hst) hcreate
  refine ⟨h.fresh.1, by simpa [hqueue] using h.accounted, ?_, ?_, ?_, ?_, hkept.counters,
    hkept.reserved, ?_⟩
  · intro owner jobs hmem
    obtain ⟨before, after, rfl⟩ := append_of_mem hmem
    obtain ⟨s₁, a, t, hp, hst, -⟩ := h.split
    exact ((step_moves hp hst).cancels owner jobs rfl).1
  · rintro before owner jobs after rfl hacc
    obtain ⟨s₁, a, t, hp, hst, hafter⟩ := h.split
    exact hafter.started_ne ((step_moves hp hst).cancels owner jobs rfl).2 hacc
  · intro owner r hr
    simp only [step] at hr
    split at hr
    · next hdone => exact hkept.waited hdone
    · cases hr
  · rintro hshared before jobs after rfl job
    obtain ⟨s₁, a, t, hp, hst, hafter⟩ := h.split
    exact hafter.refuses ((step_moves hp hst).drops jobs rfl) hshared
  · intro w timedOut now t job hwait
    obtain ⟨r, b, hr, -, hpoll⟩ := wait_cases hwait
    obtain ⟨-, he⟩ | ⟨job', hpick, -, he⟩ := poll_cases hpoll
    · cases he
    · cases he
      obtain rfl | ⟨-, rfl⟩ := hr <;> exact pickLocked_chosen hpick

/-- A pool of two, a job of low priority and the thread that takes it. -/
theorem pool_contract_take : ∃ s job,
    Contract [.accepted job, .started job] s ∧ s.bulkRunning = 1 ∧ s.size = 2 := by
  have hrun : Runs NotReopened (create false 2)
      [.accepted ⟨7, 1, 1, 0, false, 0⟩, .started ⟨7, 1, 1, 0, false, 0⟩] _ :=
    .cons (a := .submit 7 1 false 0) trivial rfl
      (.cons (a := .wait 0 false fun _ => 0) trivial rfl (.nil _))
  exact ⟨_, _, pool_contract false 2 hrun, rfl, rfl⟩

/-- A shared pool that is shut down and started again takes the next job. -/
theorem reopened_accepts : ∃ tr s,
    Runs (fun _ _ => True) (create true 1) tr s ∧ ¬ Contract tr s := by
  have hrun : Runs (fun _ _ => True) (create true 1)
      [.dropped [], .silent, .accepted ⟨7, 200, 1, 0, false, 0⟩] _ :=
    .cons (a := .shutdown) trivial rfl (.cons (a := .start 1) trivial rfl
      (.cons (a := .submit 7 200 false 0) trivial rfl (.nil _)))
  exact ⟨_, _, hrun, fun h => h.refused rfl [] [] _ rfl _ (.tail _ (.head _))⟩

/-! ### The way to an idle pool -/

/-- A worker gets on: it takes a job, comes back from one, or ends because the pool stops. -/
inductive Works (s t : State) : Prop
  | waited (w : Nat) (now : Job → UInt64) (e : Event) (hon : s.stopping = true ∨ e ≠ .silent)
      (h : s.wait w false now = some (t, e))
  | returned (w : Nat) (h : s.finish w = some t)

/-- A job in the queue has to be taken and to come back. -/
def State.toDo (s : State) : Nat := 2 * s.queue.length + s.busy + s.live

theorem Kept.pos (h : Kept s) (c : Counter) {ph : Phase} (hw : s.threads[w]? = some ph)
    (hc : c.test ph = true) : 0 < c.value s := by
  rw [h.counters c]
  exact countP_pos_iff.2 ⟨ph, mem_of_getElem? hw, hc⟩

theorem Kept.exists_thread (h : Kept s) (c : Counter) (hc : c.value s ≠ 0) :
    ∃ (w : Nat) (ph : Phase), s.threads[w]? = some ph ∧ c.test ph = true := by
  rw [h.counters c] at hc
  obtain ⟨ph, hph, htest⟩ := countP_pos_iff.1 (Nat.pos_of_ne_zero hc)
  obtain ⟨w, hw⟩ := getElem?_of_mem hph
  exact ⟨w, ph, hw, htest⟩

theorem Kept.value_eq_zero (h : Kept s) (hbusy : s.busy = 0) {c : Counter}
    (hc : ∀ ph, c.test ph = true → busy.test ph = true) : c.value s = 0 := by
  by_contra hne
  obtain ⟨w, ph, hw, htest⟩ := h.exists_thread c hne
  exact absurd hbusy (Nat.ne_of_gt (h.pos .busy hw (hc ph htest)))

theorem Works.less (h : Works s t) (hk : Kept s) :
    Kept t ∧ t.toDo < s.toDo ∧ t.size = s.size ∧ t.stopping = s.stopping ∧ t.live ≤ s.live := by
  cases h with
  | waited w now e hon h =>
    have hkept : Kept t := hk.step (a := .wait w false now) h
    obtain ⟨r, b, hr, hparked, hpoll⟩ := wait_cases h
    obtain ⟨hkr, htoDo, hsize, hlive, hstop⟩ : Kept r ∧ s.toDo = r.toDo ∧ s.size = r.size ∧
        s.live = r.live ∧ s.stopping = r.stopping := by
      obtain rfl | ⟨htop, rfl⟩ := hr
      · exact ⟨hk, rfl, rfl, rfl, rfl⟩
      · exact ⟨hk.park htop, rfl, rfl, rfl, rfl⟩
    rw [htoDo, hsize, hlive, hstop]
    by_cases hs : r.stopping = true
    · rw [State.poll, if_pos hs] at hpoll
      cases hpoll
      have hpos : 0 < r.live := hkr.pos .live hparked rfl
      refine ⟨hkept, ?_, rfl, rfl, Nat.sub_le _ _⟩
      simp only [toDo, leave]
      omega
    · obtain ⟨-, he⟩ | ⟨job, hpick, rfl, -⟩ := poll_cases hpoll
      · exact absurd he (hon.resolve_left (hstop ▸ hs))
      · have hmem := (pickLocked_chosen hpick).mem
        have hpos := length_pos_of_mem hmem
        refine ⟨hkept, ?_, rfl, rfl, Nat.le_refl _⟩
        simp only [toDo, State.take, length_erase_of_mem hmem]
        omega
  | returned w h =>
    have hkept : Kept t := hk.step (a := .finish w) (by rw [step, h]; rfl)
    unfold finish at h
    split at h <;> cases h
    next job hjob =>
    have hpos : 0 < s.busy := hk.pos .busy hjob rfl
    refine ⟨hkept, ?_, rfl, rfl, Nat.le_refl _⟩
    simp only [toDo]
    omega

/-- While a job runs, or waits for a worker that is alive, some worker can get on. -/
theorem Kept.works (h : Kept s) (hsize : s.stopping = false → s.size = 0 → s.live = 0)
    (hwait : s.busy = 0 → s.queue ≠ [] ∧ s.live ≠ 0) : ∃ t, Works s t := by
  by_cases hbusy : s.busy = 0
  · obtain ⟨hqueue, hlive⟩ := hwait hbusy
    obtain ⟨w, ph, hw, htest⟩ := h.exists_thread .live hlive
    -- No job runs: the worker is at its wait.
    obtain ⟨r, hr, hrq, hrs, hrb⟩ : ∃ r : State,
        s.wait w false (fun _ => 0) = some (r.poll w false fun _ => 0) ∧ r.queue = s.queue ∧
          r.stopping = s.stopping ∧ r.bulkOk = s.bulkOk := by
      cases ph with
      | top => exact ⟨s.park w, by simp [wait, hw], rfl, rfl, rfl⟩
      | parked => exact ⟨s, by simp [wait, hw], rfl, rfl, rfl⟩
      | running job => exact absurd hbusy (Nat.ne_of_gt (h.pos .busy hw rfl))
      | ended => cases htest
    rcases hpoll : r.poll w false fun _ => 0 with ⟨t, e⟩
    rw [hpoll] at hr
    refine ⟨t, .waited w _ e (or_iff_not_imp_left.2 fun hstop => ?_) hr⟩
    have hbulk : s.bulkRunning = 0 :=
      h.value_eq_zero (c := .bulkRunning) hbusy fun ph hph => by cases ph <;> simp_all [test]
    have hok : r.bulkOk = true := by
      have hpos : 0 < s.size := Nat.pos_of_ne_zero (mt (hsize (by simpa using hstop)) hlive)
      rw [hrb, bulkOk, hbulk, decide_eq_true_eq]
      split <;> omega
    obtain ⟨job, hjob⟩ : ∃ job, r.pickLocked (fun _ => 0) = some job := by
      refine Option.ne_none_iff_exists'.1 fun hnone => ?_
      have hall : Scanned r.bulkOk (fun _ => 0) [] none := by simp [Scanned]
      have hseen := hall.foldl r.queue
      rw [← pickLocked, hnone, nil_append, hok] at hseen
      obtain ⟨it, hit⟩ := exists_mem_of_ne_nil _ (hrq ▸ hqueue)
      simpa [Job.mayStart] using hseen it hit
    rw [State.poll, if_neg (hrs ▸ hstop), hjob] at hpoll
    cases hpoll
    simp
  · obtain ⟨w, ph, hw, htest⟩ := h.exists_thread .busy hbusy
    cases ph with
    | running job => exact ⟨_, .returned w (by rw [finish, hw])⟩
    | _ => cases htest

theorem Kept.ends (h : Kept s) : Acc (fun t s => Works s t) s := by
  induction hn : s.toDo using Nat.strongRecOn generalizing s with
  | _ n ih =>
    refine ⟨_, fun t ht => ?_⟩
    obtain ⟨hkept, hlt, -⟩ := ht.less h
    exact ih _ (hn ▸ hlt) hkept rfl

/-- No call waits for ever: the workers of a pool get on until the waits return. -/
theorem waits_return (isShared : Bool) (threads : Nat)
    (h : Runs p (create isShared threads) tr s)
    (hsize : s.stopping = false → s.size = 0 → s.live = 0) :
    Acc (fun t s => Works s t) s ∧ ∀ t, Relation.ReflTransGen Works s t →
      (∃ u, Works t u) ∨ (step t .waitIdle).isSome ∧
        ∀ owner, (step t (.waitOwner owner)).isSome := by
  have hkept : Kept s := h.keep (fun _ hst hs => hs.step hst) (kept_create isShared threads).1
  refine ⟨hkept.ends, fun t ht => ?_⟩
  obtain ⟨hk, hzero⟩ : Kept t ∧ (t.stopping = false → t.size = 0 → t.live = 0) := by
    induction ht with
    | refl => exact ⟨hkept, hsize⟩
    | tail _ hstep ih =>
      obtain ⟨hk, -, hsame, hstop, hle⟩ := hstep.less ih.1
      exact ⟨hk, fun hrun h0 => Nat.le_zero.1 (ih.2 (hstop ▸ hrun) (hsame ▸ h0) ▸ hle)⟩
  refine or_iff_not_imp_left.2 fun hnone => ?_
  obtain ⟨hbusy, hrest⟩ : t.busy = 0 ∧ (t.queue = [] ∨ t.live = 0) := by
    have := mt (hk.works hzero) hnone
    simpa [or_iff_not_imp_left] using this
  refine ⟨by simp [step, hbusy, hrest], fun owner => ?_⟩
  have hrunning : t.running owner = 0 :=
    hk.value_eq_zero (c := .running owner) hbusy fun ph hph => by cases ph <;> simp_all [test]
  obtain hq | hlive := hrest
  · simp [step, ownerDone, ownerIdleLocked, hrunning, hq]
  · simp [step, ownerDone, hrunning, hlive]

theorem waits_return_submitted : ∃ s, s.queue ≠ [] ∧ Acc (fun t s => Works s t) s := by
  have hrun : Runs NotReopened (create false 2) [.accepted ⟨7, 1, 1, 0, false, 0⟩] _ :=
    .cons (a := .submit 7 1 false 0) trivial rfl (.nil _)
  exact ⟨_, by decide, (waits_return false 2 hrun fun _ h => absurd h (by decide)).1⟩

end Brass.Runtime.CompilePool
