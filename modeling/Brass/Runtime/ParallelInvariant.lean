import Brass.Runtime.ParallelRuntime
import Mathlib.Algebra.BigOperators.Group.Finset.Piecewise
import Mathlib.Algebra.Order.BigOperators.Group.Finset

/-!
# What holds while a parallel loop runs

No chunk is lost or doubled: those in the queues and those handed out are the chunks dealt.
A worker that has looked at an empty queue will find it empty for good, since nothing is dealt any
more. The partial result of a worker, and those saved by its nested calls, are each the fold of
what was recorded for their own call.
-/

namespace Brass.Runtime

open Function (update update_of_ne update_self)

/-- The accumulator `red` and the saved ones below it are the folds of their own calls' results;
`own` are those recorded for the outermost call. -/
def Sums (call : ParallelFor) (own : List (BitVec 64)) : BitVec 64 → List Frame → Prop
  | red, [] => call.reduction.isReduction = true → red = foldReduction call.reduction own
  | red, f :: frames =>
    f.tripCount ≠ 0 ∧ red = foldReduction f.reduction f.recorded ∧
      Sums call own f.savedI64 frames

/-- The kind in force and the saved ones below it are those of the calls in progress. -/
def Kinds (call : ParallelFor) : ReductionKind → List Frame → Prop
  | kind, [] => kind = call.reduction
  | kind, f :: frames =>
    kind = (if f.entered then f.reduction else f.savedKind) ∧ Kinds call f.savedKind frames

def State.tokens (s : State) (call : ParallelFor) : Multiset ParallelChunk :=
  ∑ w ∈ Finset.range call.n, (s.queue w : Multiset ParallelChunk)

structure Invariant (call : ParallelFor) (all : List ParallelChunk) (s : State) : Prop where
  tokens : s.tokens call + s.ranges = all
  seen : ∀ w < call.n, ∀ j < call.n, (s.phase w).HasSeen j → s.queue j = []
  sums : ∀ w < call.n, (call.Fallback → w = 0) →
    Sums call (s.recorded w) (s.redI64 w) (s.phase w).frames
  idle : call.Fallback → ∀ w, w ≠ 0 → s.phase w = .finished ∧ s.recorded w = []
  alone : call.Fallback → ∀ j, s.queue j = []
  kinds : call.Fallback → s.returned = none →
    Kinds call s.currentReduction (s.phase 0).frames
  ended : s.returned ≠ none → ∀ w < call.n, s.phase w = .finished
  nested : ∀ done ∈ s.nested, done.Exact
  returned : ∀ done, s.returned = some done →
    (Partition call.tripCount all → done.Exact) ∧ done.tripCount = call.tripCount ∧
      done.reduction = call.reduction ∧ done.ranges = s.ranges ∧
      done.recorded = (List.range call.n).flatMap s.recorded ∧
      done.redTarget.isSome = call.redTarget.isSome

section Steps

variable {call : ParallelFor} {all : List ParallelChunk} {s t : State} {w : Nat}

theorem tokens_update {queue : Nat → List ParallelChunk} {victim n : Nat} {rest : List ParallelChunk}
    {c : ParallelChunk} (hv : victim < n)
    (hq : (queue victim : Multiset ParallelChunk) = c ::ₘ (rest : Multiset ParallelChunk)) :
    (∑ w ∈ Finset.range n, (queue w : Multiset ParallelChunk)) =
      (∑ w ∈ Finset.range n, (update queue victim rest w : Multiset ParallelChunk)) + {c} := by
  have hmem := Finset.mem_range.2 hv
  have hsum : ∀ q : Nat → List ParallelChunk,
      (∑ w ∈ Finset.range n, (q w : Multiset ParallelChunk)) =
        q victim + ∑ w ∈ (Finset.range n).erase victim, (q w : Multiset ParallelChunk) :=
    fun q => (Finset.add_sum_erase _ (fun w => (q w : Multiset ParallelChunk)) hmem).symm
  have hrest : (∑ w ∈ (Finset.range n).erase victim, (queue w : Multiset ParallelChunk)) =
      ∑ w ∈ (Finset.range n).erase victim,
        (update queue victim rest w : Multiset ParallelChunk) := by
    refine Finset.sum_congr rfl fun x hx => ?_
    rw [update_of_ne (Finset.ne_of_mem_erase hx)]
  rw [hsum, hsum (update queue victim rest), hrest, hq, update_self,
    ← Multiset.singleton_add, add_assoc, add_comm]

/-- Only worker `w`, its results and the shared kind may differ. -/
structure SameElsewhere (s t : State) (w : Nat) : Prop where
  returned : t.returned = s.returned
  phase : ∀ x ≠ w, t.phase x = s.phase x
  redI64 : ∀ x ≠ w, t.redI64 x = s.redI64 x
  recorded : ∀ x ≠ w, t.recorded x = s.recorded x

theorem sameElsewhere_goes {p : Phase} : SameElsewhere s (s.goes w p) w where
  returned := rfl
  phase _ hx := update_of_ne hx ..
  redI64 _ _ := rfl
  recorded _ _ := rfl

namespace Invariant

variable {frames : List Frame} {v : BitVec 64} {f : Frame}

theorem eq_zero (inv : Invariant call all s) (hw : s.phase w ≠ .finished)
    (h : call.Fallback) : w = 0 := by
  by_contra hne
  exact hw (inv.idle h w hne).1

section

variable (inv : Invariant call all s) (hlt : w < call.n) (hw : s.phase w ≠ .finished)
include inv hlt hw

theorem not_returned : s.returned = none := by
  by_contra hne
  exact hw (inv.ended hne w hlt)

theorem of_worker (same : SameElsewhere s t w) (htokens : t.tokens call + t.ranges = all)
    (hqueue : ∀ j, s.queue j = [] → t.queue j = [])
    (hseen : ∀ j < call.n, (t.phase w).HasSeen j → t.queue j = [])
    (hsums : (call.Fallback → w = 0) → Sums call (t.recorded w) (t.redI64 w) (t.phase w).frames)
    (hkinds : call.Fallback → Kinds call t.currentReduction (t.phase w).frames)
    (hnested : ∀ done ∈ t.nested, done.Exact) : Invariant call all t where
  tokens := htokens
  seen x hx j hj h := by
    by_cases hxw : x = w
    · subst hxw
      exact hseen j hj h
    · rw [same.phase x hxw] at h
      exact hqueue j (inv.seen x hx j hj h)
  sums x hx hf := by
    by_cases hxw : x = w
    · subst hxw
      exact hsums hf
    · rw [same.phase x hxw, same.redI64 x hxw, same.recorded x hxw]
      exact inv.sums x hx hf
  idle hf x hx := by
    have hxw : x ≠ w := fun h => hx (h.trans (inv.eq_zero hw hf))
    rw [same.phase x hxw, same.recorded x hxw]
    exact inv.idle hf x hx
  alone hf j := hqueue j (inv.alone hf j)
  kinds hf _ := by
    obtain rfl := inv.eq_zero hw hf
    exact hkinds hf
  ended hret := absurd (same.returned.trans (inv.not_returned hlt hw)) hret
  nested := hnested
  returned done hret := by
    rw [same.returned, inv.not_returned hlt hw] at hret
    cases hret

theorem goes {p : Phase} (hframes : p.frames = (s.phase w).frames)
    (hseen : ∀ j < call.n, p.HasSeen j → s.queue j = []) : Invariant call all (s.goes w p) := by
  refine inv.of_worker hlt hw sameElsewhere_goes inv.tokens (fun _ h => h) ?_ ?_ ?_ inv.nested
  · rw [State.goes_phase, update_self]
    exact hseen
  · intro hf
    rw [State.goes_phase, update_self, hframes]
    exact inv.sums w hlt hf
  · intro hf
    obtain rfl := inv.eq_zero hw hf
    rw [State.goes_phase, update_self, hframes]
    exact inv.kinds hf (inv.not_returned hlt hw)

theorem hand (hframes : (s.phase w).frames = []) {victim : Nat} {c : ParallelChunk}
    {rest : List ParallelChunk} (hv : victim < call.n)
    (hq : (s.queue victim : Multiset ParallelChunk) = c ::ₘ (rest : Multiset ParallelChunk)) :
    Invariant call all (s.hand w victim c rest) := by
  have hself : (s.hand w victim c rest).phase w = .running [] := update_self ..
  refine inv.of_worker hlt hw ⟨rfl, fun _ hx => update_of_ne hx .., fun _ _ => rfl,
    fun _ _ => rfl⟩ ?_ ?_ ?_ ?_ ?_ inv.nested
  · have h := inv.tokens
    rw [State.tokens, tokens_update hv hq] at h
    rw [← h, State.tokens, State.hand_queue, State.hand, ← Multiset.coe_add, add_assoc]
    congr 1
    exact add_comm ..
  · intro j hj
    have hne : j ≠ victim := by
      rintro rfl
      rw [hj] at hq
      exact Multiset.cons_ne_zero hq.symm
    rw [State.hand_queue, update_of_ne hne]
    exact hj
  · rw [hself]
    exact fun _ _ h => h.elim
  · intro hf
    have h := inv.sums w hlt hf
    rw [hframes] at h
    rw [hself]
    exact h
  · intro hf
    obtain rfl := inv.eq_zero hw hf
    have h := inv.kinds hf (inv.not_returned hlt hw)
    rw [hframes] at h
    rw [hself]
    exact h

theorem of_running
    (same : SameElsewhere s t w) (hqueue : t.queue = s.queue) (hranges : t.ranges = s.ranges)
    (hphase : t.phase w = .running frames)
    (hsums : (call.Fallback → w = 0) → Sums call (t.recorded w) (t.redI64 w) frames)
    (hkinds : call.Fallback → Kinds call t.currentReduction frames)
    (hnested : ∀ done ∈ t.nested, done.Exact) : Invariant call all t := by
  have hframes : (t.phase w).frames = frames := by rw [hphase]; rfl
  refine inv.of_worker hlt hw same ?_ ?_ ?_ ?_ ?_ hnested
  · rw [State.tokens, hqueue, hranges]
    exact inv.tokens
  · rw [hqueue]
    exact fun _ h => h
  · rw [hphase]
    exact fun _ _ h => h.elim
  · rw [hframes]
    exact hsums
  · rw [hframes]
    exact hkinds

end

section

variable (inv : Invariant call all s) (hlt : w < call.n)
include inv hlt

/-- The kind found by a partial result is that of the call it is recorded for: where several
workers run it is asked for, and a master alone leaves no other. -/
theorem ownKind (hw : s.phase w = .running frames) (hentered : ∀ f ∈ frames.head?, f.entered = true)
    (hown : RecordsOwnKind call s (.record w v)) :
    s.currentReduction = s.ownKind call w := by
  by_cases hf : call.Fallback
  · have hne : s.phase w ≠ .finished := by rw [hw]; exact Phase.noConfusion
    obtain rfl := inv.eq_zero hne hf
    have hkinds := inv.kinds hf (inv.not_returned hlt hne)
    rw [hw] at hkinds
    rw [State.ownKind, hw]
    cases frames with
    | nil => exact hkinds
    | cons f frames =>
      have h := hkinds.1
      rwa [if_pos (hentered f rfl)] at h
  · exact hown hf

theorem recordOwn (hw : s.phase w = .running []) (hown : RecordsOwnKind call s (.record w v)) :
    Invariant call all { s.recordReduction w v with
      recorded := update s.recorded w (s.recorded w ++ [v]) } := by
  have hne : s.phase w ≠ .finished := by rw [hw]; exact Phase.noConfusion
  have hkind : s.currentReduction = call.reduction := by
    have h := inv.ownKind hlt hw (fun f hf => nomatch hf) hown
    rwa [State.ownKind, hw] at h
  refine inv.of_running hlt hne ⟨rfl, fun _ _ => rfl, fun _ hx => update_of_ne hx ..,
    fun _ hx => update_of_ne hx ..⟩ rfl rfl hw ?_ ?_ inv.nested
  · intro hf hred
    have h := inv.sums w hlt hf
    rw [hw] at h
    simp only [State.recordReduction, update_self]
    rw [foldReduction_snoc, ← h hred, hkind]
  · intro hf
    exact hkind

theorem recordNested (hw : s.phase w = .running (f :: frames)) (hentered : f.entered = true)
    (hown : RecordsOwnKind call s (.record w v)) :
    Invariant call all ((s.recordReduction w v).goes w
      (.running ({ f with recorded := f.recorded ++ [v] } :: frames))) := by
  have hne : s.phase w ≠ .finished := by rw [hw]; exact Phase.noConfusion
  have hkind : s.currentReduction = f.reduction := by
    have h := inv.ownKind hlt hw (fun f' hf' => Option.some.inj hf' ▸ hentered) hown
    rwa [State.ownKind, hw] at h
  refine inv.of_running hlt hne ⟨rfl, fun _ hx => update_of_ne hx ..,
    fun _ hx => update_of_ne hx .., fun _ _ => rfl⟩ rfl rfl
    (update_self ..) ?_ ?_ inv.nested
  · intro hf
    have h := inv.sums w hlt hf
    rw [hw] at h
    obtain ⟨htrip, hred, hrest⟩ := h
    refine ⟨htrip, ?_, hrest⟩
    simp only [State.recordReduction, State.goes, update_self]
    rw [foldReduction_snoc, ← hred, hkind]
  · intro hf
    obtain rfl := inv.eq_zero hne hf
    have h := inv.kinds hf (inv.not_returned hlt hne)
    rw [hw] at h
    exact h

theorem enter (hw : s.phase w = .running frames)
    {trip : BitVec 64} (htrip : trip ≠ 0) {k : ReductionKind} {hasTarget : Bool} :
    Invariant call all (s.enter w trip k hasTarget frames) := by
  have hne : s.phase w ≠ .finished := by rw [hw]; exact Phase.noConfusion
  refine inv.of_running hlt hne ⟨rfl, fun _ hx => update_of_ne hx ..,
    fun _ hx => update_of_ne hx .., fun _ _ => rfl⟩ rfl rfl
    (update_self ..) ?_ ?_ inv.nested
  · intro hf
    have h := inv.sums w hlt hf
    rw [hw] at h
    exact ⟨htrip, update_self .., h⟩
  · intro hf
    obtain rfl := inv.eq_zero hne hf
    have h := inv.kinds hf (inv.not_returned hlt hne)
    rw [hw] at h
    exact ⟨rfl, h⟩

theorem setKind (hw : s.phase w = .running (f :: frames)) :
    Invariant call all { s.goes w (.running ({ f with entered := true } :: frames)) with
      currentReduction := f.reduction } := by
  have hne : s.phase w ≠ .finished := by rw [hw]; exact Phase.noConfusion
  refine inv.of_running hlt hne ⟨rfl, fun _ hx => update_of_ne hx .., fun _ _ => rfl,
    fun _ _ => rfl⟩ rfl rfl (update_self ..) ?_ ?_ inv.nested
  · intro hf
    have h := inv.sums w hlt hf
    rw [hw] at h
    exact h
  · intro hf
    obtain rfl := inv.eq_zero hne hf
    have h := inv.kinds hf (inv.not_returned hlt hne)
    rw [hw] at h
    exact ⟨rfl, h.2⟩

end

theorem nestedCall_exact {red : BitVec 64} (htrip : f.tripCount ≠ 0)
    (hred : red = foldReduction f.reduction f.recorded) : (State.nestedCall f red).Exact where
  ranges := partition_single htrip
  target hk v hv vals hperm := by
    have hv' : (if f.hasTarget && !f.reduction.isFpReduction then some red else none) = some v := hv
    split at hv'
    · obtain rfl := Option.some.inj hv'
      rw [hred]
      exact (foldReduction_perm hk hperm).symm
    · cases hv'

theorem leave (inv : Invariant call all s) (hlt : w < call.n)
    (hw : s.phase w = .running (f :: frames)) (hf : call.Fallback → w = 0) :
    Invariant call all (s.leave w f frames) := by
  have hne : s.phase w ≠ .finished := by rw [hw]; exact Phase.noConfusion
  have hsums := inv.sums w hlt hf
  rw [hw] at hsums
  obtain ⟨htrip, hred, hrest⟩ := hsums
  refine inv.of_running hlt hne ⟨rfl, fun _ hx => update_of_ne hx ..,
    fun _ hx => update_of_ne hx .., fun _ _ => rfl⟩ rfl rfl
    (update_self ..) ?_ ?_ ?_
  · intro _
    have h : (s.leave w f frames).redI64 w = f.savedI64 := update_self ..
    rw [h]
    exact hrest
  · intro hfall
    obtain rfl := inv.eq_zero hne hfall
    have h := inv.kinds hfall (inv.not_returned hlt hne)
    rw [hw] at h
    exact h.2
  · intro done hdone
    rcases List.mem_append.1 hdone with hdone | hdone
    · exact inv.nested done hdone
    · obtain rfl := List.mem_singleton.1 hdone
      exact nestedCall_exact htrip hred

/-- Once the workers have given up, no queue holds a chunk. -/
theorem ranges_perm (inv : Invariant call all s) (hall : ∀ w < call.n, s.phase w = .finished) :
    s.ranges.Perm all := by
  have hempty : ∀ j < call.n, s.queue j = [] := fun j hj =>
    inv.seen 0 call.numWorkers_pos j hj (by rw [hall 0 call.numWorkers_pos]; trivial)
  have hzero : s.tokens call = 0 := Finset.sum_eq_zero fun w hw => by
    rw [hempty w (Finset.mem_range.1 hw)]
    rfl
  have h := inv.tokens
  rw [hzero, zero_add] at h
  exact Multiset.coe_eq_coe.1 h

theorem flatMap_recorded (inv : Invariant call all s) (hf : call.Fallback) :
    (List.range call.n).flatMap s.recorded = s.recorded 0 := by
  obtain ⟨m, hm⟩ : ∃ m, call.n = m + 1 := Nat.exists_eq_add_one.2 call.numWorkers_pos
  rw [hm, List.range_succ_eq_map, List.flatMap_cons]
  have hrest : (List.map Nat.succ (List.range m)).flatMap s.recorded = [] := by
    rw [List.flatMap_eq_nil_iff]
    intro w hw
    obtain ⟨x, -, rfl⟩ := List.mem_map.1 hw
    exact (inv.idle hf _ (Nat.succ_ne_zero x)).2
  rw [hrest, List.append_nil]

section

variable (inv : Invariant call all s) (hall : ∀ w < call.n, s.phase w = .finished)
include inv hall

theorem total_eq (hk : call.reduction.isInteger = true) : s.total call =
      foldReduction call.reduction ((List.range call.n).flatMap s.recorded) := by
  have hred : call.reduction.isReduction = true := by
    rw [ReductionKind.isInteger, Bool.and_eq_true] at hk
    exact hk.1
  have hsums : ∀ w < call.n, (call.Fallback → w = 0) →
      s.redI64 w = foldReduction call.reduction (s.recorded w) := by
    intro w hw hf
    have h := inv.sums w hw hf
    rw [hall w hw] at h
    exact h hred
  unfold State.total
  split
  · rename_i hf
    rw [inv.flatMap_recorded hf]
    exact hsums 0 call.numWorkers_pos fun _ => rfl
  · rename_i hf
    exact foldl_workers hk s.recorded s.redI64 _
      (fun w hw => hsums w (List.mem_range.1 hw) fun h => absurd h hf) []

theorem result_exact (hpart : Partition call.tripCount all) : (s.result call).Exact where
  ranges := hpart.of_perm (inv.ranges_perm hall)
  target hk v hv vals hperm := by
    obtain ⟨old, -, hold⟩ := Option.map_eq_some_iff.1 hv
    have hk : call.reduction.isInteger = true := hk
    rw [if_pos hk] at hold
    rw [← hold, inv.total_eq hall hk]
    exact (foldReduction_perm hk hperm).symm

theorem join : Invariant call all
      { s with returned := some (s.result call), currentReduction := .none } where
  tokens := inv.tokens
  seen := inv.seen
  sums := inv.sums
  idle := inv.idle
  alone := inv.alone
  kinds _ hret := by cases hret
  ended _ := hall
  nested := inv.nested
  returned done hdone := by
    obtain rfl := Option.some.inj hdone
    exact ⟨inv.result_exact hall, rfl, rfl, rfl, rfl, Option.isSome_map⟩

end

end Invariant

theorem Step.invariant {e : Event} (inv : Invariant call all s) (hown : RecordsOwnKind call s e)
    (h : Step call s e t) : Invariant call all t := by
  have hne : ∀ {w p}, s.phase w = p → p ≠ .finished → s.phase w ≠ .finished := fun hw hp h =>
    hp (hw.symm.trans h)
  cases h with
  | popFront hlt hw hq =>
    exact inv.hand hlt (hne hw Phase.noConfusion) (by rw [hw]; rfl) hlt (by rw [hq]; rfl)
  | popFails hlt hw _ =>
    exact inv.goes hlt (hne hw Phase.noConfusion) (by rw [hw]; rfl) fun _ _ h => h.elim
  | stealBack hlt hw hk hq =>
    refine inv.hand hlt (hne hw Phase.noConfusion) (by rw [hw]; rfl)
      (Nat.mod_lt _ call.numWorkers_pos) ?_
    rw [hq, ← Multiset.coe_add, Multiset.coe_singleton, add_comm, Multiset.singleton_add]
  | stealFails hlt hw _ =>
    exact inv.goes hlt (hne hw Phase.noConfusion) (by rw [hw]; rfl) fun _ _ h => h.elim
  | stealEnds hlt hw _ =>
    exact inv.goes hlt (hne hw Phase.noConfusion) (by rw [hw]; rfl)
      fun _ _ h => (Nat.not_lt_zero _ h).elim
  | @isEmpty w i hlt hw hi hempty =>
    refine inv.goes hlt (hne hw Phase.noConfusion) (by rw [hw]; rfl) fun j hj h => ?_
    rcases Nat.lt_succ_iff_lt_or_eq.1 h with h | rfl
    · exact inv.seen w hlt j hj (by rw [hw]; exact h)
    · exact hempty
  | workLeft hlt hw _ _ =>
    exact inv.goes hlt (hne hw Phase.noConfusion) (by rw [hw]; rfl) fun _ _ h => h.elim
  | @noWorkLeft w i hlt hw hi =>
    exact inv.goes hlt (hne hw Phase.noConfusion) (by rw [hw]; rfl) fun j hj _ =>
      inv.seen w hlt j hj (by rw [hw]; exact Nat.lt_of_lt_of_le hj hi)
  | recordOwn hlt hw => exact inv.recordOwn hlt hw hown
  | recordNested hlt hw hentered => exact inv.recordNested hlt hw hentered hown
  | enter hlt hw _ htrip _ => exact inv.enter hlt hw htrip
  | setKind hlt hw _ => exact inv.setKind hlt hw
  | leave hlt hw _ =>
    exact inv.leave hlt hw fun hf => inv.eq_zero (hne hw Phase.noConfusion) hf
  | kernelReturns hlt hw =>
    refine inv.goes hlt (hne hw Phase.noConfusion) ?_ ?_
    · rw [hw]
      split <;> rfl
    · intro j hj h
      split at h
      · exact inv.alone ‹_› j
      · exact h.elim
  | join hall hret => exact inv.join hall

end Steps

end Brass.Runtime
