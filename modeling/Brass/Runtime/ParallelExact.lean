import Brass.Runtime.ParallelInvariant
import Mathlib.Tactic.Linarith

/-!
# Every index once, every result in its own sum

Where the rounded-up quotient fits, the ranges handed out by any schedule are a partition of the
index range, and under the condition that results are recorded under their own kind every integer
target receives the fold of its own call's results. From each state the workers can get to the
end of the call.
-/

namespace Brass.Runtime

open Function (update update_eq_self update_idem update_of_ne update_self)

section Start

variable {call : ParallelFor} {red : Nat → BitVec 64} {s s₀ : State}

theorem deal_sum {n : Nat} (hn : 0 < n) (cs : List ParallelChunk) (i : Nat)
    (queue : Nat → List ParallelChunk) :
    (∑ w ∈ Finset.range n, (deal n cs i queue w : Multiset ParallelChunk)) =
      (cs : Multiset ParallelChunk) + ∑ w ∈ Finset.range n, (queue w : Multiset ParallelChunk) := by
  induction cs generalizing i queue with
  | nil => exact (zero_add _).symm
  | cons c cs ih =>
    have hput := @tokens_update (update queue (i % n) (queue (i % n) ++ [c])) (i % n) n
      (queue (i % n)) c (Nat.mod_lt i hn) (by
        rw [update_self, ← Multiset.coe_add, Multiset.coe_singleton, add_comm,
          Multiset.singleton_add])
    rw [update_idem, update_eq_self] at hput
    rw [deal, ih, hput, ← Multiset.cons_coe, ← Multiset.singleton_add, ← add_assoc, add_comm,
      add_assoc]

theorem sum_nil {n : Nat} :
    ∑ _w ∈ Finset.range n, (([] : List ParallelChunk) : Multiset ParallelChunk) = 0 :=
  Finset.sum_eq_zero fun _ _ => rfl

/-- A call over some index starts with its invariant; the chunks are a partition of the range if
and only if the call fits. -/
theorem start_invariant (htrip : call.tripCount ≠ 0) (h : start call red = some s₀) :
    ∃ all, Invariant call all s₀ ∧ s₀.returned = none ∧
      (Partition call.tripCount all ↔ call.Fits) := by
  unfold start at h
  dsimp only at h
  rw [if_neg htrip] at h
  unfold ParallelFor.Fits
  rw [if_neg htrip]
  split at h
  · rename_i hf
    obtain rfl := Option.some.inj h
    refine ⟨[⟨0, call.tripCount⟩], ?_, rfl, iff_of_true (partition_single htrip) (.inl hf)⟩
    refine {
      tokens := ?_
      seen := fun _ _ _ _ _ => rfl
      sums := ?_
      idle := fun _ w hw =>
        ⟨update_of_ne hw (Phase.running []) fun _ => Phase.finished, rfl⟩
      alone := fun _ _ => rfl
      kinds := fun _ _ => ?_
      ended := fun hret => (hret rfl).elim
      nested := fun _ hdone => (List.not_mem_nil hdone).elim
      returned := fun _ hdone => nomatch hdone }
    · exact (congrArg (· + _) sum_nil).trans (zero_add _)
    · intro w _ hw
      obtain rfl := hw hf
      dsimp only
      rw [update_self]
      intro hred
      rw [if_pos hred, update_self]
      rfl
    · dsimp only
      rw [update_self]
      rfl
  · rename_i hf
    obtain ⟨grain, hgrain, rfl⟩ := Option.map_eq_some_iff.1 h
    refine ⟨chunks call.tripCount grain, ?_, rfl, ?_⟩
    · refine {
        tokens := ?_
        seen := fun _ _ _ _ h => h.elim
        sums := ?_
        idle := fun h => absurd h hf
        alone := fun h => absurd h hf
        kinds := fun h => absurd h hf
        ended := fun hret => (hret rfl).elim
        nested := fun _ hdone => (List.not_mem_nil hdone).elim
        returned := fun _ hdone => nomatch hdone }
      · have hdeal := deal_sum call.numWorkers_pos (chunks call.tripCount grain) 0 fun _ => []
        rw [sum_nil, add_zero] at hdeal
        rw [← hdeal]
        exact add_zero _
      · intro w hw _ hred
        dsimp only
        rw [if_pos hred, if_pos hw]
        rfl
    · rw [chunks_partition_iff htrip (effectiveGrain_pos htrip hgrain)]
      constructor
      · exact fun h => .inr ⟨grain, hgrain, h⟩
      · rintro (h | ⟨g, hg, h⟩)
        · exact absurd h hf
        · obtain rfl := Option.some.inj (hgrain.symm.trans hg)
          exact h

end Start

section Run

variable {call : ParallelFor} {all : List ParallelChunk} {p : State → Event → Prop}
  {s s₀ t u : State} {w : Nat}

theorem Runs.trans (h : Runs call p s t) (h' : Runs call p t u) : Runs call p s u := by
  induction h' with
  | start => exact h
  | step _ hp hstep ih => exact .step ih hp hstep

theorem Runs.invariant (inv : Invariant call all s₀) (h : Runs call (RecordsOwnKind call) s₀ s) :
    Invariant call all s := by
  induction h with
  | start => exact inv
  | step _ hown hstep ih => exact hstep.invariant ih hown

theorem Invariant.subperm (inv : Invariant call all s) : s.ranges.Subperm all := by
  rw [← Multiset.coe_le, ← inv.tokens]
  exact Multiset.le_add_left _ _

theorem runs_of_ended (hended : ∀ w < call.n, s₀.phase w = .finished) (hret : s₀.returned ≠ none)
    (h : Runs call p s₀ s) : s = s₀ := by
  induction h with
  | start => rfl
  | step _ _ hstep ih =>
    subst ih
    cases hstep with
    | join _ hnone => exact absurd hnone hret
    | _ =>
      have hw := hended _ (by assumption)
      simp_all

/-- How far a worker is from giving up, or, with chunks in its own queue, from its next pop. -/
def Phase.distance (n : Nat) (busy : Bool) : Phase → Nat
  | .running frames => 2 * n + 7 + 2 * frames.length + frames.countP (!·.entered)
  | .popping => if busy then 0 else 2 * n + 6
  | .stealing k => n + 3 + (n - k)
  | .checking j => 1 + (n - j)
  | .finished => 0

/-- Each chunk in a queue weighs more than a worker that has just started the kernel. -/
def State.distance (s : State) (call : ParallelFor) : Nat :=
  (2 * call.n + 8) * (s.tokens call).card +
    ∑ w ∈ Finset.range call.n, (s.phase w).distance call.n (!(s.queue w).isEmpty)

theorem distance_lt (hlt : call.n > w) (hqueue : t.queue = s.queue)
    (hphase : ∀ x ≠ w, t.phase x = s.phase x)
    (hw : (t.phase w).distance call.n (!(s.queue w).isEmpty) <
      (s.phase w).distance call.n (!(s.queue w).isEmpty)) : t.distance call < s.distance call := by
  unfold State.distance State.tokens
  rw [hqueue]
  apply Nat.add_lt_add_left
  refine Finset.sum_lt_sum (fun x _ => ?_) ⟨w, Finset.mem_range.2 hlt, hw⟩
  by_cases hx : x = w
  · rw [hx]
    exact hw.le
  · rw [hphase x hx]

theorem distance_goes {q : Phase} (hlt : w < call.n)
    (hw : q.distance call.n (!(s.queue w).isEmpty) <
      (s.phase w).distance call.n (!(s.queue w).isEmpty)) :
    (s.goes w q).distance call < s.distance call := by
  refine distance_lt hlt rfl (fun x hx => update_of_ne hx ..) ?_
  rw [State.goes_phase, update_self]
  exact hw

/-- A pop takes away more than the kernel it starts has to come back from. -/
theorem distance_pop {c : ParallelChunk} {rest : List ParallelChunk} (hlt : w < call.n)
    (hq : s.queue w = c :: rest) : (s.hand w w c rest).distance call < s.distance call := by
  have hmem := Finset.mem_range.2 hlt
  have htokens : s.tokens call = (s.hand w w c rest).tokens call + {c} :=
    tokens_update hlt (by rw [hq]; rfl)
  have hcard : (s.tokens call).card = ((s.hand w w c rest).tokens call).card + 1 := by
    rw [htokens, Multiset.card_add, Multiset.card_singleton]
  have hrest : ∑ x ∈ (Finset.range call.n).erase w,
      ((s.hand w w c rest).phase x).distance call.n (!((s.hand w w c rest).queue x).isEmpty) =
        ∑ x ∈ (Finset.range call.n).erase w,
          (s.phase x).distance call.n (!(s.queue x).isEmpty) := by
    refine Finset.sum_congr rfl fun x hx => ?_
    have hne := Finset.ne_of_mem_erase hx
    rw [State.hand_phase, State.hand_queue, update_of_ne hne, update_of_ne hne]
  have hself : ((s.hand w w c rest).phase w).distance call.n
      (!((s.hand w w c rest).queue w).isEmpty) = 2 * call.n + 7 := by
    rw [State.hand_phase, update_self]
    rfl
  unfold State.distance
  rw [← Finset.add_sum_erase _ _ hmem, ← Finset.add_sum_erase (Finset.range call.n)
    (fun x => (s.phase x).distance call.n (!(s.queue x).isEmpty)) hmem, hrest, hself, hcard,
    Nat.mul_add]
  omega

/-- Until the workers have given up, one of them has a step that brings the end nearer: the owner
of a queue with a chunk, or, with all queues empty, any other. -/
theorem Invariant.nearer (inv : Invariant call all s)
    (hall : ¬ ∀ w < call.n, s.phase w = .finished) :
    ∃ t, Step call s .silent t ∧ t.distance call < s.distance call ∧ t.returned = s.returned := by
  obtain ⟨w, hlt, hw, hbusy⟩ : ∃ w < call.n, s.phase w ≠ .finished ∧
      (s.queue w = [] → ∀ j < call.n, s.queue j = []) := by
    by_cases hq : ∀ j < call.n, s.queue j = []
    · push Not at hall
      obtain ⟨w, hlt, hw⟩ := hall
      exact ⟨w, hlt, hw, fun _ => hq⟩
    · push Not at hq
      obtain ⟨w, hlt, hq⟩ := hq
      exact ⟨w, hlt, fun hw => hq (inv.seen w hlt w hlt (by rw [hw]; trivial)),
        fun h => absurd h hq⟩
  cases hphase : s.phase w with
  | finished => exact absurd hphase hw
  | popping =>
    cases hq : s.queue w with
    | nil =>
      refine ⟨_, .popFails hlt hphase hq, distance_goes hlt ?_, rfl⟩
      simp only [hphase, hq, Phase.distance, List.isEmpty_nil, Bool.not_true, Bool.false_eq_true,
        if_false]
      omega
    | cons c rest => exact ⟨_, .popFront hlt hphase hq, distance_pop hlt hq, rfl⟩
  | stealing k =>
    by_cases hk : k < call.n
    · refine ⟨_, .stealFails hlt hphase hk, distance_goes hlt ?_, rfl⟩
      simp only [hphase, Phase.distance]
      omega
    · refine ⟨_, .stealEnds hlt hphase (Nat.le_of_not_lt hk), distance_goes hlt ?_, rfl⟩
      simp only [hphase, Phase.distance]
      omega
  | checking j =>
    by_cases hj : j < call.n
    · by_cases hq : s.queue j = []
      · refine ⟨_, .isEmpty hlt hphase hj hq, distance_goes hlt ?_, rfl⟩
        simp only [hphase, Phase.distance]
        omega
      · refine ⟨_, .workLeft hlt hphase hj hq, distance_goes hlt ?_, rfl⟩
        have hne : s.queue w ≠ [] := fun h => hq (hbusy h j hj)
        simp only [hphase, Phase.distance, List.isEmpty_eq_false_iff.2 hne, Bool.not_false, if_true]
        omega
    · refine ⟨_, .noWorkLeft hlt hphase (Nat.le_of_not_lt hj), distance_goes hlt ?_, rfl⟩
      simp only [hphase, Phase.distance]
      omega
  | running frames =>
    cases frames with
    | nil =>
      refine ⟨_, .kernelReturns hlt hphase, distance_goes hlt ?_, rfl⟩
      rw [hphase]
      split
      · simp only [Phase.distance]
        omega
      · simp only [Phase.distance]
        split <;> omega
    | cons f frames =>
      cases hf : f.entered with
      | true =>
        refine ⟨_, .leave hlt hphase hf, distance_lt hlt rfl
          (fun x hx => update_of_ne hx ..) ?_, rfl⟩
        have hself : (s.leave w f frames).phase w = .running frames := update_self ..
        rw [hself, hphase]
        simp only [Phase.distance, List.length_cons, List.countP_cons]
        omega
      | false =>
        refine ⟨_, .setKind hlt hphase hf, distance_goes (s := s) hlt ?_, rfl⟩
        rw [hphase]
        simp only [Phase.distance, List.length_cons, List.countP_cons, hf]
        simp

theorem recordsOwnKind_silent : RecordsOwnKind call s .silent := trivial

theorem Invariant.finishes (inv : Invariant call all s) (hret : s.returned = none) :
    ∃ t, Runs call (RecordsOwnKind call) s t ∧ t.returned ≠ none := by
  induction hd : s.distance call using Nat.strong_induction_on generalizing s with
  | _ d ih =>
    by_cases hall : ∀ w < call.n, s.phase w = .finished
    · exact ⟨_, .step .start recordsOwnKind_silent (.join hall hret), Option.some_ne_none _⟩
    · obtain ⟨t, hstep, hlt, heq⟩ := inv.nearer hall
      obtain ⟨u, hu, hend⟩ := ih _ (hd ▸ hlt) (hstep.invariant inv recordsOwnKind_silent) (heq.trans hret) rfl
      exact ⟨u, Runs.trans (.step .start recordsOwnKind_silent hstep) hu, hend⟩

end Run

/-- What a call promises of every state on the way: the ranges handed out are disjoint, every
nested call that has returned is exact, and so is the call itself once it returns. -/
structure State.Exact (s : State) (call : ParallelFor) : Prop where
  separate : Separate call.tripCount s.ranges
  nested : ∀ done ∈ s.nested, done.Exact
  returned : ∀ done, s.returned = some done → done.Exact ∧
    done.tripCount = call.tripCount ∧ done.reduction = call.reduction ∧ done.ranges = s.ranges ∧
    done.recorded = (List.range call.n).flatMap s.recorded ∧
    done.redTarget.isSome = call.redTarget.isSome

section Exact

variable {call : ParallelFor} {all : List ParallelChunk} {red : Nat → BitVec 64} {s s₀ : State}

theorem Invariant.exact (inv : Invariant call all s) (hpart : Partition call.tripCount all) :
    s.Exact call where
  separate := hpart.toSeparate.of_subperm inv.subperm
  nested := inv.nested
  returned done hdone := by
    obtain ⟨hexact, hrest⟩ := inv.returned done hdone
    exact ⟨hexact hpart, hrest⟩

theorem start_zero (htrip : call.tripCount = 0) :
    ∃ s₀, start call red = some s₀ ∧ (∀ w, s₀.phase w = .finished) ∧ s₀.ranges = [] ∧
      s₀.nested = [] ∧ (∀ w, s₀.recorded w = []) ∧
      s₀.returned = some {
        tripCount := 0, reduction := call.reduction, ranges := [], recorded := [],
        redTarget := call.redTarget } := by
  unfold start
  dsimp only
  rw [if_pos htrip]
  exact ⟨_, rfl, fun _ => rfl, rfl, rfl, fun _ => rfl, rfl⟩

end Exact

/-- A call that fits, and only such a call, starts, keeps all its promises in every state that
any schedule reaches, and can always get to its end, provided that on several workers partial
results are recorded under their own kind. -/
theorem parallelFor_exact (call : ParallelFor) (red : Nat → BitVec 64) :
    (∃ s₀, start call red = some s₀ ∧ ∀ s, Runs call (RecordsOwnKind call) s₀ s →
      s.Exact call ∧ ∃ t, Runs call (RecordsOwnKind call) s t ∧ t.returned ≠ none) ↔
      call.Fits := by
  by_cases htrip : call.tripCount = 0
  · obtain ⟨s₀, hs₀, hended, hranges, hnested, hrecorded, hret⟩ := @start_zero call red htrip
    have hsome : s₀.returned ≠ none := by rw [hret]; exact Option.some_ne_none _
    unfold ParallelFor.Fits
    rw [if_pos htrip]
    constructor
    · rintro ⟨s₁, hs₁, hruns⟩ hk v hv
      obtain rfl := Option.some.inj (hs₀.symm.trans hs₁)
      obtain ⟨hexact, -⟩ := hruns s₀ .start
      exact (hexact.returned _ hret).1.target hk v hv [] (List.Perm.refl _)
    · intro hfits
      refine ⟨s₀, hs₀, fun s hs => ?_⟩
      obtain rfl := runs_of_ended (fun w _ => hended w) hsome hs
      refine ⟨⟨?_, ?_, ?_⟩, s, .start, hsome⟩
      · rw [hranges]
        exact (partition_nil.2 htrip).toSeparate
      · rw [hnested]
        exact fun _ h => (List.not_mem_nil h).elim
      · intro done hdone
        rw [hret] at hdone
        obtain rfl := Option.some.inj hdone
        refine ⟨⟨partition_nil.2 rfl, fun hk v hv vals hperm => ?_⟩, htrip.symm, rfl,
          hranges.symm, ?_, rfl⟩
        · obtain rfl := hperm.eq_nil
          exact hfits hk v hv
        · exact (List.flatMap_eq_nil_iff.2 fun w _ => hrecorded w).symm
  · constructor
    · rintro ⟨s₀, hs₀, hruns⟩
      obtain ⟨all, inv, hret, hfits⟩ := start_invariant htrip hs₀
      obtain ⟨-, t, ht, hend⟩ := hruns s₀ .start
      obtain ⟨done, hdone⟩ := Option.ne_none_iff_exists'.1 hend
      have invt := ht.invariant inv
      obtain ⟨hexact, htripEq, -, hranges, -⟩ := (hruns t ht).1.returned done hdone
      have hpart := hexact.ranges
      rw [htripEq, hranges] at hpart
      exact hfits.1 (hpart.of_perm (invt.ranges_perm (invt.ended hend)).symm)
    · intro h
      obtain ⟨s₀, hs₀⟩ : ∃ s₀, start call red = some s₀ := by
        have hfits := h
        unfold ParallelFor.Fits at hfits
        rw [if_neg htrip] at hfits
        unfold start
        dsimp only
        rw [if_neg htrip]
        split
        · exact ⟨_, rfl⟩
        · obtain ⟨grain, hgrain, -⟩ := hfits.resolve_left ‹_›
          rw [hgrain]
          exact ⟨_, rfl⟩
      obtain ⟨all, inv, hret, hfits⟩ := start_invariant htrip hs₀
      refine ⟨s₀, hs₀, fun s hs => ?_⟩
      have invs := hs.invariant inv
      refine ⟨invs.exact (hfits.2 h), ?_⟩
      by_cases hnone : s.returned = none
      · exact invs.finishes hnone
      · exact ⟨s, .start, hnone⟩

section Sample

theorem Runs.mono {call : ParallelFor} {p q : State → Event → Prop} {s₀ s : State}
    (hpq : ∀ s e, p s e → q s e) (h : Runs call p s₀ s) : Runs call q s₀ s := by
  induction h with
  | start => exact .start
  | step _ hp hstep ih => exact .step ih (hpq _ _ hp) hstep

/-- Two workers, and a range whose length and grain add up to `2^64 + 1`. -/
def lostRange : ParallelFor where
  numWorkers := 2
  numWorkers_pos := by decide
  tripCount := BitVec.allOnes 64
  grainSize := 2
  reduction := .none
  redTarget := none

def twoChunks : ParallelFor where
  numWorkers := 2
  numWorkers_pos := by decide
  tripCount := 2
  grainSize := 1
  reduction := .none
  redTarget := none

def twoChunksStart : State := (start twoChunks fun _ => 0).get rfl

/-- The frame of a nested sum that has recorded `vals`, made while no reduction was in force. -/
def sumFrame (vals : List (BitVec 64)) : Frame where
  tripCount := 1
  reduction := .sumI64
  hasTarget := true
  savedI64 := 0
  savedKind := .none
  entered := true
  recorded := vals

/-- No chunk of the first range is handed out. In the second, a worker enters a nested maximum
while the other is in a nested sum, whose result -1 is then lost. -/
theorem parallelFor_inexact :
    (¬ ∀ s₀ s, start lostRange (fun _ => 0) = some s₀ →
      Runs lostRange (fun _ _ => True) s₀ s → s.Exact lostRange) ∧
    ¬ ∀ s₀ s, start twoChunks (fun _ => 0) = some s₀ →
      Runs twoChunks (fun _ _ => True) s₀ s → s.Exact twoChunks := by
  constructor
  · intro h
    obtain ⟨s₀, hs₀⟩ : ∃ s₀, start lostRange (fun _ => 0) = some s₀ := ⟨_, rfl⟩
    obtain ⟨all, inv, hret, hfits⟩ := start_invariant (by decide) hs₀
    obtain ⟨t, ht, hend⟩ := inv.finishes hret
    obtain ⟨done, hdone⟩ := Option.ne_none_iff_exists'.1 hend
    obtain ⟨hexact, htrip, -, hranges, -⟩ :=
      (h s₀ t hs₀ (ht.mono fun _ _ _ => trivial)).returned done hdone
    have hpart := hexact.ranges
    have invt := ht.invariant inv
    rw [htrip, hranges] at hpart
    have hlost := hfits.1 (hpart.of_perm (invt.ranges_perm (invt.ended hend)).symm)
    unfold ParallelFor.Fits at hlost
    rw [if_neg (by decide)] at hlost
    rcases hlost with hf | ⟨grain, hgrain, hsum⟩
    · exact absurd hf (by decide)
    · have heq : effectiveGrain 2 (BitVec.allOnes 64) 2 = some 2 := by decide
      obtain rfl := Option.some.inj (heq.symm.trans hgrain)
      exact absurd hsum (by decide)
  · intro h
    have h1 := Runs.step (p := fun _ _ => True) .start trivial
      (@Step.popFront twoChunks twoChunksStart 0 ⟨0, 1⟩ [] (by decide) rfl rfl)
    have h2 := Runs.step h1 trivial
      (@Step.enter twoChunks _ 0 1 .sumI64 true [] (by decide) rfl (by simp) (by decide) rfl)
    have h3 := Runs.step h2 trivial
      (@Step.setKind twoChunks _ 0 { sumFrame [] with entered := false } [] (by decide) rfl rfl)
    have h4 := Runs.step h3 trivial
      (@Step.popFront twoChunks _ 1 ⟨1, 2⟩ [] (by decide) rfl rfl)
    have h5 := Runs.step h4 trivial
      (@Step.enter twoChunks _ 1 1 .maxI64 true [] (by decide) rfl (by simp) (by decide) rfl)
    have h6 := Runs.step h5 trivial (@Step.setKind twoChunks _ 1 _ [] (by decide) rfl rfl)
    have h7 := Runs.step h6 trivial
      (@Step.recordNested twoChunks _ 0 (-1) (sumFrame []) [] (by decide) rfl rfl)
    have h8 := Runs.step h7 trivial
      (@Step.leave twoChunks _ 0 (sumFrame [-1]) [] (by decide) rfl rfl)
    have hexact := (h _ _ (Option.some_get _).symm h8).nested
      (State.nestedCall (sumFrame [-1]) 0) (.head _)
    exact absurd (hexact.target rfl 0 rfl [-1] (List.Perm.refl _)) (by decide)

end Sample

end Brass.Runtime
