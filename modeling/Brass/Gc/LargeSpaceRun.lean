import Brass.Gc.LargeSpace
import Mathlib.Order.Interval.Finset.Nat

/-!
# The large-object space over whole runs

Two invariants carry the development. `Valid a n` says that the tables agree with each
other except for a hole `[a, a + n)`, pages that belong to no run: a run that is taken
from the free ones becomes a hole, an object fills it, and a freed object leaves one that
the free runs absorb. `Sweeping live` says of a pending walk that the objects behind the
cursor are those that live on, unmarked, and that ahead of it the marks tell them.
-/

namespace Brass.Gc.Large

open Large

open Function (update update_of_ne update_self)

open Brass.Util

def Covers (r : Run) (p : Nat) : Prop := r.1 ≤ p ∧ p < r.1 + r.2

instance (r : Run) (p : Nat) : Decidable (Covers r p) :=
  inferInstanceAs (Decidable (_ ∧ _))

def retainedPages (s : LargeSpace) : Finset Nat :=
  (Finset.range s.frontier).filter fun p => s.pageHead p = 0 ∧ s.pageCommitted p

theorem mem_retainedPages {s : LargeSpace} {p : Nat} : p ∈ retainedPages s ↔
    p < s.frontier ∧ s.pageHead p = 0 ∧ s.pageCommitted p = true := by
  simp only [retainedPages, Finset.mem_filter, Finset.mem_range]

/-- The tables agree with each other, with the pages `[a, a + n)` in no run. -/
structure Valid (a n : Nat) (s : LargeSpace) : Prop where
  freeSorted : SortedMap.Sorted s.freeRuns
  objSorted : SortedMap.Sorted s.objects
  freeIn : ∀ r ∈ s.freeRuns, 0 < r.2 ∧ r.1 + r.2 ≤ s.frontier
  objIn : ∀ r ∈ s.objects, 0 < r.2 ∧ r.1 + r.2 ≤ s.frontier
  apart : ∀ r ∈ s.freeRuns, ∀ q ∈ s.freeRuns, r ≠ q → r.1 + r.2 < q.1 ∨ q.1 + q.2 < r.1
  objHead : ∀ r ∈ s.objects, ∀ p, Covers r p → s.pageHead p = r.1 + 1
  freeHead : ∀ r ∈ s.freeRuns, ∀ p, Covers r p → s.pageHead p = 0
  cover : ∀ p < s.frontier,
    (∃ r ∈ s.objects, Covers r p) ∨ (∃ r ∈ s.freeRuns, Covers r p) ∨ Covers (a, n) p
  hole : ∀ p, Covers (a, n) p →
    p < s.frontier ∧ s.pageHead p = 0 ∧ ∀ r ∈ s.freeRuns, ¬ Covers r p
  beyond : ∀ p, s.frontier ≤ p → s.pageHead p = 0
  objCommitted : ∀ r ∈ s.objects, ∀ p, Covers r p → s.pageCommitted p = true
  sized : ∀ r ∈ s.objects, r.2 = pagesFor (kHeaderBytes + (s.header r.1).size.toNat)
  used : s.usedBytes = ((s.objects.map Prod.snd).sum * kPageBytes : Nat)
  retained : s.retainedBytes = ((retainedPages s).card * kPageBytes : Nat)
  pending : s.largeActive = true → s.active = true

theorem valid_empty : Valid 0 0 .empty := by
  constructor <;> simp [LargeSpace.empty, SortedMap.Sorted, retainedPages, Covers]

theorem not_covers_zero (p : Nat) : ¬ Covers (0, 0) p := by
  rintro ⟨_, h⟩
  simp at h

theorem pagesFor_pos (size : UInt32) : 0 < pagesFor (kHeaderBytes + size.toNat) := by
  unfold pagesFor kHeaderBytes kPageBytes
  omega

namespace Valid

variable {a n b m : Nat} {s : LargeSpace} {r : Run}

theorem obj_of_head (h : Valid a n s) {p : Nat} (hp : s.pageHead p ≠ 0) :
    ∃ r ∈ s.objects, Covers r p ∧ s.pageHead p = r.1 + 1 := by
  have hlt : p < s.frontier := by
    by_contra hge
    exact hp (h.beyond p (by omega))
  rcases h.cover p hlt with ⟨r, hr, hc⟩ | ⟨r, hr, hc⟩ | hc
  · exact ⟨r, hr, hc, h.objHead r hr p hc⟩
  · exact absurd (h.freeHead r hr p hc) hp
  · exact absurd (h.hole p hc).2.1 hp

theorem obj_unique (h : Valid a n s) {q : Run} {p : Nat} (hr : r ∈ s.objects)
    (hq : q ∈ s.objects) (hrp : Covers r p) (hqp : Covers q p) : r = q := by
  have h1 := h.objHead r hr p hrp
  have h2 := h.objHead q hq p hqp
  exact h.objSorted.eq_of_key_eq hr hq (by omega)

theorem obj_not_free (h : Valid a n s) {q : Run} {p : Nat} (hr : r ∈ s.objects)
    (hq : q ∈ s.freeRuns) (hrp : Covers r p) : ¬ Covers q p := by
  intro hqp
  have h1 := h.objHead r hr p hrp
  have h2 := h.freeHead q hq p hqp
  omega

theorem free_unique (h : Valid a n s) {q : Run} {p : Nat} (hr : r ∈ s.freeRuns)
    (hq : q ∈ s.freeRuns) (hrp : Covers r p) (hqp : Covers q p) : r = q := by
  by_contra hne
  have hapart := h.apart r hr q hq hne
  unfold Covers at hrp hqp
  omega

/-! ## Free runs and holes -/

theorem dropFree (h : Valid a n s) (hr : r ∈ s.freeRuns)
    (hunion : ∀ p, Covers (b, m) p ↔ Covers (a, n) p ∨ Covers r p) :
    Valid b m { s with freeRuns := SortedMap.erase s.freeRuns r.1 } where
  freeSorted := h.freeSorted.erase
  objSorted := h.objSorted
  freeIn q hq := h.freeIn q (SortedMap.mem_erase.mp hq).1
  objIn := h.objIn
  apart q hq t ht := h.apart q (SortedMap.mem_erase.mp hq).1 t (SortedMap.mem_erase.mp ht).1
  objHead := h.objHead
  freeHead q hq := h.freeHead q (SortedMap.mem_erase.mp hq).1
  cover p hp := by
    rcases h.cover p hp with hobj | ⟨q, hq, hc⟩ | hc
    · exact .inl hobj
    · by_cases hqr : q.1 = r.1
      · have hqr := h.freeSorted.eq_of_key_eq hq hr hqr
        exact .inr (.inr ((hunion p).mpr (.inr (hqr ▸ hc))))
      · exact .inr (.inl ⟨q, SortedMap.mem_erase.mpr ⟨hq, hqr⟩, hc⟩)
    · exact .inr (.inr ((hunion p).mpr (.inl hc)))
  hole p hp := by
    rcases (hunion p).mp hp with hc | hc
    · obtain ⟨h1, h2, h3⟩ := h.hole p hc
      exact ⟨h1, h2, fun q hq => h3 q (SortedMap.mem_erase.mp hq).1⟩
    · refine ⟨?_, h.freeHead r hr p hc, ?_⟩
      · have := (h.freeIn r hr).2
        have := hc.2
        show p < s.frontier
        omega
      · intro q hq hqp
        have hq := SortedMap.mem_erase.mp hq
        exact hq.2 (congrArg Prod.fst (h.free_unique hq.1 hr hqp hc))
  beyond := h.beyond
  objCommitted := h.objCommitted
  sized := h.sized
  used := h.used
  retained := h.retained
  pending := h.pending

/-- A part of the hole, with no free run next to it, becomes a free run. -/
theorem addFree (h : Valid a n s) {start count : Nat} (hcount : 0 < count)
    (hin : ∀ p, Covers (a, n) p ↔ Covers (b, m) p ∨ Covers (start, count) p)
    (hdisj : ∀ p, Covers (b, m) p → ¬ Covers (start, count) p)
    (hleft : ∀ q ∈ s.freeRuns, q.1 + q.2 ≠ start)
    (hright : ∀ q ∈ s.freeRuns, q.1 ≠ start + count) :
    Valid b m { s with freeRuns := SortedMap.emplace s.freeRuns start count } := by
  have hclear : ∀ p, start ≤ p → p < start + count →
      p < s.frontier ∧ s.pageHead p = 0 ∧ ∀ q ∈ s.freeRuns, ¬ Covers q p := fun p h1 h2 =>
    h.hole p ((hin p).mpr (.inr ⟨h1, h2⟩))
  -- A free run lies on one side of the new one: it does not hold its first or last page,
  -- nor lie inside, nor touch it.
  have hside : ∀ q ∈ s.freeRuns, q.1 + q.2 < start ∨ start + count < q.1 := by
    intro q hq
    have h1 := (hclear start (le_refl _) (by omega)).2.2 q hq
    have h2 := hleft q hq
    have h3 := hright q hq
    have h4 := (h.freeIn q hq).1
    by_contra hcon
    by_cases hlt : q.1 < start
    · unfold Covers at h1
      omega
    · have h5 := (hclear q.1 (by omega) (by omega)).2.2 q hq
      unfold Covers at h5
      omega
  have hfresh : ∀ q ∈ s.freeRuns, q.1 ≠ start := by
    intro q hq heq
    have := hside q hq
    omega
  have hmem : ∀ q, q ∈ SortedMap.emplace s.freeRuns start count ↔
      q = (start, count) ∨ q ∈ s.freeRuns := fun q => SortedMap.mem_emplace hfresh
  refine
    { freeSorted := h.freeSorted.emplace
      objSorted := h.objSorted
      freeIn := ?_, objIn := h.objIn, apart := ?_, objHead := h.objHead, freeHead := ?_
      cover := ?_, hole := ?_, beyond := h.beyond, objCommitted := h.objCommitted
      sized := h.sized, used := h.used, retained := h.retained, pending := h.pending }
  · intro q hq
    rcases (hmem q).mp hq with rfl | hq
    · have := (hclear (start + count - 1) (by omega) (by omega)).1
      exact ⟨hcount, show start + count ≤ s.frontier by omega⟩
    · exact h.freeIn q hq
  · intro q hq t ht hne
    rcases (hmem q).mp hq with rfl | hq <;> rcases (hmem t).mp ht with rfl | ht
    · exact absurd rfl hne
    · have := hside t ht
      simp only
      omega
    · have := hside q hq
      simp only
      omega
    · exact h.apart q hq t ht hne
  · intro q hq p hp
    rcases (hmem q).mp hq with rfl | hq
    · exact (hclear p hp.1 hp.2).2.1
    · exact h.freeHead q hq p hp
  · intro p hp
    rcases h.cover p hp with hobj | ⟨q, hq, hc⟩ | hc
    · exact .inl hobj
    · exact .inr (.inl ⟨q, (hmem q).mpr (.inr hq), hc⟩)
    · rcases (hin p).mp hc with hc | hc
      · exact .inr (.inr hc)
      · exact .inr (.inl ⟨_, (hmem _).mpr (.inl rfl), hc⟩)
  · intro p hp
    obtain ⟨h1, h2, h3⟩ := h.hole p ((hin p).mpr (.inl hp))
    refine ⟨h1, h2, ?_⟩
    intro q hq
    rcases (hmem q).mp hq with rfl | hq
    · exact hdisj p hp
    · exact h3 q hq

theorem joinPrevious (h : Valid a n s) (hn : 0 < n) :
    let j := joinPrevious s.freeRuns a n
    Valid j.2.1 j.2.2 { s with freeRuns := j.1 } ∧ 0 < j.2.2 ∧ ∀ q ∈ j.1, q.1 + q.2 ≠ j.2.1 := by
  unfold Large.joinPrevious
  cases hb : SortedMap.before s.freeRuns a with
  | none =>
    dsimp only
    refine ⟨h, hn, ?_⟩
    intro q hq
    have := SortedMap.before_eq_none hb hq
    have := (h.freeIn q hq).1
    omega
  | some prev =>
    obtain ⟨hprev, hlt, hmax⟩ := SortedMap.before_eq_some h.freeSorted hb
    have hpos := (h.freeIn prev hprev).1
    -- Only the last run before the hole can end at it.
    have hends : ∀ q ∈ s.freeRuns, q.1 + q.2 = a → q = prev := by
      intro q hq hend
      by_contra hne
      have hqpos := (h.freeIn q hq).1
      have hqle := hmax q hq (by omega)
      have hapart := h.apart q hq prev hprev hne
      omega
    dsimp only
    split
    · rename_i hend
      dsimp only
      refine ⟨?_, by omega, ?_⟩
      · refine h.dropFree hprev ?_
        intro p
        simp only [Covers]
        omega
      · intro q hq hqend
        have hq := SortedMap.mem_erase.mp hq
        have hapart := h.apart q hq.1 prev hprev (fun heq => hq.2 (congrArg Prod.fst heq))
        have hqpos := (h.freeIn q hq.1).1
        omega
    · rename_i hend
      refine ⟨h, hn, ?_⟩
      intro q hq hqend
      exact hend (hends q hq hqend ▸ hqend)

theorem joinNext (h : Valid a n s) (hn : 0 < n) (hleft : ∀ q ∈ s.freeRuns, q.1 + q.2 ≠ a) :
    let j := joinNext s.freeRuns a n
    Valid a j.2 { s with freeRuns := j.1 } ∧ 0 < j.2 ∧
      (∀ q ∈ j.1, q.1 + q.2 ≠ a) ∧ ∀ q ∈ j.1, q.1 ≠ a + j.2 := by
  unfold Large.joinNext
  cases hb : SortedMap.lowerBound s.freeRuns (a + n) with
  | none =>
    dsimp only
    refine ⟨h, hn, hleft, ?_⟩
    intro q hq
    have := SortedMap.lowerBound_eq_none hb hq
    omega
  | some next =>
    obtain ⟨hnext, hle, hmin⟩ := SortedMap.lowerBound_eq_some h.freeSorted hb
    dsimp only
    split
    · rename_i hstart
      dsimp only
      refine ⟨?_, by omega, ?_, ?_⟩
      · refine h.dropFree hnext ?_
        intro p
        simp only [Covers]
        omega
      · intro q hq
        exact hleft q (SortedMap.mem_erase.mp hq).1
      · intro q hq hqstart
        have hq := SortedMap.mem_erase.mp hq
        have hapart := h.apart q hq.1 next hnext (fun heq => hq.2 (congrArg Prod.fst heq))
        have hpos := (h.freeIn q hq.1).1
        omega
    · rename_i hstart
      refine ⟨h, hn, hleft, ?_⟩
      intro q hq hqstart
      have := hmin q hq (by omega)
      omega

theorem insertFree (h : Valid a n s) (hn : 0 < n) :
    Valid 0 0 { s with freeRuns := (insertFree s.freeRuns a n).1 } := by
  obtain ⟨h1, hpos1, hleft1⟩ := h.joinPrevious hn
  obtain ⟨h2, hpos2, hleft2, hright2⟩ := h1.joinNext hpos1 hleft1
  refine h2.addFree hpos2 ?_ ?_ hleft2 hright2
  · intro p
    exact (or_iff_right (not_covers_zero p)).symm
  · intro p hp
    exact absurd hp (not_covers_zero p)

theorem takeRun (h : Valid 0 0 s) {pages start : Nat} {t : LargeSpace} (hpages : 0 < pages)
    (ht : Large.takeRun s pages = (t, some start)) : Valid start pages t := by
  unfold Large.takeRun at ht
  cases hf : s.freeRuns.find? (fun r => decide (pages ≤ r.2)) with
  | none => simp [hf] at ht
  | some r =>
    simp only [hf, Prod.mk.injEq, Option.some.injEq] at ht
    obtain ⟨rfl, rfl⟩ := ht
    have hr := List.mem_of_find?_eq_some hf
    have hfits : pages ≤ r.2 := by simpa using List.find?_some hf
    have hdrop : Valid r.1 r.2 { s with freeRuns := SortedMap.erase s.freeRuns r.1 } := by
      refine h.dropFree hr ?_
      intro p
      simp [not_covers_zero]
    by_cases hrest : r.2 - pages = 0
    · have heq : pages = r.2 := by omega
      simpa [hrest, heq] using hdrop
    · simp only [ne_eq, hrest, not_false_eq_true, if_true]
      refine hdrop.addFree (by omega) ?_ ?_ ?_ ?_
      · intro p
        simp only [Covers]
        omega
      · intro p
        simp only [Covers]
        omega
      · intro q hq
        have hq := SortedMap.mem_erase.mp hq
        have hapart := h.apart q hq.1 r hr (fun heq => hq.2 (congrArg Prod.fst heq))
        have hpos := (h.freeIn q hq.1).1
        omega
      · intro q hq
        have hq := SortedMap.mem_erase.mp hq
        have hapart := h.apart q hq.1 r hr (fun heq => hq.2 (congrArg Prod.fst heq))
        have hpos := (h.freeIn q hq.1).1
        omega

theorem growFrontier (h : Valid 0 0 s) {g : Setting} {pages start : Nat} {t : LargeSpace}
    (ht : Large.growFrontier g s pages = (t, some start)) : Valid start pages t := by
  unfold Large.growFrontier at ht
  split at ht
  · simp at ht
  simp only [Prod.mk.injEq, Option.some.injEq] at ht
  obtain ⟨rfl, rfl⟩ := ht
  have hlt : ∀ {q : Run} {p : Nat}, 0 < q.2 ∧ q.1 + q.2 ≤ s.frontier → Covers q p →
      p < s.frontier := by
    rintro q p ⟨_, hle⟩ ⟨_, hp⟩
    omega
  refine
    { freeSorted := h.freeSorted, objSorted := h.objSorted
      freeIn := ?_, objIn := ?_, apart := h.apart, objHead := ?_, freeHead := ?_, cover := ?_
      hole := ?_, beyond := ?_, objCommitted := ?_, sized := h.sized, used := h.used
      retained := ?_, pending := h.pending }
  · intro q hq
    exact ⟨(h.freeIn q hq).1, Nat.le_trans (h.freeIn q hq).2 (Nat.le_add_right _ _)⟩
  · intro q hq
    exact ⟨(h.objIn q hq).1, Nat.le_trans (h.objIn q hq).2 (Nat.le_add_right _ _)⟩
  · intro q hq p hp
    simpa [hlt (h.objIn q hq) hp] using h.objHead q hq p hp
  · intro q hq p hp
    simpa [hlt (h.freeIn q hq) hp] using h.freeHead q hq p hp
  · intro p hp
    by_cases hold : p < s.frontier
    · rcases h.cover p hold with hobj | hfree | hzero
      · exact .inl hobj
      · exact .inr (.inl hfree)
      · exact absurd hzero (not_covers_zero p)
    · exact .inr (.inr ⟨by simpa using hold, hp⟩)
  · rintro p ⟨h1, h2⟩
    have hge : ¬ p < s.frontier := by simpa using h1
    refine ⟨h2, by simp [hge], ?_⟩
    intro q hq hc
    exact hge (hlt (h.freeIn q hq) hc)
  · intro p hp
    have hge : ¬ p < s.frontier := by
      have : s.frontier + pages ≤ p := hp
      omega
    simp [hge]
  · intro q hq p hp
    simpa [hlt (h.objIn q hq) hp] using h.objCommitted q hq p hp
  · -- A fresh page is not committed, so the retained pages are the same.
    have hsame : retainedPages
        { s with
          frontier := s.frontier + pages
          pageHead := fun p => if p < s.frontier then s.pageHead p else 0
          pageCommitted := fun p => if p < s.frontier then s.pageCommitted p else false } =
        retainedPages s := by
      ext p
      simp only [mem_retainedPages]
      by_cases hold : p < s.frontier
      · simp only [hold, if_true, true_and]
        constructor
        · exact fun hp => hp.2
        · exact fun hp => ⟨by omega, hp⟩
      · simp [hold]
    rw [hsame]
    exact h.retained

/-! ## Freeing an object -/

theorem clear (h : Valid 0 0 s) (hr : r ∈ s.objects) (committed : Nat → Bool) (bytes : Int)
    (hsame : ∀ p, ¬ Covers r p → committed p = s.pageCommitted p)
    (hbytes : bytes = ((retainedPages
      { s with pageHead := setRange s.pageHead r.1 r.2 0, pageCommitted := committed }).card
        * kPageBytes : Nat)) :
    Valid r.1 r.2
      { s with
        objects := SortedMap.erase s.objects r.1
        pageHead := setRange s.pageHead r.1 r.2 0
        pageCommitted := committed
        usedBytes := s.usedBytes - (r.2 * kPageBytes : Nat)
        retainedBytes := bytes } := by
  have hother : ∀ q ∈ SortedMap.erase s.objects r.1, ∀ p, Covers q p →
      q ∈ s.objects ∧ ¬ Covers r p := by
    intro q hq p hp
    have hq := SortedMap.mem_erase.mp hq
    exact ⟨hq.1, fun hc => hq.2 (congrArg Prod.fst (h.obj_unique hq.1 hr hp hc))⟩
  have hkeep : ∀ p, ¬ Covers r p → setRange s.pageHead r.1 r.2 0 p = s.pageHead p :=
    fun p hp => if_neg hp
  have hzero : ∀ p, Covers r p → setRange s.pageHead r.1 r.2 0 p = 0 := fun p hp => if_pos hp
  refine
    { freeSorted := h.freeSorted, objSorted := h.objSorted.erase
      freeIn := h.freeIn, objIn := ?_, apart := h.apart, objHead := ?_, freeHead := ?_
      cover := ?_, hole := ?_, beyond := ?_, objCommitted := ?_, sized := ?_, used := ?_
      retained := hbytes, pending := h.pending }
  · intro q hq
    exact h.objIn q (SortedMap.mem_erase.mp hq).1
  · intro q hq p hp
    obtain ⟨hq, hnot⟩ := hother q hq p hp
    exact (hkeep p hnot).trans (h.objHead q hq p hp)
  · intro q hq p hp
    exact (hkeep p fun hc => h.obj_not_free hr hq hc hp).trans (h.freeHead q hq p hp)
  · intro p hp
    rcases h.cover p hp with ⟨q, hq, hc⟩ | hfree | hc
    · by_cases hqr : q.1 = r.1
      · have hqr := h.objSorted.eq_of_key_eq hq hr hqr
        exact .inr (.inr (hqr ▸ hc))
      · exact .inl ⟨q, SortedMap.mem_erase.mpr ⟨hq, hqr⟩, hc⟩
    · exact .inr (.inl hfree)
    · exact absurd hc (not_covers_zero p)
  · intro p hp
    have hle := (h.objIn r hr).2
    refine ⟨Nat.lt_of_lt_of_le hp.2 hle, hzero p hp, ?_⟩
    intro q hq
    exact h.obj_not_free hr hq hp
  · intro p hp
    have hnot : ¬ Covers r p := by
      intro hc
      have := (h.objIn r hr).2
      have := hc.2
      have : s.frontier ≤ p := hp
      omega
    exact (hkeep p hnot).trans (h.beyond p hp)
  · intro q hq p hp
    obtain ⟨hq, hnot⟩ := hother q hq p hp
    exact (hsame p hnot).trans (h.objCommitted q hq p hp)
  · intro q hq
    exact h.sized q (SortedMap.mem_erase.mp hq).1
  · have hsum : (s.objects.map Prod.snd).sum =
        r.2 + ((SortedMap.erase s.objects r.1).map Prod.snd).sum := by
      rw [((SortedMap.perm_erase h.objSorted hr).map Prod.snd).sum_eq]
      simp
    have hused := h.used
    rw [hsum, Nat.add_mul] at hused
    show s.usedBytes - ((r.2 * kPageBytes : Nat) : Int) =
      ((((SortedMap.erase s.objects r.1).map Prod.snd).sum * kPageBytes : Nat) : Int)
    omega

theorem retained_add (h : Valid 0 0 s) (hr : r ∈ s.objects) :
    (retainedPages { s with pageHead := setRange s.pageHead r.1 r.2 0 }).card =
      (retainedPages s).card + r.2 := by
  have hunion : retainedPages { s with pageHead := setRange s.pageHead r.1 r.2 0 } =
      retainedPages s ∪ Finset.Ico r.1 (r.1 + r.2) := by
    ext p
    simp only [mem_retainedPages, setRange, Finset.mem_union, Finset.mem_Ico]
    by_cases hc : r.1 ≤ p ∧ p < r.1 + r.2
    · have hcommitted := h.objCommitted r hr p hc
      have hle := (h.objIn r hr).2
      rw [if_pos hc]
      exact ⟨fun _ => .inr hc, fun _ => ⟨by omega, rfl, hcommitted⟩⟩
    · rw [if_neg hc, or_iff_left hc]
  rw [hunion, Finset.card_union_of_disjoint, Nat.card_Ico]
  · omega
  · rw [Finset.disjoint_left]
    intro p hp hc
    have hhead := h.objHead r hr p (Finset.mem_Ico.mp hc)
    have hzero := (mem_retainedPages.mp hp).2.1
    omega

theorem retained_same (h : Valid 0 0 s) (hr : r ∈ s.objects) :
    retainedPages { s with
      pageHead := setRange s.pageHead r.1 r.2 0
      pageCommitted := setRange s.pageCommitted r.1 r.2 false } = retainedPages s := by
  ext p
  simp only [mem_retainedPages, setRange]
  by_cases hc : r.1 ≤ p ∧ p < r.1 + r.2
  · have hhead := h.objHead r hr p hc
    rw [if_pos hc, if_pos hc]
    constructor
    · rintro ⟨_, _, hfalse⟩
      exact absurd hfalse (by simp)
    · rintro ⟨_, hzero, _⟩
      omega
  · rw [if_neg hc, if_neg hc]

theorem freeLarge (h : Valid 0 0 s) (hr : r ∈ s.objects) (g : Setting) : Valid 0 0
      (freeLarge g { s with objects := SortedMap.erase s.objects r.1 } r.1 r.2).1 := by
  have hpos := (h.objIn r hr).1
  unfold Large.freeLarge retainOrDecommit
  by_cases hcap : s.retainedBytes + ((r.2 * kPageBytes : Nat) : Int) ≤
      ((max kRetainedLargeBytes g.fullThreshold : Nat) : Int)
  · have hbytes : s.retainedBytes + ((r.2 * kPageBytes : Nat) : Int) = ((retainedPages
        { s with pageHead := setRange s.pageHead r.1 r.2 0 }).card * kPageBytes : Nat) := by
      rw [h.retained_add hr, h.retained, Nat.add_mul]
      omega
    have hclear := h.clear hr s.pageCommitted _ (fun _ _ => rfl) hbytes
    rw [if_pos hcap]
    exact hclear.insertFree hpos
  · have hbytes : s.retainedBytes = ((retainedPages { s with
        pageHead := setRange s.pageHead r.1 r.2 0
        pageCommitted := setRange s.pageCommitted r.1 r.2 false }).card * kPageBytes : Nat) := by
      rw [h.retained_same hr]
      exact h.retained
    have hclear := h.clear hr (setRange s.pageCommitted r.1 r.2 false) _
      (fun p hp => if_neg hp) hbytes
    rw [if_neg hcap]
    exact hclear.insertFree hpos

end Valid

/-! ## Placing an object -/

def committedIn (committed : Nat → Bool) (p n : Nat) : Finset Nat :=
  (Finset.Ico p (p + n)).filter fun q => committed q

theorem card_committedIn_succ (committed : Nat → Bool) (p n : Nat) :
    (committedIn committed p (n + 1)).card =
      (committedIn committed (p + 1) n).card + (committed p).toNat := by
  have hico : Finset.Ico p (p + (n + 1)) = insert p (Finset.Ico (p + 1) (p + 1 + n)) := by
    ext q
    simp only [Finset.mem_Ico, Finset.mem_insert]
    omega
  unfold committedIn
  rw [hico, Finset.filter_insert]
  cases hp : committed p with
  | true =>
    rw [if_pos rfl, Finset.card_insert_of_notMem]
    · rfl
    · simp
  | false =>
    rw [if_neg (by simp)]
    rfl

theorem committedIn_update (committed : Nat → Bool) (p n : Nat) (v : Bool) :
    committedIn (update committed p v) (p + 1) n = committedIn committed (p + 1) n := by
  unfold committedIn
  refine Finset.filter_congr ?_
  intro q hq
  have hne : q ≠ p := by
    have := (Finset.mem_Ico.mp hq).1
    omega
  rw [update_of_ne hne]

/-- What the commit loop leaves: its pages committed, and the bytes of those that were
already so taken off the retained ones. -/
theorem commitRun_eq (n : Nat) : ∀ (s : LargeSpace) (p : Nat), commitRun s p n =
    { s with
      pageCommitted := setRange s.pageCommitted p n true
      retainedBytes := s.retainedBytes -
        ((committedIn s.pageCommitted p n).card * kPageBytes : Nat) } := by
  induction n with
  | zero =>
    intro s p
    have hrange : setRange s.pageCommitted p 0 true = s.pageCommitted := by
      funext q
      exact if_neg (by omega)
    simp [commitRun, hrange, committedIn]
  | succ n ih =>
    intro s p
    rw [commitRun, ih]
    have hcard := card_committedIn_succ s.pageCommitted p n
    cases hp : s.pageCommitted p with
    | true =>
      have hrange : setRange s.pageCommitted (p + 1) n true =
          setRange s.pageCommitted p (n + 1) true := by
        funext q
        unfold setRange
        by_cases hq : q = p
        · subst hq
          rw [if_neg (by omega), if_pos (by omega), hp]
        · refine if_congr (by omega) rfl rfl
      rw [hp] at hcard
      simp only [if_true, hrange, hcard, Bool.toNat_true, Nat.add_mul]
      congr 1
      omega
    | false =>
      have hrange : setRange (update s.pageCommitted p true) (p + 1) n true =
          setRange s.pageCommitted p (n + 1) true := by
        funext q
        unfold setRange
        by_cases hq : q = p
        · subst hq
          rw [if_neg (by omega), if_pos (by omega), update_self]
        · rw [update_of_ne hq]
          exact if_congr (by omega) rfl rfl
      rw [hp] at hcard
      simp only [Bool.false_eq_true, if_false, hrange, hcard, committedIn_update,
        Bool.toNat_false, Nat.add_zero]

theorem placeObject_eq (s : LargeSpace) (start pages : Nat) : placeObject s start pages =
    { s with
      pageCommitted := setRange s.pageCommitted start pages true
      retainedBytes := s.retainedBytes -
        ((committedIn s.pageCommitted start pages).card * kPageBytes : Nat)
      objects := SortedMap.emplace s.objects start pages
      pageHead := setRange s.pageHead start pages (start + 1)
      usedBytes := s.usedBytes + (pages * kPageBytes : Nat) } := by
  unfold placeObject
  rw [commitRun_eq]

namespace Valid

variable {a n : Nat} {s : LargeSpace} {r : Run}

theorem obj_not_hole (h : Valid a n s) : ∀ q ∈ s.objects, ∀ p, Covers q p → ¬ Covers (a, n) p := by
  intro q hq p hqp hp
  have h1 := h.objHead q hq p hqp
  have h2 := (h.hole p hp).2.1
  omega

theorem fresh (h : Valid a n s) (hn : 0 < n) : ∀ q ∈ s.objects, q.1 ≠ a := by
  intro q hq heq
  have hpos := (h.objIn q hq).1
  exact h.obj_not_hole q hq q.1 ⟨le_refl _, by omega⟩ ⟨by omega, by simp only; omega⟩

theorem retained_sub (h : Valid a n s) :
    (retainedPages { s with
      pageCommitted := setRange s.pageCommitted a n true
      pageHead := setRange s.pageHead a n (a + 1) }).card + (committedIn s.pageCommitted a n).card =
      (retainedPages s).card := by
  have hunion : retainedPages s = retainedPages { s with
      pageCommitted := setRange s.pageCommitted a n true
      pageHead := setRange s.pageHead a n (a + 1) } ∪ committedIn s.pageCommitted a n := by
    ext p
    simp only [mem_retainedPages, setRange, Finset.mem_union, committedIn, Finset.mem_filter,
      Finset.mem_Ico]
    by_cases hc : a ≤ p ∧ p < a + n
    · obtain ⟨hlt, hzero, _⟩ := h.hole p hc
      rw [if_pos hc, if_pos hc]
      constructor
      · rintro ⟨_, _, hcommitted⟩
        exact .inr ⟨hc, hcommitted⟩
      · rintro (⟨_, hne, _⟩ | ⟨_, hcommitted⟩)
        · omega
        · exact ⟨hlt, hzero, hcommitted⟩
    · rw [if_neg hc, if_neg hc]
      exact ⟨.inl, fun hp => hp.elim id fun hq => absurd hq.1 hc⟩
  rw [hunion, Finset.card_union_of_disjoint]
  rw [Finset.disjoint_left]
  intro p hp hc
  have hc := Finset.mem_Ico.mp (Finset.mem_filter.mp hc).1
  have hzero := (mem_retainedPages.mp hp).2.1
  simp only [setRange, hc, and_self, if_true] at hzero
  omega

theorem placeObject (h : Valid a n s) (hd : Header) (hn : 0 < n)
    (hsize : n = pagesFor (kHeaderBytes + hd.size.toNat)) :
    Valid 0 0 { placeObject s a n with header := update s.header a hd } := by
  rw [placeObject_eq]
  have hdisj := h.obj_not_hole
  have hfresh := h.fresh hn
  have hmem : ∀ q, q ∈ SortedMap.emplace s.objects a n ↔ q = (a, n) ∨ q ∈ s.objects :=
    fun q => SortedMap.mem_emplace hfresh
  have hkeep : ∀ p, ¬ Covers (a, n) p → setRange s.pageHead a n (a + 1) p = s.pageHead p :=
    fun p hp => if_neg hp
  refine
    { freeSorted := h.freeSorted, objSorted := h.objSorted.emplace
      freeIn := h.freeIn, objIn := ?_, apart := h.apart, objHead := ?_, freeHead := ?_
      cover := ?_, hole := fun p hp => absurd hp (not_covers_zero p), beyond := ?_
      objCommitted := ?_, sized := ?_, used := ?_, retained := ?_, pending := h.pending }
  · intro q hq
    rcases (hmem q).mp hq with rfl | hq
    · have hlast := (h.hole (a + n - 1) ⟨by simp only; omega, by simp only; omega⟩).1
      exact ⟨hn, show a + n ≤ s.frontier by omega⟩
    · exact h.objIn q hq
  · intro q hq p hp
    rcases (hmem q).mp hq with rfl | hq
    · exact if_pos hp
    · exact (hkeep p (hdisj q hq p hp)).trans (h.objHead q hq p hp)
  · intro q hq p hp
    exact (hkeep p fun hc => (h.hole p hc).2.2 q hq hp).trans (h.freeHead q hq p hp)
  · intro p hp
    rcases h.cover p hp with ⟨q, hq, hc⟩ | hfree | hc
    · exact .inl ⟨q, (hmem q).mpr (.inr hq), hc⟩
    · exact .inr (.inl hfree)
    · exact .inl ⟨_, (hmem _).mpr (.inl rfl), hc⟩
  · intro p hp
    refine (hkeep p fun hc => ?_).trans (h.beyond p hp)
    have := (h.hole p hc).1
    have : s.frontier ≤ p := hp
    omega
  · intro q hq p hp
    rcases (hmem q).mp hq with rfl | hq
    · exact if_pos hp
    · exact (if_neg (hdisj q hq p hp)).trans (h.objCommitted q hq p hp)
  · intro q hq
    rcases (hmem q).mp hq with rfl | hq
    · simpa using hsize
    · simpa [update_of_ne (hfresh q hq)] using h.sized q hq
  · have hsum : ((SortedMap.emplace s.objects a n).map Prod.snd).sum =
        n + (s.objects.map Prod.snd).sum := by
      rw [((SortedMap.emplace_perm h.objSorted hfresh).map Prod.snd).sum_eq]
      simp
    have hused := h.used
    show s.usedBytes + ((n * kPageBytes : Nat) : Int) =
      ((((SortedMap.emplace s.objects a n).map Prod.snd).sum * kPageBytes : Nat) : Int)
    rw [hsum, Nat.add_mul]
    omega
  · have hret := h.retained
    rw [← h.retained_sub, Nat.add_mul] at hret
    show s.retainedBytes - (((committedIn s.pageCommitted a n).card * kPageBytes : Nat) : Int) =
      (((retainedPages { s with
        pageCommitted := setRange s.pageCommitted a n true
        pageHead := setRange s.pageHead a n (a + 1) }).card * kPageBytes : Nat) : Int)
    omega

end Valid

/-! ## The walk -/

/-- A pending walk: the objects behind the cursor live on and are unmarked, and ahead of
it the marked ones do. -/
structure Sweeping (live : Run → Prop) (s : LargeSpace) : Prop where
  kept : ∀ r, live r → r ∈ s.objects
  behind : ∀ r ∈ s.objects, s.largeActive = false ∨ r.1 < s.cursor →
    live r ∧ (s.header r.1).marked = false
  ahead : s.largeActive = true → ∀ r ∈ s.objects, s.cursor ≤ r.1 →
    ((s.header r.1).marked = true ↔ live r)

/-- Freeing changes the tables, not the objects, their headers or the walk. -/
theorem freeLarge_eq (g : Setting) (s : LargeSpace) (head pages : Nat) :
    ∃ runs heads committed used retained, (freeLarge g s head pages).1 =
      { s with freeRuns := runs, pageHead := heads, pageCommitted := committed
               usedBytes := used, retainedBytes := retained } := by
  unfold freeLarge retainOrDecommit
  dsimp only
  split
  · exact ⟨_, _, _, _, _, rfl⟩
  · exact ⟨_, _, _, _, _, rfl⟩

section Walk

variable {live : Run → Prop} {s t : LargeSpace} {g : Setting}

theorem Sweeping.move (h : Sweeping live s) (hactive : s.largeActive = true)
    (hsub : ∀ r ∈ t.objects, r ∈ s.objects) (hlive : ∀ r, live r → r ∈ t.objects)
    (hpassed : ∀ r ∈ t.objects, s.cursor ≤ r.1 → r.1 < t.cursor →
      live r ∧ (t.header r.1).marked = false)
    (hsame : ∀ r ∈ t.objects, r.1 < s.cursor ∨ t.cursor ≤ r.1 → t.header r.1 = s.header r.1)
    (hle : s.cursor ≤ t.cursor)
    (hend : t.largeActive = false → ∀ r ∈ t.objects, r.1 < t.cursor) : Sweeping live t where
  kept := hlive
  behind r hr hb := by
    have hlt : r.1 < t.cursor := hb.elim (fun hfalse => hend hfalse r hr) id
    by_cases hold : r.1 < s.cursor
    · rw [hsame r hr (.inl hold)]
      exact h.behind r (hsub r hr) (.inr hold)
    · exact hpassed r hr (by omega) hlt
  ahead _ r hr hc := by
    rw [hsame r hr (.inr hc)]
    exact h.ahead hactive r (hsub r hr) (by omega)

structure Visited (s : LargeSpace) (p : Nat) (t : LargeSpace) (q : Nat) : Prop where
  valid : Valid 0 0 t
  frontier : t.frontier = s.frontier
  active : t.active = s.active
  largeActive : t.largeActive = s.largeActive
  cursor : t.cursor = s.cursor
  lt : p < q
  sub : ∀ r ∈ t.objects, r ∈ s.objects
  live : ∀ live, Sweeping live s → s.largeActive = true → s.cursor = p →
    (∀ r, live r → r ∈ t.objects) ∧
    (∀ r ∈ t.objects, p ≤ r.1 → r.1 < q → live r ∧ (t.header r.1).marked = false)
  same : ∀ r ∈ t.objects, r.1 < p ∨ q ≤ r.1 → t.header r.1 = s.header r.1

theorem Visited.skip (hv : Valid 0 0 s) {p q : Nat} (hlt : p < q)
    (hnone : ∀ r ∈ s.objects, p ≤ r.1 → ¬ r.1 < q) : Visited s p s q where
  valid := hv
  frontier := rfl
  active := rfl
  largeActive := rfl
  cursor := rfl
  lt := hlt
  sub _ hr := hr
  live _ hs _ _ := ⟨hs.kept, fun r hr h1 h2 => absurd h2 (hnone r hr h1)⟩
  same _ _ _ := rfl

theorem Valid.visited_judgeObject (hv : Valid 0 0 s) {r : Run} (hr : r ∈ s.objects) :
    Visited s r.1 (judgeObject g s r.1 r.2).1 (r.1 + r.2) := by
  have hpos := (hv.objIn r hr).1
  -- No other object has its head in the run.
  have honly : ∀ q ∈ s.objects, r.1 ≤ q.1 → q.1 < r.1 + r.2 → q = r := by
    intro q hq h1 h2
    have hqpos := (hv.objIn q hq).1
    exact hv.obj_unique hq hr ⟨le_refl _, by omega⟩ ⟨h1, h2⟩
  unfold judgeObject
  by_cases hmark : (s.header r.1).marked = true
  · rw [if_pos hmark]
    have hother : ∀ q ∈ s.objects, q.1 < r.1 ∨ r.1 + r.2 ≤ q.1 → q.1 ≠ r.1 := by
      intro q _ hq
      omega
    refine
      { valid := ?_, frontier := rfl, active := rfl, largeActive := rfl, cursor := rfl
        lt := by omega, sub := fun _ hq => hq, live := ?_, same := ?_ }
    · refine { hv with sized := ?_ }
      intro q hq
      by_cases hqr : q.1 = r.1
      · simpa [hqr] using hv.sized q hq
      · simpa [update_of_ne hqr] using hv.sized q hq
    · intro live hs hactive hcur
      refine ⟨hs.kept, ?_⟩
      intro q hq h1 h2
      obtain rfl := honly q hq h1 h2
      exact ⟨(hs.ahead hactive q hq hcur.le).mp hmark, by simp⟩
    · intro q hq hside
      exact update_of_ne (hother q hq hside) _ _
  · rw [if_neg hmark]
    have hvalid := hv.freeLarge hr g
    obtain ⟨runs, heads, committed, used, retained, heq⟩ :=
      freeLarge_eq g { s with objects := SortedMap.erase s.objects r.1 } r.1 r.2
    rw [heq] at hvalid ⊢
    refine
      { valid := hvalid, frontier := rfl, active := rfl, largeActive := rfl, cursor := rfl
        lt := by omega, sub := fun q hq => (SortedMap.mem_erase.mp hq).1, live := ?_
        same := fun _ _ _ => rfl }
    intro live hs hactive hcur
    constructor
    · intro q hq
      refine SortedMap.mem_erase.mpr ⟨hs.kept q hq, ?_⟩
      intro hkey
      obtain rfl := hv.objSorted.eq_of_key_eq (hs.kept q hq) hr hkey
      exact hmark ((hs.ahead hactive q hr hcur.le).mpr hq)
    · intro q hq h1 h2
      have hq := SortedMap.mem_erase.mp hq
      exact absurd (congrArg Prod.fst (honly q hq.1 h1 h2)) hq.2

theorem Valid.visited_visitPage (hv : Valid 0 0 s) (p : Nat) :
    Visited s p (visitPage g s p).1 (visitPage g s p).2.1 := by
  unfold visitPage
  by_cases hzero : s.pageHead p = 0
  · rw [if_pos hzero]
    cases hf : SortedMap.find s.freeRuns p with
    | none =>
      refine Visited.skip hv (by simp) ?_
      intro r hr h1 h2
      have hpos := (hv.objIn r hr).1
      have h2 : r.1 < p + 1 := h2
      have hhead := hv.objHead r hr p ⟨by omega, by omega⟩
      omega
    | some n =>
      have hfree := SortedMap.find_eq_some hf
      have hn := (hv.freeIn _ hfree).1
      refine Visited.skip hv (by simpa using hn) ?_
      intro r hr h1 h2
      have hpos := (hv.objIn r hr).1
      exact hv.obj_not_free hr hfree ⟨le_refl _, by omega⟩ ⟨h1, h2⟩
  · rw [if_neg hzero]
    obtain ⟨r, hr, hc, hhead⟩ := hv.obj_of_head hzero
    have hsub : s.pageHead p - 1 = r.1 := by omega
    simp only [hsub, ← hv.sized r hr]
    by_cases hp : r.1 = p
    · subst hp
      rw [if_pos rfl]
      exact hv.visited_judgeObject hr
    · rw [if_neg hp]
      refine Visited.skip hv hc.2 ?_
      intro q hq h1 h2
      have hqpos := (hv.objIn q hq).1
      have hle := hc.1
      obtain rfl := hv.obj_unique hq hr ⟨le_refl _, by omega⟩ ⟨by omega, h2⟩
      omega

theorem Valid.setWalk {a n : Nat} (h : Valid a n s) {active largeActive : Bool} (cursor : Nat)
    (hpending : largeActive = true → active = true) :
    Valid a n { s with active := active, largeActive := largeActive, cursor := cursor } :=
  { h with pending := hpending }

structure Walked (s t : LargeSpace) : Prop where
  valid : Valid 0 0 t
  frontier : t.frontier = s.frontier
  sweeping : ∀ live, Sweeping live s → Sweeping live t

theorem Walked.refl (hv : Valid 0 0 s) : Walked s s :=
  ⟨hv, rfl, fun _ h => h⟩

theorem Walked.trans {u : LargeSpace} (h : Walked s t) (h' : Walked t u) : Walked s u :=
  ⟨h'.valid, h'.frontier.trans h.frontier, fun live hs => h'.sweeping live (h.sweeping live hs)⟩

theorem Valid.walked_sweepLargeStep (hv : Valid 0 0 s) (hactive : s.largeActive = true) :
    Walked s (sweepLargeStep g s).1 ∧ (sweepLargeStep g s).1.active = s.active := by
  unfold sweepLargeStep
  by_cases hend : s.frontier ≤ s.cursor
  · rw [if_pos hend]
    refine ⟨⟨hv.setWalk s.cursor (by simp), rfl, ?_⟩, rfl⟩
    intro live hs
    have hbelow : ∀ r ∈ s.objects, r.1 < s.cursor := by
      intro r hr
      have := hv.objIn r hr
      omega
    exact
      { kept := hs.kept
        behind := fun r hr _ => hs.behind r hr (.inr (hbelow r hr))
        ahead := fun h => absurd h (by simp) }
  · rw [if_neg hend]
    have hvis := hv.visited_visitPage (g := g) s.cursor
    generalize visitPage g s s.cursor = v at hvis
    obtain ⟨t, p, run⟩ := v
    dsimp only at hvis ⊢
    refine ⟨⟨hvis.valid.setWalk p ?_, hvis.frontier, ?_⟩, hvis.active⟩
    · intro _
      exact hvis.active.trans (hv.pending hactive)
    · intro live hs
      obtain ⟨hlive, hpassed⟩ := hvis.live live hs hactive rfl
      refine hs.move hactive hvis.sub hlive hpassed hvis.same hvis.lt.le ?_
      intro hfalse r hr
      have hin := (hvis.valid.objIn r hr)
      have hreach : t.frontier ≤ p := by
        by_contra hlt
        simp [hlt, hvis.largeActive, hactive] at hfalse
      show r.1 < p
      omega

theorem Valid.sweepLargeStep_progress (hv : Valid 0 0 s) :
    ((sweepLargeStep g s).2.1 = true → s.cursor < (sweepLargeStep g s).1.cursor) ∧
    ((sweepLargeStep g s).2.1 = false → (sweepLargeStep g s).1.largeActive = false) ∧
    ((sweepLargeStep g s).1.frontier ≤ (sweepLargeStep g s).1.cursor →
      (sweepLargeStep g s).1.largeActive = false) := by
  unfold sweepLargeStep
  by_cases hend : s.frontier ≤ s.cursor
  · rw [if_pos hend]
    simp
  · rw [if_neg hend]
    have hvis := hv.visited_visitPage (g := g) s.cursor
    refine ⟨fun _ => hvis.lt, fun h => absurd h (by simp), ?_⟩
    intro hreach
    exact if_pos hreach

theorem Valid.walked_sweepSteps (n : Nat) : ∀ {s : LargeSpace}, Valid 0 0 s →
    Walked s (sweepSteps g n s) ∧ (sweepSteps g n s).active = s.active := by
  induction n with
  | zero => exact fun hv => ⟨Walked.refl hv, rfl⟩
  | succ n ih =>
    intro s hv
    rw [sweepSteps]
    by_cases hactive : s.largeActive = true
    · rw [if_pos hactive]
      obtain ⟨hstep, hsame⟩ := hv.walked_sweepLargeStep (g := g) hactive
      dsimp only
      split
      · obtain ⟨hrest, hsame'⟩ := ih hstep.valid
        exact ⟨hstep.trans hrest, hsame'.trans hsame⟩
      · exact ⟨hstep, hsame⟩
    · rw [if_neg hactive]
      exact ⟨Walked.refl hv, rfl⟩

theorem Valid.sweepSteps_done (n : Nat) : ∀ {s : LargeSpace}, Valid 0 0 s →
    s.frontier + 1 ≤ n + s.cursor → n ≠ 0 → (sweepSteps g n s).largeActive = false := by
  induction n with
  | zero => exact fun _ _ h => absurd rfl h
  | succ n ih =>
    intro s hv hn _
    rw [sweepSteps]
    by_cases hactive : s.largeActive = true
    · rw [if_pos hactive]
      obtain ⟨hmore, hstop, hreach⟩ := hv.sweepLargeStep_progress (g := g)
      obtain ⟨hstep, _⟩ := hv.walked_sweepLargeStep (g := g) hactive
      dsimp only
      split
      · rename_i hm
        have hlt := hmore hm
        have hfront := hstep.frontier
        by_cases hdone : (sweepLargeStep g s).1.frontier ≤ (sweepLargeStep g s).1.cursor
        · have hoff := hreach hdone
          cases n with
          | zero => exact hoff
          | succ n =>
            rw [sweepSteps, hoff]
            exact hoff
        · exact ih hstep.valid (by omega) (by omega)
      · rename_i hm
        exact hstop (by simpa using hm)
    · rw [if_neg hactive]
      simpa using hactive

theorem Valid.walked_completeSweep (hv : Valid 0 0 s) :
    Walked s (completeSweep g s) ∧ (completeSweep g s).largeActive = false ∧
      (completeSweep g s).active = false := by
  unfold completeSweep
  by_cases hactive : s.active = true
  · rw [if_pos hactive]
    obtain ⟨hwalked, _⟩ := Valid.walked_sweepSteps (g := g) (s.frontier + 1) hv
    have hdone := Valid.sweepSteps_done (g := g) (s.frontier + 1) hv (by omega) (by omega)
    refine ⟨⟨hwalked.valid.setWalk _ ?_, hwalked.frontier, ?_⟩, hdone, rfl⟩
    · rw [hdone]
      simp
    · intro live hs
      have hs' := hwalked.sweeping live hs
      exact ⟨hs'.kept, hs'.behind, hs'.ahead⟩
  · rw [if_neg hactive]
    have hoff : s.largeActive = false := by
      by_contra hon
      exact hactive (hv.pending (by simpa using hon))
    exact ⟨Walked.refl hv, hoff, by simpa using hactive⟩

theorem Valid.walked_sweepForRun (pages n : Nat) : ∀ {s : LargeSpace}, Valid 0 0 s →
    Walked s (sweepForRun g pages n s).1 := by
  induction n with
  | zero => exact fun hv => Walked.refl hv
  | succ n ih =>
    intro s hv
    rw [sweepForRun]
    by_cases hactive : s.largeActive = true
    · rw [if_pos hactive]
      obtain ⟨hstep, _⟩ := hv.walked_sweepLargeStep (g := g) hactive
      dsimp only
      split
      · exact hstep
      · split
        · exact hstep
        · exact hstep.trans (ih hstep.valid)
    · rw [if_neg hactive]
      exact Walked.refl hv

end Walk

/-! ## Allocation -/

/-- What a stage of the search for a run of `pages` pages keeps: the run it found is a
hole. -/
def Taken (s : LargeSpace) (pages : Nat) (r : LargeSpace × Option Nat) : Prop :=
  (∀ live, Sweeping live s → Sweeping live r.1) ∧
    match r.2 with
    | some start => Valid start pages r.1
    | none => Valid 0 0 r.1

section Allocation

variable {s : LargeSpace} {g : Setting} {pages : Nat}

theorem takeRun_none (h : (takeRun s pages).2 = none) : (takeRun s pages).1 = s := by
  unfold takeRun at h ⊢
  cases hf : s.freeRuns.find? (fun r => decide (pages ≤ r.2)) with
  | none => rfl
  | some r => simp [hf] at h

theorem growFrontier_none (h : (growFrontier g s pages).2 = none) :
    (growFrontier g s pages).1 = s := by
  unfold growFrontier at h ⊢
  by_cases hfull : g.largeReserve < (s.frontier + pages) * kPageBytes
  · rw [if_pos hfull]
  · simp [hfull] at h

theorem Valid.taken_takeRun (hv : Valid 0 0 s) (hpages : 0 < pages) :
    Taken s pages (Large.takeRun s pages) := by
  have hsweep : ∀ live, Sweeping live s → Sweeping live (Large.takeRun s pages).1 := by
    intro live hs
    unfold Large.takeRun
    split
    · exact ⟨hs.kept, hs.behind, hs.ahead⟩
    · exact hs
  refine ⟨hsweep, ?_⟩
  cases hr : (Large.takeRun s pages).2 with
  | some start => exact hv.takeRun hpages (Prod.ext rfl hr)
  | none =>
    show Valid 0 0 (Large.takeRun s pages).1
    rw [takeRun_none hr]
    exact hv

theorem Valid.taken_growFrontier (hv : Valid 0 0 s) :
    Taken s pages (Large.growFrontier g s pages) := by
  have hsweep : ∀ live, Sweeping live s → Sweeping live (Large.growFrontier g s pages).1 := by
    intro live hs
    unfold Large.growFrontier
    split
    · exact hs
    · exact ⟨hs.kept, hs.behind, hs.ahead⟩
  refine ⟨hsweep, ?_⟩
  cases hr : (Large.growFrontier g s pages).2 with
  | some start => exact hv.growFrontier (Prod.ext rfl hr)
  | none =>
    show Valid 0 0 (Large.growFrontier g s pages).1
    rw [growFrontier_none hr]
    exact hv

theorem Walked.taken {t : LargeSpace} {r : LargeSpace × Option Nat} (h : Walked s t)
    (ht : Taken t pages r) : Taken s pages r :=
  ⟨fun live hs => ht.1 live (h.sweeping live hs), ht.2⟩

theorem Valid.taken_none (hv : Valid 0 0 s) : Taken s pages (s, none) :=
  ⟨fun _ h => h, hv⟩

theorem Taken.orElse {r : LargeSpace × Option Nat} {next : LargeSpace → LargeSpace × Option Nat}
    (h : Taken s pages r) (hnext : ∀ t, Valid 0 0 t → Taken t pages (next t)) :
    Taken s pages (orElseTake r next) := by
  obtain ⟨t, _ | start⟩ := r
  · obtain ⟨hsweep, hvalid⟩ := hnext t h.2
    exact ⟨fun live hs => hsweep live (h.1 live hs), hvalid⟩
  · exact h

theorem Valid.taken_takeRunSweeping (hv : Valid 0 0 s) (hpages : 0 < pages) :
    Taken s pages (takeRunSweeping g s pages) := by
  unfold takeRunSweeping sweepLargeForAllocation
  split
  · have hwalked := Valid.walked_sweepForRun (g := g) pages kAllocatorSweepLarge hv
    dsimp only
    split
    · exact hwalked.taken (hwalked.valid.taken_takeRun hpages)
    · exact hwalked.taken hwalked.valid.taken_none
  · exact hv.taken_none

theorem Valid.taken_takeRunAtEnd (hv : Valid 0 0 s) (hpages : 0 < pages) :
    Taken s pages (takeRunAtEnd g s pages) := by
  unfold takeRunAtEnd
  split
  · obtain ⟨hwalked, _⟩ := hv.walked_completeSweep (g := g)
    exact hwalked.taken (hwalked.valid.taken_takeRun hpages)
  · exact hv.taken_none

/-- An allocation either finds no room, or puts an object where a hole was. -/
theorem Valid.largeAllocate (hv : Valid 0 0 s) {total : Nat} (hpages : 0 < pagesFor total) :
    ∃ r, Taken s (pagesFor total) r ∧ largeAllocate g s total = match r with
        | (t, some start) => (Large.placeObject t start (pagesFor total), some start)
        | (t, none) => (t, none) := by
  have hsweep : ∃ t, Walked s t ∧
      (if overReserve g s (pagesFor total) && maySweep g s then completeSweep g s else s) = t := by
    refine ⟨_, ?_, rfl⟩
    split
    · exact (hv.walked_completeSweep (g := g)).1
    · exact Walked.refl hv
  obtain ⟨t, hwalked, ht⟩ := hsweep
  unfold Large.largeAllocate
  dsimp only
  rw [ht]
  split
  · exact ⟨(t, none), hwalked.taken hwalked.valid.taken_none, rfl⟩
  · have hvt := hwalked.valid
    refine ⟨_, hwalked.taken ?_, rfl⟩
    refine Taken.orElse (Taken.orElse (Taken.orElse ?_ ?_) ?_) ?_
    · exact hvt.taken_takeRun hpages
    · exact fun u hu => hu.taken_takeRunSweeping hpages
    · exact fun u hu => hu.taken_takeRunAtEnd hpages
    · exact fun u hu => hu.taken_growFrontier

theorem noteLargeAllocated_eq (u : LargeSpace) (start : Nat) (payload : UInt32) :
    noteLargeAllocated { u with header := update u.header start ⟨payload, false⟩ } start =
      { u with
        header := update u.header start
          ⟨payload, u.largeActive && decide (u.cursor ≤ start)⟩ } := by
  unfold noteLargeAllocated
  cases (u.largeActive && decide (u.cursor ≤ start)) <;> simp

/-- A new object lives on through a pending walk: unmarked behind the cursor, marked ahead
of it. -/
theorem Sweeping.place {live : Run → Prop} {start n : Nat} (payload : UInt32)
    (hs : Sweeping live s) (hv : Valid start n s) (hn : 0 < n) :
    Sweeping (fun q => live q ∨ q = (start, n))
      { placeObject s start n with
        header := update s.header start
          ⟨payload, s.largeActive && decide (s.cursor ≤ start)⟩ } := by
  rw [placeObject_eq]
  have hfresh := hv.fresh hn
  have hmem : ∀ q, q ∈ SortedMap.emplace s.objects start n ↔
      q = (start, n) ∨ q ∈ s.objects := fun q => SortedMap.mem_emplace hfresh
  refine { kept := ?_, behind := ?_, ahead := ?_ }
  · rintro q (hq | hq)
    · exact (hmem q).mpr (.inr (hs.kept q hq))
    · exact (hmem q).mpr (.inl hq)
  · intro q hq hb
    rcases (hmem q).mp hq with rfl | hq
    · refine ⟨.inr rfl, ?_⟩
      rcases hb with hoff | hlt
      · have hoff : s.largeActive = false := hoff
        simp [hoff]
      · have hlt : start < s.cursor := hlt
        simp [hlt]
    · have hold := hs.behind q hq hb
      simpa [update_of_ne (hfresh q hq)] using ⟨.inl hold.1, hold.2⟩
  · intro hon q hq hc
    have hon : s.largeActive = true := hon
    rcases (hmem q).mp hq with rfl | hq
    · have hc : s.cursor ≤ start := hc
      simp [hon, hc]
    · have hne : q ≠ (start, n) := fun heq => hfresh q hq (congrArg Prod.fst heq)
      simpa [update_of_ne (hfresh q hq), hne] using hs.ahead hon q hq hc

theorem Valid.allocate (hv : Valid 0 0 s) (payload : UInt32) : Valid 0 0 (allocate g s payload).1 ∧
      ∀ live, Sweeping live s → Sweeping (fun q => live q ∨ q ∈ (allocate g s payload).2.toList)
          (allocate g s payload).1 := by
  have hpages := pagesFor_pos payload
  obtain ⟨⟨t, found⟩, ⟨hsweep, htaken⟩, heq⟩ := hv.largeAllocate (g := g) hpages
  unfold Large.allocate
  rw [heq]
  cases found with
  | none =>
    refine ⟨htaken, ?_⟩
    intro live hs
    simpa using hsweep live hs
  | some start =>
    have htaken : Valid start (pagesFor (kHeaderBytes + payload.toNat)) t := htaken
    have hvalid := htaken.placeObject
      ⟨payload, t.largeActive && decide (t.cursor ≤ start)⟩ hpages rfl
    have hplaced := fun live hs => (hsweep live hs).place payload htaken hpages
    dsimp only
    rw [placeObject_eq] at hvalid hplaced ⊢
    rw [noteLargeAllocated_eq]
    refine ⟨hvalid, ?_⟩
    intro live hs
    simpa using hplaced live hs

end Allocation

/-! ## Whole runs -/

theorem Valid.begin {s t : LargeSpace} (hv : Valid 0 0 s) (h : beginSweep s = some t) :
    Valid 0 0 t ∧ Sweeping (fun r => r ∈ s.objects ∧ (s.header r.1).marked = true) t := by
  unfold beginSweep at h
  split at h
  · simp at h
  · obtain rfl := Option.some.inj h
    refine ⟨hv.setWalk 0 (fun _ => rfl), ?_⟩
    refine { kept := fun r hr => hr.1, behind := ?_, ahead := ?_ }
    · rintro r hr (hoff | hlt)
      · have hin := hv.objIn r hr
        have hoff : s.frontier = 0 := by simpa using hoff
        omega
      · simp at hlt
    · intro _ r hr _
      exact ⟨fun hmark => ⟨hr, hmark⟩, fun hmark => hmark.2⟩

theorem Valid.walked_sweepSlice {s : LargeSpace} (hv : Valid 0 0 s) (g : Setting) (n : Nat)
    (rest : Bool) : Walked s (sweepSlice g s n rest) := by
  unfold sweepSlice
  split
  · obtain ⟨hwalked, _⟩ := Valid.walked_sweepSteps (g := g) n hv
    dsimp only
    split
    · rename_i hdone
      have hoff : (sweepSteps g n s).largeActive = false := by
        simp only [Bool.and_eq_true, Bool.not_eq_true'] at hdone
        exact hdone.1
      refine ⟨hwalked.valid.setWalk _ (by simp [hoff]), hwalked.frontier, ?_⟩
      intro live hs
      have hs' := hwalked.sweeping live hs
      exact ⟨hs'.kept, hs'.behind, hs'.ahead⟩
    · exact hwalked
  · exact Walked.refl hv

/-- The operations that may come between a cycle's finish and the next cycle's start. -/
def Op.duringSweep : Op → Bool
  | .allocate _ _ | .slice _ _ _ | .completeSweep _ => true
  | .mark _ | .beginSweep => false

theorem Valid.step {s t : LargeSpace} {op : Op} {runs : List Run} (hv : Valid 0 0 s)
    (h : step s op = some (t, runs)) : Valid 0 0 t := by
  cases op with
  | allocate g payload =>
    obtain ⟨rfl, rfl⟩ := Prod.mk.inj (Option.some.inj h)
    exact (hv.allocate payload).1
  | mark head =>
    unfold Large.step at h
    dsimp only at h
    split at h
    · obtain ⟨rfl, rfl⟩ := Prod.mk.inj (Option.some.inj h)
      refine { hv with sized := ?_ }
      intro q hq
      by_cases hqr : q.1 = head
      · simpa [hqr] using hv.sized q hq
      · simpa [update_of_ne hqr] using hv.sized q hq
    · simp at h
  | beginSweep =>
    obtain ⟨u, hu, heq⟩ := Option.map_eq_some_iff.mp h
    obtain ⟨rfl, rfl⟩ := Prod.mk.inj heq
    exact (hv.begin hu).1
  | slice g steps rest =>
    obtain ⟨rfl, rfl⟩ := Prod.mk.inj (Option.some.inj h)
    exact (hv.walked_sweepSlice g steps rest).valid
  | completeSweep g =>
    obtain ⟨rfl, rfl⟩ := Prod.mk.inj (Option.some.inj h)
    exact (hv.walked_completeSweep (g := g)).1.valid

theorem Valid.run {ops : List Op} : ∀ {s t : LargeSpace} {runs : List Run}, Valid 0 0 s →
    run s ops = some (t, runs) → Valid 0 0 t := by
  induction ops with
  | nil =>
    intro s t runs hv h
    obtain ⟨rfl, rfl⟩ := Prod.mk.inj (Option.some.inj h)
    exact hv
  | cons op ops ih =>
    intro s t runs hv h
    obtain ⟨⟨u, more⟩, hstep, hrest⟩ := Option.bind_eq_some_iff.mp h
    obtain ⟨⟨w, rest⟩, hrun, heq⟩ := Option.map_eq_some_iff.mp hrest
    obtain ⟨rfl, rfl⟩ := Prod.mk.inj heq
    exact ih (hv.step hstep) hrun

theorem Sweeping.step {live : Run → Prop} {s t : LargeSpace} {op : Op} {runs : List Run}
    (hs : Sweeping live s) (hv : Valid 0 0 s) (hop : op.duringSweep = true)
    (h : step s op = some (t, runs)) : Sweeping (fun r => live r ∨ r ∈ runs) t := by
  cases op with
  | allocate g payload =>
    obtain ⟨rfl, rfl⟩ := Prod.mk.inj (Option.some.inj h)
    exact (hv.allocate payload).2 live hs
  | mark head => simp [Op.duringSweep] at hop
  | beginSweep => simp [Op.duringSweep] at hop
  | slice g steps rest =>
    obtain ⟨rfl, rfl⟩ := Prod.mk.inj (Option.some.inj h)
    simpa using (hv.walked_sweepSlice g steps rest).sweeping live hs
  | completeSweep g =>
    obtain ⟨rfl, rfl⟩ := Prod.mk.inj (Option.some.inj h)
    simpa using (hv.walked_completeSweep (g := g)).1.sweeping live hs

theorem Sweeping.run {ops : List Op} : ∀ {live : Run → Prop} {s t : LargeSpace}
    {runs : List Run}, Sweeping live s → Valid 0 0 s → (∀ op ∈ ops, op.duringSweep = true) →
    run s ops = some (t, runs) → Sweeping (fun r => live r ∨ r ∈ runs) t := by
  induction ops with
  | nil =>
    intro live s t runs hs _ _ h
    obtain ⟨rfl, rfl⟩ := Prod.mk.inj (Option.some.inj h)
    simpa using hs
  | cons op ops ih =>
    intro live s t runs hs hv hops h
    obtain ⟨⟨u, more⟩, hstep, hrest⟩ := Option.bind_eq_some_iff.mp h
    obtain ⟨⟨w, rest⟩, hrun, heq⟩ := Option.map_eq_some_iff.mp hrest
    obtain ⟨rfl, rfl⟩ := Prod.mk.inj heq
    have hnext := hs.step hv (hops op List.mem_cons_self) hstep
    have hfinal := ih hnext (hv.step hstep) (fun o ho => hops o (List.mem_cons_of_mem _ ho)) hrun
    simpa [or_assoc] using hfinal

structure WellFormed (s : LargeSpace) : Prop where
  /-- The runs cover exactly the pages below the frontier. -/
  covers : ∀ p, p < s.frontier ↔ ∃ r ∈ s.objects ++ s.freeRuns, Covers r p
  /-- No page is in two runs. -/
  disjoint : ∀ r ∈ s.objects ++ s.freeRuns, ∀ q ∈ s.objects ++ s.freeRuns, ∀ p,
    Covers r p → Covers q p → r = q
  /-- No run is listed twice. -/
  nodup : (s.objects ++ s.freeRuns).Nodup
  nonempty : ∀ r ∈ s.objects ++ s.freeRuns, 0 < r.2
  /-- No two free runs are adjacent. -/
  maximal : ∀ r ∈ s.freeRuns, ∀ q ∈ s.freeRuns, r.1 + r.2 ≠ q.1
  pageHead : ∀ p < s.frontier, ∀ head,
    s.pageHead p = head + 1 ↔ ∃ r ∈ s.objects, Covers r p ∧ r.1 = head
  headOf : ∀ p head, largeHeadOf s p = some head ↔ ∃ r ∈ s.objects, Covers r p ∧ r.1 = head
  usedBytes : s.usedBytes = ((s.objects.map Prod.snd).sum * kPageBytes : Nat)
  retainedBytes : s.retainedBytes = ((retainedPages s).card * kPageBytes : Nat)

theorem Valid.pageHead_eq {s : LargeSpace} (hv : Valid 0 0 s) (p head : Nat) :
    s.pageHead p = head + 1 ↔ ∃ r ∈ s.objects, Covers r p ∧ r.1 = head := by
  constructor
  · intro hp
    obtain ⟨r, hr, hc, hhead⟩ := hv.obj_of_head (p := p) (by omega)
    exact ⟨r, hr, hc, by omega⟩
  · rintro ⟨r, hr, hc, rfl⟩
    exact hv.objHead r hr p hc

theorem Valid.wellFormed {s : LargeSpace} (hv : Valid 0 0 s) : WellFormed s where
  covers p := by
    constructor
    · intro hp
      rcases hv.cover p hp with ⟨r, hr, hc⟩ | ⟨r, hr, hc⟩ | hc
      · exact ⟨r, List.mem_append_left _ hr, hc⟩
      · exact ⟨r, List.mem_append_right _ hr, hc⟩
      · exact absurd hc (not_covers_zero p)
    · rintro ⟨r, hr, hc⟩
      have hle : r.1 + r.2 ≤ s.frontier :=
        (List.mem_append.mp hr).elim (fun h => (hv.objIn r h).2) (fun h => (hv.freeIn r h).2)
      exact Nat.lt_of_lt_of_le hc.2 hle
  disjoint r hr q hq p hrp hqp := by
    rcases List.mem_append.mp hr with hr | hr <;> rcases List.mem_append.mp hq with hq | hq
    · exact hv.obj_unique hr hq hrp hqp
    · exact absurd hqp (hv.obj_not_free hr hq hrp)
    · exact absurd hrp (hv.obj_not_free hq hr hqp)
    · exact hv.free_unique hr hq hrp hqp
  nodup := by
    refine List.nodup_append.mpr ⟨hv.objSorted.nodup, hv.freeSorted.nodup, ?_⟩
    intro r hr q hq heq
    subst heq
    have hpos := (hv.objIn r hr).1
    have hc : Covers r r.1 := ⟨le_refl _, by omega⟩
    exact hv.obj_not_free hr hq hc hc
  nonempty r hr :=
    (List.mem_append.mp hr).elim (fun h => (hv.objIn r h).1) (fun h => (hv.freeIn r h).1)
  maximal r hr q hq heq := by
    have hpos := (hv.freeIn r hr).1
    by_cases hrq : r = q
    · subst hrq
      omega
    · have hqpos := (hv.freeIn q hq).1
      have hapart := hv.apart r hr q hq hrq
      omega
  pageHead p _ head := hv.pageHead_eq p head
  headOf p head := by
    rw [← hv.pageHead_eq]
    unfold largeHeadOf
    by_cases hbeyond : s.frontier ≤ p
    · have hzero := hv.beyond p hbeyond
      simp [hbeyond, hzero]
    · by_cases hzero : s.pageHead p = 0
      · simp [hbeyond, hzero]
      · simp only [hbeyond, if_false, hzero, Option.some.injEq]
        omega
  usedBytes := hv.used
  retainedBytes := hv.retained

/-- The runs that a sweep keeps: those marked when it began. -/
def keptAt (s : LargeSpace) (r : Run) : Prop := r ∈ s.objects ∧ (s.header r.1).marked = true

/-- After every run the tables partition the pages, with exact byte counts. From any such
state, a sweep that begins there loses neither a marked run nor one allocated since, and
once its walk has ended, which `completeSweep` makes it do, just these are left, all
unmarked. -/
theorem run_partition_sweep {ops : List Op} {s : LargeSpace} {runs : List Run}
    (h : run .empty ops = some (s, runs)) :
    WellFormed s ∧
    ∀ (during : List Op) (t : LargeSpace) (allocated : List Run),
      (∀ op ∈ during, op.duringSweep = true) →
      run s (.beginSweep :: during) = some (t, allocated) →
      (∀ r, keptAt s r ∨ r ∈ allocated → r ∈ t.objects) ∧
      (t.largeActive = false →
        ∀ r ∈ t.objects, (keptAt s r ∨ r ∈ allocated) ∧ (t.header r.1).marked = false) ∧
      ∀ g, (completeSweep g t).largeActive = false := by
  have hv := valid_empty.run h
  refine ⟨hv.wellFormed, ?_⟩
  intro during t allocated hduring hrun
  have hvt := hv.run hrun
  obtain ⟨⟨u, none⟩, hbegin, hrest⟩ := Option.bind_eq_some_iff.mp hrun
  obtain ⟨⟨w, rest⟩, hafter, heq⟩ := Option.map_eq_some_iff.mp hrest
  obtain ⟨u', hu, hnone⟩ := Option.map_eq_some_iff.mp hbegin
  obtain ⟨rfl, rfl⟩ := Prod.mk.inj hnone
  obtain ⟨rfl, rfl⟩ := Prod.mk.inj heq
  obtain ⟨hvu, hsu⟩ := hv.begin hu
  have hsweep := hsu.run hvu hduring hafter
  refine ⟨hsweep.kept, ?_, ?_⟩
  · intro hoff r hr
    exact hsweep.behind r hr (.inl hoff)
  · intro g
    exact (hvt.walked_completeSweep (g := g)).2.1

def sampleSetting : Setting := ⟨64 * kPageBytes, 0, 0, false, false⟩

/-- Three objects, of which the second is marked, and a sweep that frees the first and is
then stopped while an object takes its place. -/
def sampleBefore : List Op :=
  [.allocate sampleSetting 10000, .allocate sampleSetting 9000, .allocate sampleSetting 20000,
    .mark 3]

def sampleDuring : List Op :=
  [.slice sampleSetting 1 false, .allocate sampleSetting 8188, .completeSweep sampleSetting]

theorem run_partition_sweep_sample : ∃ s runs t allocated,
    run .empty sampleBefore = some (s, runs) ∧
    run s (.beginSweep :: sampleDuring) = some (t, allocated) ∧
    WellFormed s ∧ (∀ r, keptAt s r ∨ r ∈ allocated → r ∈ t.objects) ∧
    t.largeActive = false ∧ t.objects = [(0, 3), (3, 3)] ∧ t.freeRuns = [(6, 5)] := by
  refine ⟨_, _, _, _, rfl, rfl, (@run_partition_sweep sampleBefore _ _ rfl).1, ?_, rfl, rfl, rfl⟩
  exact ((@run_partition_sweep sampleBefore _ _ rfl).2 sampleDuring _ _ (by decide) rfl).1

end Brass.Gc.Large
