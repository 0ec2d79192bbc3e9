import Brass.Codegen.AllocPiece

/-!
# What the queries about pieces answer

For well-formed data (`WellFormed`: separated segments, sorted tables, pools of the right
class) and pieces whose window agrees with their life in it (`Windowed`):

* the segments of a piece are those of its interval that meet the window, clamped to it
  (`mem_clamped`);
* `firstIntersection` is at most the place where two pieces live on together
  (`firstIntersection_le`), so pieces without one are apart, and a piece cut there is apart
  from the other (`apart_of_never`, `apart_of_stop_le`);
* a position to split at does not lie behind the range it was asked for
  (`splitPosition_le`).
-/

namespace Brass.Codegen

open Brass.Util List

/-! ## Sorted segments -/

section Segments

variable {segs xs ys : List LiveRangeSegment} {a b : LiveRangeSegment}

theorem Separated.sorted (h : Separated segs) :
    segs.Pairwise (fun a b => a.start ≤ b.start ∧ a.stop ≤ b.stop) := by
  refine h.apart.imp_of_mem (fun {a b} ha hb hab => ?_)
  have := h.proper a ha
  have := h.proper b hb
  omega

theorem mem_dropWhile_iff {α : Type} {p : α → Bool} {v : List α}
    (hmono : v.Pairwise (fun a b => p b = true → p a = true)) {x : α} :
    x ∈ v.dropWhile p ↔ x ∈ v ∧ ¬ p x = true := by
  constructor
  · intro hx
    exact ⟨(dropWhile_sublist p).subset hx, not_of_mem_dropWhile hmono hx⟩
  · rintro ⟨hx, hpx⟩
    rw [← takeWhile_append_dropWhile (p := p) (l := v)] at hx
    rcases mem_append.mp hx with hx | hx
    · exact absurd (mem_takeWhile_imp hx) hpx
    · exact hx

theorem meetFrom_le {fuel : Nat} (hxs : Separated xs) (hys : Separated ys)
    (hfuel : xs.length + ys.length ≤ fuel) (ha : a ∈ xs) (hb : b ∈ ys)
    (h₁ : a.start < b.stop) (h₂ : b.start < a.stop) :
    ScanData.meetFrom fuel xs ys ≤ max a.start b.start := by
  induction fuel generalizing xs ys with
  | zero =>
    have := length_pos_of_mem ha
    omega
  | succ fuel ih =>
    cases xs with
    | nil => cases ha
    | cons x xs =>
    cases ys with
    | nil => cases hb
    | cons y ys =>
    obtain ⟨hx, hxa, hxs'⟩ := separated_cons.mp hxs
    obtain ⟨hy, hya, hys'⟩ := separated_cons.mp hys
    have hax : a = x ∨ a ∈ xs ∧ x.stop + 1 < a.start :=
      (mem_cons.mp ha).imp id (fun h => ⟨h, hxa a h⟩)
    have hby : b = y ∨ b ∈ ys ∧ y.stop + 1 < b.start :=
      (mem_cons.mp hb).imp id (fun h => ⟨h, hya b h⟩)
    simp only [length_cons] at hfuel
    rw [ScanData.meetFrom]
    split
    · -- the heads overlap, and every other segment starts later
      have hstart : x.start ≤ a.start := by
        rcases hax with rfl | ⟨-, hlt⟩
        · exact Nat.le_refl _
        · omega
      have hstart' : y.start ≤ b.start := by
        rcases hby with rfl | ⟨-, hlt⟩
        · exact Nat.le_refl _
        · omega
      omega
    · rename_i hno
      split
      · -- `x` ends first: it is not `a`, whose overlap starts later
        rename_i hlt
        rcases hax with rfl | ⟨ha', -⟩
        · rcases hby with rfl | ⟨-, hlt'⟩
          · exact absurd ⟨h₁, h₂⟩ hno
          · omega
        · exact ih hxs' hys (by simp only [length_cons]; omega) ha' hb
      · rename_i hle
        rcases hby with rfl | ⟨hb', -⟩
        · rcases hax with rfl | ⟨-, hlt'⟩
          · exact absurd ⟨h₁, h₂⟩ hno
          · omega
        · exact ih hxs hys' (by simp only [length_cons]; omega) ha hb'

end Segments

/-! ## Well-formed data -/

namespace ScanData

/-- No life ends at position 0: no instruction reads a register that was never written. -/
structure WellFormed (d : ScanData) : Prop where
  separated : ∀ iv ∈ d.intervals, Separated iv.segments
  ends : ∀ iv ∈ d.intervals, ∀ seg ∈ iv.segments, 0 < seg.stop ∧ seg.stop < kNever
  ids : ∀ cls, (d.constraints cls).Pairwise (fun a b => a.1 < b.1)
  pool : ∀ cls, ∀ r ∈ d.available cls, r.regClass = cls ∧ r.code < 32
  spans : d.spans.Pairwise (fun a b => a.start < b.start)
  windows : d.noSplitWindows.Pairwise (fun a b => a.1 ≤ b.1)

variable {d : ScanData}

namespace WellFormed

variable (wf : d.WellFormed)

include wf

theorem interval_separated (v : Nat) : Separated (d.interval v).segments := by
  unfold interval
  rw [getD_eq_getElem?_getD]
  cases h : d.intervals[v]? with
  | none => exact separated_nil
  | some iv => exact wf.separated iv (mem_of_getElem? h)

theorem interval_ends {v : Nat} {seg : LiveRangeSegment} (h : seg ∈ (d.interval v).segments) :
    0 < seg.stop ∧ seg.stop < kNever := by
  unfold interval at h
  rw [getD_eq_getElem?_getD] at h
  cases hv : d.intervals[v]? with
  | none => simp [hv] at h
  | some iv =>
    rw [hv] at h
    exact wf.ends iv (mem_of_getElem? hv) seg h

end WellFormed

/-! ## Windows -/

/-- A piece's window is not empty, and the piece starts and stops in it with its first and its
last live position there. -/
structure Windowed (d : ScanData) (p : AllocPiece) : Prop where
  proper : p.fromPos < p.toPos
  from_le : p.fromPos ≤ p.start
  le_to : p.stop ≤ p.toPos
  start_le : ∀ c ∈ d.clamped p, p.start ≤ c.start
  le_stop : ∀ c ∈ d.clamped p, c.stop ≤ p.stop

variable {p q : AllocPiece} {c : LiveRangeSegment}

/-- A piece has the segments of its interval that meet its window. -/
theorem mem_clamped (wf : d.WellFormed) : c ∈ d.clamped p ↔
    ∃ seg ∈ (d.interval p.base).segments, p.fromPos ≤ seg.stop ∧ seg.start ≤ p.toPos ∧
      c = ⟨max seg.start p.fromPos, min seg.stop p.toPos⟩ := by
  have hsorted := (wf.interval_separated p.base).sorted
  have hdrop := hsorted.imp (S := fun a b =>
    decide (b.stop < p.fromPos) = true → decide (a.stop < p.fromPos) = true)
    (fun {a b} h hb => by simp only [decide_eq_true_eq] at hb ⊢; omega)
  have htake := (hsorted.sublist (dropWhile_sublist
    (fun s => decide (s.stop < p.fromPos)))).imp (S := fun a b =>
      decide (b.start ≤ p.toPos) = true → decide (a.start ≤ p.toPos) = true)
    (fun {a b} h hb => by simp only [decide_eq_true_eq] at hb ⊢; omega)
  unfold clamped
  dsimp only
  rw [drop_partitionPoint hdrop, mem_map]
  constructor
  · rintro ⟨seg, hseg, rfl⟩
    obtain ⟨hseg, hto⟩ := (mem_takeWhile_iff htake).mp hseg
    obtain ⟨hseg, hfrom⟩ := (mem_dropWhile_iff hdrop).mp hseg
    simp only [decide_eq_true_eq] at hfrom hto
    exact ⟨seg, hseg, by omega, hto, rfl⟩
  · rintro ⟨seg, hseg, hfrom, hto, rfl⟩
    refine ⟨seg, (mem_takeWhile_iff htake).mpr ⟨(mem_dropWhile_iff hdrop).mpr ⟨hseg, ?_⟩, ?_⟩, rfl⟩
    · simp only [decide_eq_true_eq]; omega
    · simpa using hto

theorem clamped_separated (wf : d.WellFormed) (hp : p.fromPos ≤ p.toPos) :
    Separated (d.clamped p) := by
  have hseg := wf.interval_separated p.base
  refine ⟨fun c hc => ?_, ?_⟩
  · obtain ⟨seg, hmem, hfrom, hto, rfl⟩ := (mem_clamped wf).mp hc
    have := hseg.proper seg hmem
    show max _ _ ≤ min _ _
    omega
  · unfold clamped
    refine pairwise_map.mpr ?_
    refine (hseg.apart.sublist ((takeWhile_sublist _).trans (drop_sublist _ _))).imp ?_
    intro a b hab
    show min _ _ + 1 < max _ _
    omega

theorem clamped_stop_lt (wf : d.WellFormed) (hc : c ∈ d.clamped p) : c.stop < kNever := by
  obtain ⟨seg, hmem, -, -, rfl⟩ := (mem_clamped wf).mp hc
  have := (wf.interval_ends hmem).2
  show min _ _ < _
  omega

theorem clamped_stop_pos (wf : d.WellFormed) (hp : d.Windowed p) (hc : c ∈ d.clamped p) :
    0 < c.stop := by
  obtain ⟨seg, hmem, -, -, rfl⟩ := (mem_clamped wf).mp hc
  have := (wf.interval_ends hmem).1
  have := hp.proper
  show 0 < min _ _
  omega

theorem le_lastLive (wf : d.WellFormed) (hc : c ∈ d.clamped p) :
    c.stop ≤ lastLive (d.interval p.base).segments p.toPos := by
  obtain ⟨seg, hmem, -, hto, rfl⟩ := (mem_clamped wf).mp hc
  have hsorted := (wf.interval_separated p.base).sorted
  have hmono := hsorted.imp (S := fun a b =>
    decide (¬ p.toPos < b.start) = true → decide (¬ p.toPos < a.start) = true)
    (fun {a b} h hb => by simp only [decide_eq_true_eq] at hb ⊢; omega)
  have hin : seg ∈ (d.interval p.base).segments.takeWhile (fun s => decide (¬ p.toPos < s.start)) :=
    (mem_takeWhile_iff hmono).mpr ⟨hmem, by simpa using hto⟩
  unfold lastLive
  rw [take_partitionPoint hmono]
  split
  · rename_i hnone
    rw [getLast?_eq_none_iff.mp hnone] at hin
    cases hin
  · rename_i last hlast
    have hle : seg.stop ≤ last.stop := by
      obtain ⟨init, hinit⟩ := getLast?_eq_some_iff.mp hlast
      have hpw := (hsorted.sublist (takeWhile_sublist (fun s => decide (¬ p.toPos < s.start))))
      rw [hinit] at hin hpw
      rcases mem_append.mp hin with hin | hin
      · exact ((pairwise_append.mp hpw).2.2 seg hin last (by simp)).2
      · rw [mem_singleton.mp hin]
    show min _ _ ≤ min _ _
    omega

theorem lastLive_le (segs : List LiveRangeSegment) (toPos : Nat) : lastLive segs toPos ≤ toPos := by
  unfold lastLive
  split
  · exact Nat.le_refl _
  · exact Nat.min_le_right _ _

theorem newPiece_windowed (wf : d.WellFormed) {base lo hi seq : Nat} (h : lo < hi) :
    d.Windowed (d.newPiece base lo hi seq) where
  proper := h
  from_le := by
    show lo ≤ (d.newPiece base lo hi seq).start
    unfold newPiece
    dsimp only
    split <;> omega
  le_to := lastLive_le _ _
  start_le := by
    intro c hc
    obtain ⟨seg, hmem, hfrom, -, rfl⟩ := (mem_clamped wf).mp hc
    change seg ∈ (d.interval base).segments at hmem
    change lo ≤ seg.stop at hfrom
    have hsorted := (wf.interval_separated base).sorted
    have hmono := hsorted.imp (S := fun a b =>
      decide (b.stop < lo) = true → decide (a.stop < lo) = true)
      (fun {a b} h hb => by simp only [decide_eq_true_eq] at hb ⊢; omega)
    show (d.newPiece base lo hi seq).start ≤ max seg.start lo
    unfold newPiece
    dsimp only
    split
    · exact Nat.le_max_right _ _
    · -- the first segment that reaches into the window starts first of those that do
      rename_i first hfirst
      have hin : seg ∈ (d.interval base).segments.dropWhile (fun s => decide (s.stop < lo)) :=
        (mem_dropWhile_iff hmono).mpr ⟨hmem, by simp only [decide_eq_true_eq]; omega⟩
      have hhead : ((d.interval base).segments.dropWhile
          (fun s => decide (s.stop < lo))).head? = some first := by
        rw [← drop_partitionPoint hmono, head?_drop]
        exact hfirst
      have hpw := hsorted.sublist (dropWhile_sublist (fun s => decide (s.stop < lo)))
      obtain ⟨rest, hrest⟩ := head?_eq_some_iff.mp hhead
      rw [hrest] at hin hpw
      have hle : first.start ≤ seg.start := by
        rcases mem_cons.mp hin with rfl | hin
        · exact Nat.le_refl _
        · exact ((pairwise_cons.mp hpw).1 seg hin).1
      omega
  le_stop := fun c hc => le_lastLive wf hc

/-! ## Narrower windows -/

/-- `p` is a piece of the same register as `q`, with a window inside the window of `q`. -/
structure Narrower (p q : AllocPiece) : Prop where
  base : p.base = q.base
  from_le : q.fromPos ≤ p.fromPos
  to_le : p.toPos ≤ q.toPos

theorem Narrower.refl (p : AllocPiece) : Narrower p p := ⟨rfl, Nat.le_refl _, Nat.le_refl _⟩

theorem Narrower.trans {p q r : AllocPiece} (h : Narrower p q) (h' : Narrower q r) : Narrower p r :=
  ⟨h.base.trans h'.base, h'.from_le.trans h.from_le, h.to_le.trans h'.to_le⟩

theorem Narrower.clamped (wf : d.WellFormed) (h : Narrower p q) (hc : c ∈ d.clamped p) :
    ∃ c' ∈ d.clamped q, c'.start ≤ c.start ∧ c.stop ≤ c'.stop := by
  obtain ⟨seg, hmem, hfrom, hto, rfl⟩ := (mem_clamped wf).mp hc
  rw [h.base] at hmem
  have h₁ := h.from_le
  have h₂ := h.to_le
  refine ⟨_, (mem_clamped wf).mpr ⟨seg, hmem, by omega, by omega, rfl⟩, ?_, ?_⟩
  · show max _ _ ≤ max _ _
    omega
  · show min _ _ ≤ min _ _
    omega

theorem Windowed.upTo (wf : d.WellFormed) (h : d.Windowed p) {k : Nat} (h₁ : p.start < k)
    (h₂ : k < p.stop) :
    d.Windowed { p with toPos := k, stop := lastLive (d.interval p.base).segments k } where
  proper := Nat.lt_of_le_of_lt h.from_le h₁
  from_le := h.from_le
  le_to := lastLive_le _ _
  start_le := by
    intro c hc
    have hto := h.le_to
    have hnarrow : Narrower
        { p with toPos := k, stop := lastLive (d.interval p.base).segments k } p :=
      ⟨rfl, Nat.le_refl _, by show k ≤ p.toPos; omega⟩
    obtain ⟨c', hc', hstart, -⟩ := hnarrow.clamped wf hc
    exact (h.start_le c' hc').trans hstart
  le_stop := fun c hc => le_lastLive wf hc

/-! ## Pieces apart -/

/-- The piece is live from position `x` to the next one. -/
def LivesOn (d : ScanData) (p : AllocPiece) (x : Nat) : Prop :=
  ∃ c ∈ d.clamped p, c.start ≤ x ∧ x < c.stop

/-- The pieces never live on together. One may end where the other starts: an instruction
reads one value and writes the other to the register. -/
def Apart (d : ScanData) (p q : AllocPiece) : Prop := ∀ x, d.LivesOn p x → ¬ d.LivesOn q x

theorem LivesOn.bounds {x : Nat} (hp : d.Windowed p) (h : d.LivesOn p x) :
    p.start ≤ x ∧ x < p.stop := by
  obtain ⟨c, hc, h₁, h₂⟩ := h
  exact ⟨(hp.start_le c hc).trans h₁, Nat.lt_of_lt_of_le h₂ (hp.le_stop c hc)⟩

theorem LivesOn.lt_kNever {x : Nat} (wf : d.WellFormed) (h : d.LivesOn p x) : x < kNever := by
  obtain ⟨c, hc, h₁, h₂⟩ := h
  exact Nat.lt_trans h₂ (clamped_stop_lt wf hc)

theorem LivesOn.mono {x : Nat} (wf : d.WellFormed) (hn : Narrower p q) (h : d.LivesOn p x) :
    d.LivesOn q x := by
  obtain ⟨c, hc, h₁, h₂⟩ := h
  obtain ⟨c', hc', h₃, h₄⟩ := hn.clamped wf hc
  exact ⟨c', hc', h₃.trans h₁, Nat.lt_of_lt_of_le h₂ h₄⟩

theorem Apart.symm (h : d.Apart p q) : d.Apart q p := fun x hq hp => h x hp hq

theorem Apart.mono (wf : d.WellFormed) {p' q' : AllocPiece} (hp : Narrower p' p) (hq : Narrower q' q)
    (h : d.Apart p q) : d.Apart p' q' :=
  fun x hx hx' => h x (hx.mono wf hp) (hx'.mono wf hq)

theorem apart_of_le (hp : d.Windowed p) (hq : d.Windowed q) (h : p.stop ≤ q.start) : d.Apart p q := by
  intro x hx hx'
  have h₁ := (hx.bounds hp).2
  have h₂ := (hx'.bounds hq).1
  omega

section

variable (wf : d.WellFormed) (hp : d.Windowed p) (hq : d.Windowed q)
include wf hp hq

theorem firstIntersection_le {x : Nat}
    (hx : d.LivesOn p x) (hx' : d.LivesOn q x) : d.firstIntersection p q ≤ x := by
  have h₁ := hx.bounds hp
  have h₂ := hx'.bounds hq
  obtain ⟨a, ha, ha₁, ha₂⟩ := hx
  obtain ⟨b, hb, hb₁, hb₂⟩ := hx'
  unfold firstIntersection
  rw [if_neg (by omega)]
  have hle := meetFrom_le (clamped_separated wf (Nat.le_of_lt hp.proper))
    (clamped_separated wf (Nat.le_of_lt hq.proper)) (Nat.le_refl _) ha hb (by omega) (by omega)
  omega

theorem apart_of_never (h : d.firstIntersection p q = kNever) : d.Apart p q := by
  intro x hx hx'
  have hle := firstIntersection_le wf hp hq hx hx'
  have hlt := hx.lt_kNever wf
  omega

/-- A piece that stops where the first intersection of a wider one with another is, or before,
is apart from the other. -/
theorem apart_of_stop_le {q' : AllocPiece} (hq' : d.Windowed q') (hn : Narrower q' q)
    (h : q'.stop ≤ d.firstIntersection p q) : d.Apart p q' := by
  intro x hx hx'
  have hle := firstIntersection_le wf hp hq hx (hx'.mono wf hn)
  have hlt := (hx'.bounds hq').2
  omega

end

/-! ## Split positions -/

theorem betterSpan_eq (a b : Nat) : d.betterSpan a b = a ∨ d.betterSpan a b = b := by
  unfold betterSpan
  dsimp only
  split_ifs
  · exact Or.inl rfl
  · exact Or.inr rfl
  · omega

theorem shallowest_le (wf : d.WellFormed) (lo hi : Nat) : d.shallowest lo hi ≤ hi := by
  unfold shallowest
  dsimp only
  split
  · rename_i hlt
    split
    · exact Nat.le_refl _
    · rename_i s hs
      split
      · have hmono := wf.spans.imp (S := fun a b =>
          decide (¬ hi + 1 < b.start) = true → decide (¬ hi + 1 < a.start) = true)
          (fun {a b} h hb => by simp only [decide_eq_true_eq] at hb ⊢; omega)
        obtain ⟨j, -, hj, hq⟩ := @sparseQuery_mem _ _ id betterSpan_eq _ _ hlt
        rw [hq] at hs
        rw [partitionPoint_eq_takeWhile hmono] at hj
        have hle := (partitionedAt_takeWhile hmono j s hs).mpr hj
        simp only [decide_eq_true_eq] at hle
        omega
      · exact Nat.le_refl _
  · exact Nat.le_refl _

theorem outsideWindow_le (wf : d.WellFormed) {lo best : Nat} (h : d.outsideWindow lo best ≠ kNever) :
    d.outsideWindow lo best ≤ best := by
  have hmono := wf.windows.imp (S := fun a b =>
    decide (¬ best < b.1) = true → decide (¬ best < a.1) = true)
    (fun {a b} h hb => by simp only [decide_eq_true_eq] at hb ⊢; omega)
  unfold outsideWindow at h ⊢
  rw [take_partitionPoint hmono] at h ⊢
  split at h
  · exact Nat.le_refl _
  · rename_i w hw
    have hle := mem_takeWhile_imp (mem_of_getLast? hw)
    simp only [decide_eq_true_eq] at hle
    split_ifs at h ⊢ with h₁ h₂
    · omega
    · exact absurd rfl h
    · exact Nat.le_refl _

theorem splitPosition_le (wf : d.WellFormed) {lo hi : Nat} (h : d.splitPosition lo hi ≠ kNever) :
    d.splitPosition lo hi ≤ hi := by
  unfold splitPosition at h ⊢
  dsimp only at h ⊢
  split_ifs at h ⊢ with h₁ h₂ h₃ h₄ h₅ h₆ <;> first
    | exact absurd rfl h
    | exact (outsideWindow_le wf h).trans ((shallowest_le wf _ _).trans (by omega))

end ScanData

end Brass.Codegen
