import Brass.Codegen.LinearScan
import Brass.Codegen.RegisterLimits

/-!
# The invariant of the linear scan

At position `pos` (`Inv`): pieces that hold the same register are apart, no instruction in a
piece blocks the register it holds, and a piece that holds a register is active or stops at
`pos` at the latest. So a piece that starts at `pos` has only the active ones to avoid. While
a piece is placed over others that have still to give its register up, the invariant leaves
that piece out (`ex`).

Taking registers away never breaks it: splits, spills and evictions are steps of `Yields`,
under which windows narrow and pieces lose their registers (`Inv.yields`).
-/

namespace Brass.Codegen

open ScanState List Option

namespace ScanData

variable {d : ScanData} {s t u : ScanState} {i j k q pos : Nat} {r : PReg}

/-! ## Pieces of a state -/

theorem inRegister_lt (h : (s.piece k).inRegister = true) : k < s.pieces.length := by
  by_contra hk
  rw [piece, getD_eq_getElem?_getD, getElem?_eq_none (Nat.le_of_not_lt hk)] at h
  exact absurd h (by decide)

theorem not_inRegister_of_le (h : s.pieces.length ≤ k) : (s.piece k).inRegister = false := by
  by_contra hk
  exact absurd (inRegister_lt (by simpa using hk)) (Nat.not_lt.mpr h)

theorem piece_setPiece (f : AllocPiece → AllocPiece) (k : Nat) : (s.setPiece i f).piece k =
      if i = k ∧ k < s.pieces.length then f (s.piece k) else s.piece k := by
  simp only [piece, setPiece, getD_eq_getElem?_getD, getElem?_modify]
  by_cases hk : k < s.pieces.length
  · by_cases hi : i = k
    · simp [hi, hk]
    · simp [hi]
  · simp [hk]

@[simp] theorem length_setPiece (f : AllocPiece → AllocPiece) :
    (s.setPiece i f).pieces.length = s.pieces.length := by
  simp [setPiece]

theorem piece_spill : (s.spill i).piece k =
    if i = k ∧ k < s.pieces.length then { s.piece k with spilled := true, reg := {} }
    else s.piece k :=
  piece_setPiece _ k

theorem piece_assign : (s.assign i r).piece k =
    if i = k ∧ k < s.pieces.length then { s.piece k with reg := r, spilled := false }
    else s.piece k :=
  piece_setPiece _ k

theorem piece_splitPiece (hi : i < s.pieces.length) (k : Nat) : (d.splitPiece s i q).2.piece k =
    if k = s.pieces.length then
      d.newPiece (s.piece i).base q (s.piece i).toPos s.pieces.length
    else if i = k then
      { s.piece k with
        toPos := q, stop := lastLive (d.interval (s.piece k).base).segments q }
    else s.piece k := by
  simp only [splitPiece, piece, getD_eq_getElem?_getD]
  by_cases hk : k < s.pieces.length
  · rw [getElem?_append_left (by simpa using hk), if_neg (by omega), getElem?_modify]
    by_cases hik : i = k
    · subst hik
      simp [getElem?_eq_getElem hk]
    · simp [hik]
  · rw [getElem?_append_right (by simpa using Nat.le_of_not_lt hk), length_modify]
    rcases Nat.eq_or_lt_of_le (Nat.le_of_not_lt hk) with heq | hlt
    · simp [heq]
    · rw [if_neg (by omega), if_neg (by omega), getElem?_eq_none (by simp; omega),
        getElem?_eq_none (Nat.le_of_lt hlt)]

theorem length_splitPiece : (d.splitPiece s i q).2.pieces.length = s.pieces.length + 1 := by
  simp [splitPiece]

/-! ## Giving registers up -/

/-- From `s` to `t` pieces get narrower windows and lose registers, new pieces have none, and
what is no longer active has lost its register or stops at `pos` at the latest. -/
structure Yields (d : ScanData) (pos : Nat) (s t : ScanState) : Prop where
  length_le : s.pieces.length ≤ t.pieces.length
  narrower : ∀ k < s.pieces.length, Narrower (t.piece k) (s.piece k)
  start_le : ∀ k < s.pieces.length, (s.piece k).start ≤ (t.piece k).start
  stop_le : ∀ k < s.pieces.length, (t.piece k).stop ≤ (s.piece k).stop
  reg : ∀ k < s.pieces.length, (t.piece k).inRegister = true →
    (s.piece k).inRegister = true ∧ (t.piece k).reg = (s.piece k).reg
  fresh : ∀ k, s.pieces.length ≤ k → (t.piece k).inRegister = false
  windowed : (∀ k < s.pieces.length, d.Windowed (s.piece k)) →
    ∀ k < t.pieces.length, d.Windowed (t.piece k)
  active : ∀ k ∈ t.active, k ∈ s.active
  holding : ∀ k ∈ s.active, k ∈ t.active ∨ (t.piece k).inRegister = false ∨ (t.piece k).stop ≤ pos
  waiting : ∀ k ∈ t.unhandled,
    k ∈ s.unhandled ∨ s.pieces.length ≤ k ∧ k < t.pieces.length

namespace Yields

theorem refl (s : ScanState) : d.Yields pos s s where
  length_le := Nat.le_refl _
  narrower := fun _ _ => Narrower.refl _
  start_le := fun _ _ => Nat.le_refl _
  stop_le := fun _ _ => Nat.le_refl _
  reg := fun _ _ h => ⟨h, rfl⟩
  fresh := fun _ hk => not_inRegister_of_le hk
  windowed := fun h => h
  active := fun _ h => h
  holding := fun _ h => .inl h
  waiting := fun _ h => .inl h

theorem trans (h : d.Yields pos s t) (h' : d.Yields pos t u) : d.Yields pos s u where
  length_le := h.length_le.trans h'.length_le
  narrower := fun k hk =>
    (h'.narrower k (Nat.lt_of_lt_of_le hk h.length_le)).trans (h.narrower k hk)
  start_le := fun k hk =>
    (h.start_le k hk).trans (h'.start_le k (Nat.lt_of_lt_of_le hk h.length_le))
  stop_le := fun k hk =>
    (h'.stop_le k (Nat.lt_of_lt_of_le hk h.length_le)).trans (h.stop_le k hk)
  reg := by
    intro k hk hu
    obtain ⟨ht, hreg⟩ := h'.reg k (Nat.lt_of_lt_of_le hk h.length_le) hu
    obtain ⟨hs, hreg'⟩ := h.reg k hk ht
    exact ⟨hs, hreg.trans hreg'⟩
  fresh := by
    intro k hk
    by_cases ht : k < t.pieces.length
    · by_contra hu
      have := (h'.reg k ht (by simpa using hu)).1
      rw [h.fresh k hk] at this
      cases this
    · exact h'.fresh k (Nat.le_of_not_lt ht)
  windowed := fun hs => h'.windowed (h.windowed hs)
  active := fun k hk => h.active k (h'.active k hk)
  holding := by
    intro k hk
    by_cases hlt : k < t.pieces.length
    · rcases h.holding k hk with ht | ht | ht
      · exact h'.holding k ht
      · refine .inr (.inl ?_)
        by_contra hu
        have := (h'.reg k hlt (by simpa using hu)).1
        rw [ht] at this
        cases this
      · exact .inr (.inr ((h'.stop_le k hlt).trans ht))
    · exact .inr (.inl (h'.fresh k (Nat.le_of_not_lt hlt)))
  waiting := by
    intro k hk
    rcases h'.waiting k hk with hk | hk
    · rcases h.waiting k hk with hk | hk
      · exact .inl hk
      · exact .inr ⟨hk.1, Nat.lt_of_lt_of_le hk.2 h'.length_le⟩
    · exact .inr ⟨h.length_le.trans hk.1, hk.2⟩

theorem not_inRegister (h : d.Yields pos s t) (hk : (s.piece k).inRegister = false) :
    (t.piece k).inRegister = false := by
  by_cases hlt : k < s.pieces.length
  · by_contra ht
    have := (h.reg k hlt (by simpa using ht)).1
    rw [hk] at this
    cases this
  · exact h.fresh k (Nat.le_of_not_lt hlt)

end Yields

/-! ## Splits, spills and evictions -/

theorem not_inRegister_spill (s : ScanState) (i : Nat) : ((s.spill i).piece i).inRegister = false := by
  rw [piece_spill]
  split
  · rfl
  · rename_i hi
    exact not_inRegister_of_le (by simpa using hi)

theorem spill_yields (s : ScanState) (i : Nat) : d.Yields pos s (s.spill i) where
  length_le := by simp [spill]
  narrower := by
    intro k _
    rw [piece_spill]
    split <;> exact ⟨rfl, Nat.le_refl _, Nat.le_refl _⟩
  start_le := by
    intro k _
    rw [piece_spill]
    split <;> exact Nat.le_refl _
  stop_le := by
    intro k _
    rw [piece_spill]
    split <;> exact Nat.le_refl _
  reg := by
    intro k _ h
    rw [piece_spill] at h ⊢
    split at h
    · cases h
    · rename_i hne
      rw [if_neg hne]
      exact ⟨h, rfl⟩
  fresh := by
    intro k hk
    rw [piece_spill, if_neg (by omega)]
    exact not_inRegister_of_le hk
  windowed := by
    intro h k hk
    have hwin := h k (by simpa [spill] using hk)
    rw [piece_spill]
    split
    · exact ⟨hwin.proper, hwin.from_le, hwin.le_to, hwin.start_le, hwin.le_stop⟩
    · exact hwin
  active := fun k hk => hk
  holding := fun k hk => .inl hk
  waiting := fun k hk => .inl hk

variable (wf : d.WellFormed)

include wf

theorem splitPiece_yields (hi : i < s.pieces.length) (h₁ : (s.piece i).start < q)
    (h₂ : q < (s.piece i).stop) (hto : (s.piece i).stop ≤ (s.piece i).toPos) :
    d.Yields pos s (d.splitPiece s i q).2 where
  length_le := by rw [length_splitPiece]; omega
  narrower := by
    intro k hk
    rw [piece_splitPiece hi, if_neg (by omega)]
    split
    · rename_i hik
      subst hik
      exact ⟨rfl, Nat.le_refl _, by show q ≤ _; omega⟩
    · exact Narrower.refl _
  start_le := by
    intro k hk
    rw [piece_splitPiece hi, if_neg (by omega)]
    split <;> exact Nat.le_refl _
  stop_le := by
    intro k hk
    rw [piece_splitPiece hi, if_neg (by omega)]
    split
    · rename_i hik
      subst hik
      exact (lastLive_le _ q).trans (Nat.le_of_lt h₂)
    · exact Nat.le_refl _
  reg := by
    intro k hk h
    rw [piece_splitPiece hi, if_neg (by omega)] at h ⊢
    split at h
    · rename_i hik
      rw [if_pos hik]
      exact ⟨h, rfl⟩
    · rename_i hik
      rw [if_neg hik]
      exact ⟨h, rfl⟩
  fresh := by
    intro k hk
    rw [piece_splitPiece hi]
    split
    · rfl
    · rw [if_neg (by omega)]
      exact not_inRegister_of_le hk
  windowed := by
    intro hs k hk
    rw [length_splitPiece] at hk
    rw [piece_splitPiece hi]
    split
    · exact newPiece_windowed wf (Nat.lt_of_lt_of_le h₂ hto)
    · split
      · rename_i hik
        subst hik
        exact (hs i hi).upTo wf h₁ h₂
      · exact hs k (by omega)
  active := fun k hk => hk
  holding := fun k hk => .inl hk
  waiting := fun k hk => .inl hk

omit wf in
theorem Yields.push (h : d.Yields pos s t) (hk : s.pieces.length ≤ k) (hk' : k < t.pieces.length) :
    d.Yields pos s (t.pushUnhandled k) where
  length_le := h.length_le
  narrower := h.narrower
  start_le := h.start_le
  stop_le := h.stop_le
  reg := h.reg
  fresh := h.fresh
  windowed := h.windowed
  active := h.active
  holding := h.holding
  waiting := by
    intro j hj
    rcases mem_append.mp hj with hj | hj
    · exact h.waiting j hj
    · rw [mem_singleton.mp hj]
      exact .inr ⟨hk, hk'⟩

omit wf in
theorem requeueAt_bounds {after : Nat} (h : d.requeueAt s i after = some q) :
    (s.piece i).start < q ∧ q < (s.piece i).stop := by
  unfold requeueAt at h
  simp only [ite_none_left_eq_some, some.injEq, not_or, Nat.not_le] at h
  obtain ⟨-, -, ⟨-, h₁, h₂⟩, rfl⟩ := h
  exact ⟨h₁, h₂⟩

theorem spillAndRequeue_yields (hi : i < s.pieces.length) (hwin : d.Windowed (s.piece i))
    (after : Nat) : d.Yields pos s (d.spillAndRequeue s i after) := by
  have hspill : d.Yields pos s (s.spill i) := spill_yields s i
  unfold spillAndRequeue
  dsimp only
  split
  · exact hspill
  · rename_i q hq
    have hlen : (s.spill i).pieces.length = s.pieces.length := by simp [spill]
    obtain ⟨h₁, h₂⟩ := requeueAt_bounds hq
    have hto : ((s.spill i).piece i).stop ≤ ((s.spill i).piece i).toPos := by
      rw [piece_spill]
      split <;> exact hwin.le_to
    refine (hspill.trans (splitPiece_yields wf (by omega) h₁ h₂ hto)).push ?_ ?_
    · exact Nat.le_of_eq hlen.symm
    · rw [length_splitPiece]
      exact Nat.lt_succ_self _

omit wf in
theorem spillAndRequeue_spilled (hi : i < s.pieces.length) (after : Nat) :
    ((d.spillAndRequeue s i after).piece i).inRegister = false := by
  have hgone := not_inRegister_spill s i
  unfold spillAndRequeue
  dsimp only
  split
  · exact hgone
  · have hlen : (s.spill i).pieces.length = s.pieces.length := by simp [spill]
    show ((d.splitPiece (s.spill i) i _).2.piece i).inRegister = false
    rw [piece_splitPiece (by omega), if_neg (by omega), if_pos rfl]
    exact hgone

omit wf in
theorem Yields.of_removed {a : Nat}
    (h : d.Yields pos { s with active := s.active.filter (· ≠ a) } t)
    (hgone : (t.piece a).inRegister = false ∨ (t.piece a).stop ≤ pos) : d.Yields pos s t where
  length_le := h.length_le
  narrower := h.narrower
  start_le := h.start_le
  stop_le := h.stop_le
  reg := h.reg
  fresh := h.fresh
  windowed := h.windowed
  active := fun k hk => (mem_filter.mp (h.active k hk)).1
  holding := by
    intro k hk
    by_cases hka : k = a
    · exact .inr (hka ▸ hgone)
    · exact h.holding k (mem_filter.mpr ⟨hk, by simpa using hka⟩)
  waiting := h.waiting

theorem splitUpTo_le {lo : Nat}
    (h : (if lo ≤ pos then d.splitPosition lo pos else kNever) ≠ kNever) :
    (if lo ≤ pos then d.splitPosition lo pos else kNever) ≤ pos := by
  split at h
  · rename_i hlo
    rw [if_pos hlo]
    exact splitPosition_le wf h
  · exact absurd rfl h

theorem evictAt_bounds {a : Nat} (h : d.evictAt s a pos = some q) :
    (s.piece a).start < q ∧ q < (s.piece a).stop ∧ q ≤ pos := by
  unfold evictAt at h
  simp only [ite_none_left_eq_some, some.injEq, not_or, Nat.not_le] at h
  obtain ⟨⟨hne, h₁, h₂⟩, rfl⟩ := h
  exact ⟨h₁, h₂, splitUpTo_le wf hne⟩

/-- The evicted piece holds no register any more after `pos`. -/
theorem evictFrom_yields {a : Nat} (ha : a < s.pieces.length) (hwin : d.Windowed (s.piece a)) :
    d.Yields pos s (d.evictFrom pos s a) ∧ (((d.evictFrom pos s a).piece a).inRegister = false ∨
        ((d.evictFrom pos s a).piece a).stop ≤ pos) := by
  unfold evictFrom
  dsimp only
  set s' := { s with active := s.active.filter (· ≠ a) } with hs'
  have ha' : a < s'.pieces.length := ha
  split
  · have hgone := not_inRegister_spill s' a
    exact ⟨(spill_yields s' a).of_removed (.inl hgone), .inl hgone⟩
  · split
    · have hgone := spillAndRequeue_spilled (d := d) ha' pos
      exact ⟨(spillAndRequeue_yields wf ha' hwin pos).of_removed (.inl hgone), .inl hgone⟩
    · -- the piece keeps the register up to `q`, and the rest of it waits in its slot
      rename_i q hq
      obtain ⟨h₁, h₂, hle⟩ := evictAt_bounds wf hq
      have hsplit : d.Yields pos s' (d.splitPiece s' a q).2 :=
        splitPiece_yields wf ha' h₁ h₂ hwin.le_to
      have hright : s'.pieces.length < (d.splitPiece s' a q).2.pieces.length := by
        rw [length_splitPiece]
        exact Nat.lt_succ_self _
      have hwin' : d.Windowed ((d.splitPiece s' a q).2.piece s'.pieces.length) := by
        rw [piece_splitPiece ha', if_pos rfl]
        exact newPiece_windowed wf (Nat.lt_of_lt_of_le h₂ hwin.le_to)
      have hrest := @spillAndRequeue_yields d _ _ pos wf hright hwin' pos
      have hall := hsplit.trans hrest
      have hstop : ((d.spillAndRequeue (d.splitPiece s' a q).2 s'.pieces.length pos).piece a).stop ≤
          pos := by
        have hle' := hrest.stop_le a (by omega)
        rw [piece_splitPiece ha', if_neg (by omega), if_pos rfl] at hle'
        exact hle'.trans ((lastLive_le _ q).trans hle)
      exact ⟨hall.of_removed (.inr hstop), .inr hstop⟩

/-! ## The invariant -/

omit wf

/-- `ex` is a piece that takes its register from holders that have still to give it up. -/
structure Inv (d : ScanData) (pos : Nat) (ex : Option Nat) (s : ScanState) : Prop where
  windowed : ∀ k < s.pieces.length, d.Windowed (s.piece k)
  apart : ∀ j k, j ≠ k → ex ≠ some j → ex ≠ some k → (s.piece j).inRegister = true →
    (s.piece k).inRegister = true → (s.piece j).reg = (s.piece k).reg →
    d.Apart (s.piece j) (s.piece k)
  unblocked : ∀ k, ex ≠ some k → (s.piece k).inRegister = true →
    d.Unblocked (s.piece k) (s.piece k).reg
  pool : ∀ k, (s.piece k).inRegister = true →
    (s.piece k).reg ∈ d.available (d.vreg (s.piece k)).regClass
  holding : ∀ k, (s.piece k).inRegister = true → k ∈ s.active ∨ (s.piece k).stop ≤ pos
  active_lt : ∀ k ∈ s.active, k < s.pieces.length
  waiting : ∀ k ∈ s.unhandled,
    k < s.pieces.length ∧ k ∉ s.active ∧ (s.piece k).inRegister = false

namespace Inv

variable {ex : Option Nat}

theorem yields (wf : d.WellFormed) (h : d.Inv pos ex s) (hy : d.Yields pos s t) :
    d.Inv pos ex t := by
  have hlt : ∀ k, (t.piece k).inRegister = true → k < s.pieces.length := by
    intro k hk
    by_contra hge
    rw [hy.fresh k (Nat.le_of_not_lt hge)] at hk
    cases hk
  refine ⟨hy.windowed h.windowed, ?_, ?_, ?_, ?_, ?_, ?_⟩
  · intro j k hjk hj hk htj htk hreg
    have hnj := hy.narrower j (hlt j htj)
    have hnk := hy.narrower k (hlt k htk)
    obtain ⟨hsj, hrj⟩ := hy.reg j (hlt j htj) htj
    obtain ⟨hsk, hrk⟩ := hy.reg k (hlt k htk) htk
    exact (h.apart j k hjk hj hk hsj hsk (hrj ▸ hrk ▸ hreg)).mono wf hnj hnk
  · intro k hk htk
    obtain ⟨hsk, hrk⟩ := hy.reg k (hlt k htk) htk
    rw [hrk]
    exact (h.unblocked k hk hsk).mono wf (hy.narrower k (hlt k htk))
  · intro k htk
    obtain ⟨hsk, hrk⟩ := hy.reg k (hlt k htk) htk
    have hbase := (hy.narrower k (hlt k htk)).base
    rw [hrk, vreg, hbase]
    exact h.pool k hsk
  · intro k htk
    obtain ⟨hsk, -⟩ := hy.reg k (hlt k htk) htk
    rcases h.holding k hsk with hact | hstop
    · rcases hy.holding k hact with ht | ht | ht
      · exact .inl ht
      · rw [ht] at htk
        cases htk
      · exact .inr ht
    · exact .inr ((hy.stop_le k (hlt k htk)).trans hstop)
  · intro k hk
    exact Nat.lt_of_lt_of_le (h.active_lt k (hy.active k hk)) hy.length_le
  · intro k hk
    rcases hy.waiting k hk with hk | ⟨hge, hk⟩
    · obtain ⟨hlt', hact, hreg⟩ := h.waiting k hk
      exact ⟨Nat.lt_of_lt_of_le hlt' hy.length_le, fun hk => hact (hy.active k hk),
        hy.not_inRegister hreg⟩
    · refine ⟨hk, fun hact => ?_, hy.fresh k hge⟩
      exact absurd (h.active_lt k (hy.active k hact)) (Nat.not_lt.mpr hge)

/-- A piece that waits gets a register; the holders of it are still to be seen to. -/
theorem assign (h : d.Inv pos none s) (hi : i < s.pieces.length) (hwait : i ∉ s.unhandled)
    (hr : r ∈ d.available (d.vreg (s.piece i)).regClass) :
    d.Inv pos (some i) (s.assign i r) := by
  have hne : ∀ k, some i ≠ some k → (s.assign i r).piece k = s.piece k := by
    intro k hk
    rw [piece_assign, if_neg (fun h => hk (congrArg some h.1))]
  have hself : (s.assign i r).piece i = { s.piece i with reg := r, spilled := false } := by
    rw [piece_assign, if_pos ⟨rfl, hi⟩]
  have hlen : (s.assign i r).pieces.length = s.pieces.length := by simp [ScanState.assign]
  refine ⟨?_, ?_, ?_, ?_, ?_, ?_, ?_⟩
  · intro k hk
    have hwin := h.windowed k (hlen ▸ hk)
    rw [piece_assign]
    split
    · exact ⟨hwin.proper, hwin.from_le, hwin.le_to, hwin.start_le, hwin.le_stop⟩
    · exact hwin
  · intro j k hjk hj hk
    rw [hne j hj, hne k hk]
    exact h.apart j k hjk (by simp) (by simp)
  · intro k hk
    rw [hne k hk]
    exact h.unblocked k (by simp)
  · intro k hk
    by_cases hik : some i = some k
    · obtain rfl := some.inj hik
      rw [hself]
      exact hr
    · rw [hne k hik] at hk ⊢
      exact h.pool k hk
  · intro k hk
    by_cases hik : some i = some k
    · obtain rfl := some.inj hik
      exact .inl (mem_append_right _ (by simp))
    · rw [hne k hik] at hk ⊢
      exact (h.holding k hk).imp (fun ha => mem_append_left _ ha) id
  · intro k hk
    rw [hlen]
    rcases mem_append.mp hk with hk | hk
    · exact h.active_lt k hk
    · rw [mem_singleton.mp hk]
      exact hi
  · intro k hk
    have hik : k ≠ i := fun he => hwait (he ▸ hk)
    obtain ⟨hlt, hact, hreg⟩ := h.waiting k hk
    refine ⟨hlen ▸ hlt, fun ha => ?_, ?_⟩
    · rcases mem_append.mp ha with ha | ha
      · exact hact ha
      · exact hik (mem_singleton.mp ha)
    · rw [hne k (fun he => hik (some.inj he).symm)]
      exact hreg

theorem placed (h : d.Inv pos (some i) s)
    (hclear : (s.piece i).inRegister = true → ∀ k, k ≠ i → (s.piece k).inRegister = true →
      (s.piece k).reg = (s.piece i).reg → d.Apart (s.piece i) (s.piece k))
    (hfree : (s.piece i).inRegister = true → d.Unblocked (s.piece i) (s.piece i).reg) :
    d.Inv pos none s where
  windowed := h.windowed
  apart := by
    intro j k hjk _ _ hj hk hreg
    by_cases hji : some i = some j
    · obtain rfl := some.inj hji
      exact hclear hj k (fun he => hjk he.symm) hk hreg.symm
    · by_cases hki : some i = some k
      · obtain rfl := some.inj hki
        exact (hclear hk j hjk hj hreg).symm
      · exact h.apart j k hjk hji hki hj hk hreg
  unblocked := by
    intro k _ hk
    by_cases hki : some i = some k
    · obtain rfl := some.inj hki
      exact hfree hk
    · exact h.unblocked k hki hk
  pool := h.pool
  holding := h.holding
  active_lt := h.active_lt
  waiting := h.waiting

end Inv

end ScanData

end Brass.Codegen
