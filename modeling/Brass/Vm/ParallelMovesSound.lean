import Brass.Vm.ParallelMoves
import Mathlib.Data.Finset.Card
import Mathlib.Data.Fintype.Basic

/-!
# The moves of an edge arrive

While the moves are emitted, the use counts are those of the moves that wait, the moves that
nothing reads are ready, and a register that is neither scratch nor written still holds what it
held before the first move (`Emitting`). When no move is ready, every destination that waits
has a reader, so by counting every source is such a destination: none of them is the scratch
register, which is free for the next cycle (`src_ne_scratch_of_stuck`).
-/

namespace Brass.Vm

open Function (update update_of_ne update_self)

open List

variable {ctx : MoveContext} {s : MoveState} {i j : Nat} {r : Reg} {m₀ : Registers}

theorem MoveOp.write_write (op : MoveOp) (a b c : RegContents) :
    op.write a (op.write b c) = op.write a c := by
  cases op <;> rfl

theorem MoveOp.write_self (op : MoveOp) (a : RegContents) : op.write a a = a := by
  cases op <;> rfl

theorem runMoves_append (c c' : List MoveInst) (m : Registers) :
    runMoves (c ++ c') m = runMoves c' (runMoves c m) :=
  foldl_append

namespace MoveState

/-! ## The moves that wait -/

def waiting (s : MoveState) : Finset Nat :=
  (Finset.range s.moves.length).filter (fun i => (s.move i).done = false)

theorem mem_waiting : i ∈ s.waiting ↔ (s.move i).done = false := by
  rw [waiting, Finset.mem_filter, Finset.mem_range, and_iff_right_iff_imp]
  intro h
  by_contra hge
  rw [move, getD_eq_getElem?_getD, getElem?_eq_none (by omega)] at h
  exact absurd h (by simp)

theorem lt_of_waiting (h : i ∈ s.waiting) : i < s.moves.length :=
  Finset.mem_range.1 (Finset.mem_filter.1 h).1

def readers (s : MoveState) (r : Reg) : Finset Nat :=
  s.waiting.filter (fun i => (s.move i).src = r)

theorem mem_readers : i ∈ s.readers r ↔ i ∈ s.waiting ∧ (s.move i).src = r := Finset.mem_filter

theorem move_congr {t : MoveState} (h : t.moves = s.moves) (j : Nat) : t.move j = s.move j := by
  rw [move, move, h]

theorem waiting_congr {t : MoveState} (h : t.moves = s.moves) : t.waiting = s.waiting := by
  ext j
  rw [mem_waiting, mem_waiting, move_congr h]

theorem move_set {t : MoveState} {x : Move} (h : t.moves = s.moves.set i x)
    (hi : i < s.moves.length) (j : Nat) : t.move j = if j = i then x else s.move j := by
  rw [move, h, getD_eq_getElem?_getD, getElem?_set]
  by_cases hj : j = i
  · rw [if_pos hj.symm, if_pos hj, if_pos hi, Option.getD_some]
  · rw [if_neg (Ne.symm hj), if_neg hj, move, getD_eq_getElem?_getD]

end MoveState

open MoveState

/-! ## One reader fewer -/

@[simp] theorem release_moves (s : MoveState) (r : Reg) : (release s r).moves = s.moves := by
  unfold release
  dsimp only
  split
  · split
    · split <;> rfl
    · rfl
  · rfl

@[simp] theorem release_useCount (s : MoveState) (r : Reg) :
    (release s r).useCount = update s.useCount r (s.useCount r - 1) := by
  unfold release
  dsimp only
  split
  · split
    · split <;> rfl
    · rfl
  · rfl

@[simp] theorem release_writerOf (s : MoveState) (r : Reg) :
    (release s r).writerOf = s.writerOf := by
  unfold release
  dsimp only
  split
  · split
    · split <;> rfl
    · rfl
  · rfl

@[simp] theorem release_rest (s : MoveState) (r : Reg) : (release s r).scan = s.scan ∧
    (release s r).remaining = s.remaining ∧ (release s r).code = s.code := by
  unfold release
  dsimp only
  split
  · split
    · split <;> exact ⟨rfl, rfl, rfl⟩
    · exact ⟨rfl, rfl, rfl⟩
  · exact ⟨rfl, rfl, rfl⟩

theorem mem_release_ready : j ∈ (release s r).ready ↔
    j ∈ s.ready ∨ s.useCount r - 1 = 0 ∧ s.writerOf r = some j ∧ (s.move j).done = false := by
  unfold release
  simp only [update_self]
  by_cases hzero : s.useCount r - 1 = 0
  · rw [if_pos hzero]
    cases hw : s.writerOf r with
    | none => simp
    | some w =>
      dsimp only
      split
      · rename_i h
        have hdone : (s.move w).done = true := h
        refine ⟨.inl, fun h => h.elim id ?_⟩
        rintro ⟨-, hwj, hj⟩
        rw [Option.some.inj hwj, hj] at hdone
        exact absurd hdone (by simp)
      · rename_i h
        have hwait : (s.move w).done = false := Bool.not_eq_true _ ▸ h
        rw [mem_cons]
        constructor
        · rintro (rfl | h)
          exacts [.inr ⟨hzero, rfl, hwait⟩, .inl h]
        · rintro (h | ⟨-, h, -⟩)
          exacts [.inr h, .inl (Option.some.inj h).symm]
  · rw [if_neg hzero]
    exact ⟨.inl, fun h => h.elim id fun h => absurd h.1 hzero⟩

theorem release_ready_length (s : MoveState) (r : Reg) :
    (release s r).ready.length ≤ s.ready.length + 1 := by
  unfold release
  dsimp only
  split
  · split
    · split
      · exact Nat.le_succ _
      · exact Nat.le_refl _
    · exact Nat.le_succ _
  · exact Nat.le_succ _

/-! ## The invariant -/

/-- What `collectMoves` sees to: `o` are the moves before the first is emitted. -/
structure MovesOk (ctx : MoveContext) (o : Nat → Move) (n : Nat) : Prop where
  src_ne : ∀ i < n, (o i).src ≠ ctx.scratchReg
  dst_ne : ∀ i < n, (o i).dst ≠ ctx.scratchReg
  ne : ∀ i < n, (o i).src ≠ (o i).dst
  inj : ∀ i < n, ∀ j < n, (o i).dst = (o j).dst → i = j

/-- The tables tell about the moves that wait. -/
structure Counted (ctx : MoveContext) (s : MoveState) : Prop where
  scratch : s.useCount ctx.scratchReg = 0
  count : ∀ r, r ≠ ctx.scratchReg → s.useCount r = (s.readers r).card
  writer : ∀ {r i}, s.writerOf r = some i ↔ i ∈ s.waiting ∧ (s.move i).dst = r

/-- The ready moves that wait are those whose destination nobody reads. -/
structure Readied (s : MoveState) : Prop where
  complete : ∀ i ∈ s.waiting, s.useCount (s.move i).dst = 0 → i ∈ s.ready
  sound : ∀ i ∈ s.ready, i ∈ s.waiting → s.useCount (s.move i).dst = 0
  scanned : ∀ i < s.scan, i ∉ s.waiting

/-- The moves made have made it, and the others can still be made. -/
structure Carries (ctx : MoveContext) (o : Nat → Move) (n : Nat) (m₀ : Registers)
    (s : MoveState) : Prop where
  length : s.moves.length = n
  dst : ∀ i < n, (s.move i).dst = (o i).dst
  src : ∀ i < n, (s.move i).src = (o i).src ∨ (s.move i).src = ctx.scratchReg
  made : ∀ i < n, i ∉ s.waiting → runMoves s.code m₀ (o i).dst =
    (moveOp ctx (o i).dst).write (m₀ (o i).dst) (m₀ (o i).src)
  kept : ∀ r, r ≠ ctx.scratchReg → (∀ i < n, i ∉ s.waiting → (o i).dst ≠ r) →
    runMoves s.code m₀ r = m₀ r
  unread : ∀ i ∈ s.waiting, (s.move i).src ≠ ctx.scratchReg →
    ∀ j < n, j ∉ s.waiting → (o j).dst ≠ (s.move i).src
  parked : ∀ i ∈ s.waiting, (s.move i).src = ctx.scratchReg → ∃ old,
    runMoves s.code m₀ ctx.scratchReg = (moveOp ctx (o i).dst).write old (m₀ (o i).src)
  one : ∀ i ∈ s.waiting, ∀ j ∈ s.waiting, (s.move i).src = ctx.scratchReg →
    (s.move j).src = ctx.scratchReg → i = j

theorem runMoves_concat (c : List MoveInst) (x : MoveInst) (m : Registers) :
    runMoves (c ++ [x]) m = update (runMoves c m) x.dst
      (x.op.write (runMoves c m x.dst) (runMoves c m x.src)) := by
  rw [runMoves_append]
  rfl

section Steps

variable {o : Nat → Move} {n : Nat} {rest : List Nat}

theorem Carries.lt (h : Carries ctx o n m₀ s) (hi : i ∈ s.waiting) : i < n :=
  h.length ▸ lt_of_waiting hi

theorem Carries.congr {t : MoveState} (h : Carries ctx o n m₀ s) (hm : t.moves = s.moves)
    (hc : t.code = s.code) : Carries ctx o n m₀ t := by
  have hw := waiting_congr hm
  have hv := move_congr hm
  obtain ⟨h₁, h₂, h₃, h₄, h₅, h₆, h₇, h₈⟩ := h
  constructor <;> simpa only [hm, hc, hw, hv]

theorem move_emitMove (hi : i ∈ s.waiting) (j : Nat) : (emitMove ctx s i rest).move j =
    if j = i then { s.move i with done := true } else s.move j :=
  move_set rfl (lt_of_waiting hi) j

theorem waiting_emitMove (hi : i ∈ s.waiting) :
    (emitMove ctx s i rest).waiting = s.waiting.erase i := by
  ext j
  rw [mem_waiting, move_emitMove hi, Finset.mem_erase, mem_waiting]
  by_cases hj : j = i
  · simp [hj]
  · simp [hj]

theorem Carries.source (h : Carries ctx o n m₀ s) (hi : i ∈ s.waiting) :
    ∃ old, runMoves s.code m₀ (s.move i).src = (moveOp ctx (o i).dst).write old (m₀ (o i).src) := by
  have hlt := h.lt hi
  by_cases hscratch : (s.move i).src = ctx.scratchReg
  · rw [hscratch]
    exact h.parked i hi hscratch
  · have hsrc := (h.src i hlt).resolve_right hscratch
    have hkept := h.kept _ hscratch (h.unread i hi hscratch)
    refine ⟨m₀ (o i).src, ?_⟩
    rw [hkept, hsrc, MoveOp.write_self]

theorem Carries.destination (h : Carries ctx o n m₀ s) (hok : MovesOk ctx o n)
    (hi : i ∈ s.waiting) : runMoves s.code m₀ (o i).dst = m₀ (o i).dst := by
  have hlt := h.lt hi
  refine h.kept _ (hok.dst_ne i hlt) ?_
  intro j hj hjw hdst
  exact hjw (hok.inj j hj i hlt hdst ▸ hi)

theorem Carries.emitMove (h : Carries ctx o n m₀ s) (hok : MovesOk ctx o n) (hi : i ∈ s.waiting)
    (hfree : s.readers (s.move i).dst = ∅) :
    Carries ctx o n m₀ (emitMove ctx s i rest) := by
  have hlt := h.lt hi
  have hdst := h.dst i hlt
  have hw : (Vm.emitMove ctx s i rest).waiting = s.waiting.erase i := waiting_emitMove hi
  have hrun : runMoves (Vm.emitMove ctx s i rest).code m₀ = update (runMoves s.code m₀) (o i).dst
        ((moveOp ctx (o i).dst).write (m₀ (o i).dst) (m₀ (o i).src)) := by
    obtain ⟨old, hold⟩ := h.source hi
    rw [show (Vm.emitMove ctx s i rest).code = s.code ++
      [{ op := moveOp ctx (s.move i).dst, dst := (s.move i).dst, src := (s.move i).src }] from rfl,
      runMoves_concat]
    dsimp only
    rw [hold, hdst, h.destination hok hi, MoveOp.write_write]
  have hmove : ∀ j ≠ i, (Vm.emitMove ctx s i rest).move j = s.move j := fun j hj => by
    rw [move_emitMove hi, if_neg hj]
  have hself : (Vm.emitMove ctx s i rest).move i = { s.move i with done := true } := by
    rw [move_emitMove hi, if_pos rfl]
  -- what does not wait now is the move made, or did not wait before
  have hgone : ∀ {j}, j ∉ (Vm.emitMove ctx s i rest).waiting → j = i ∨ j ∉ s.waiting := by
    intro j hj
    rw [hw, Finset.mem_erase, not_and] at hj
    exact or_iff_not_imp_left.2 hj
  refine ⟨?_, ?_, ?_, ?_, ?_, ?_, ?_, ?_⟩
  · exact (length_set ..).trans h.length
  · intro j hj
    by_cases hji : j = i
    · rw [hji, hself]
      exact hdst
    · rw [hmove j hji]
      exact h.dst j hj
  · intro j hj
    by_cases hji : j = i
    · rw [hji, hself]
      exact h.src i hlt
    · rw [hmove j hji]
      exact h.src j hj
  · intro j hj hjw
    rw [hrun]
    rcases hgone hjw with rfl | hjw
    · exact update_self ..
    · have hne : (o j).dst ≠ (o i).dst := fun hd => hjw (hok.inj j hj i hlt hd ▸ hi)
      rw [update_of_ne hne]
      exact h.made j hj hjw
  · intro r hr hunwritten
    have hne : r ≠ (o i).dst := fun hd =>
      hunwritten i hlt (by rw [hw]; exact Finset.notMem_erase i _) hd.symm
    rw [hrun, update_of_ne hne]
    refine h.kept r hr fun j hj hjw => hunwritten j hj ?_
    rw [hw]
    exact fun hmem => hjw (Finset.mem_of_mem_erase hmem)
  · intro k hk hsrc j hj hjw
    obtain ⟨hki, hkw⟩ := Finset.mem_erase.1 (hw ▸ hk)
    rw [hmove k hki] at hsrc ⊢
    rcases hgone hjw with hji | hjw
    · intro hd
      have hread : k ∈ s.readers (s.move i).dst :=
        mem_readers.2 ⟨hkw, by rw [hdst, ← hd, hji]⟩
      rw [hfree] at hread
      exact absurd hread (Finset.notMem_empty k)
    · exact h.unread k hkw hsrc j hj hjw
  · intro k hk hsrc
    obtain ⟨hki, hk⟩ := Finset.mem_erase.1 (hw ▸ hk)
    rw [hmove k hki] at hsrc
    rw [hrun, update_of_ne (hok.dst_ne i hlt).symm]
    exact h.parked k hk hsrc
  · intro k hk j hj hksrc hjsrc
    obtain ⟨hki, hk⟩ := Finset.mem_erase.1 (hw ▸ hk)
    obtain ⟨hji, hj⟩ := Finset.mem_erase.1 (hw ▸ hj)
    rw [hmove k hki] at hksrc
    rw [hmove j hji] at hjsrc
    exact h.one k hk j hj hksrc hjsrc

theorem move_parkMove (hi : i ∈ s.waiting) (j : Nat) : (parkMove ctx s i).move j =
    if j = i then { s.move i with src := ctx.scratchReg } else s.move j :=
  move_set rfl (lt_of_waiting hi) j

theorem waiting_parkMove (hi : i ∈ s.waiting) : (parkMove ctx s i).waiting = s.waiting := by
  ext j
  rw [mem_waiting, move_parkMove hi, mem_waiting]
  split
  · rename_i hj
    rw [hj]
  · rfl

/-- The scratch register is free while no move that waits reads it. -/
theorem Carries.parkMove (h : Carries ctx o n m₀ s) (hok : MovesOk ctx o n) (hi : i ∈ s.waiting)
    (hfree : ∀ j ∈ s.waiting, (s.move j).src ≠ ctx.scratchReg) :
    Carries ctx o n m₀ (parkMove ctx s i) := by
  have hlt := h.lt hi
  have hw : (Vm.parkMove ctx s i).waiting = s.waiting := waiting_parkMove hi
  have hrun : ∃ old, runMoves (Vm.parkMove ctx s i).code m₀ =
      update (runMoves s.code m₀) ctx.scratchReg
        ((moveOp ctx (o i).dst).write old (m₀ (o i).src)) := by
    obtain ⟨old, hold⟩ := h.source hi
    refine ⟨runMoves s.code m₀ ctx.scratchReg, ?_⟩
    rw [show (Vm.parkMove ctx s i).code = s.code ++
      [{ op := moveOp ctx (s.move i).dst, dst := ctx.scratchReg, src := (s.move i).src }] from rfl,
      runMoves_concat]
    dsimp only
    rw [hold, h.dst i hlt, MoveOp.write_write]
  obtain ⟨old, hrun⟩ := hrun
  have hmove : ∀ j ≠ i, (Vm.parkMove ctx s i).move j = s.move j := fun j hj => by
    rw [move_parkMove hi, if_neg hj]
  have hself : (Vm.parkMove ctx s i).move i = { s.move i with src := ctx.scratchReg } := by
    rw [move_parkMove hi, if_pos rfl]
  refine ⟨?_, ?_, ?_, ?_, ?_, ?_, ?_, ?_⟩
  · exact (length_set ..).trans h.length
  · intro j hj
    by_cases hji : j = i
    · rw [hji, hself]
      exact h.dst i hlt
    · rw [hmove j hji]
      exact h.dst j hj
  · intro j hj
    by_cases hji : j = i
    · rw [hji, hself]
      exact .inr rfl
    · rw [hmove j hji]
      exact h.src j hj
  · intro j hj hjw
    rw [hrun, update_of_ne (hok.dst_ne j hj)]
    exact h.made j hj (hw ▸ hjw)
  · intro r hr hunwritten
    rw [hrun, update_of_ne hr]
    exact h.kept r hr fun j hj hjw => hunwritten j hj (hw.symm ▸ hjw)
  · intro k hk hsrc j hj hjw
    have hki : k ≠ i := by
      rintro rfl
      exact hsrc (by rw [hself])
    rw [hmove k hki] at hsrc ⊢
    exact h.unread k (hw ▸ hk) hsrc j hj (hw ▸ hjw)
  · intro k hk hsrc
    by_cases hki : k = i
    · rw [hrun, update_self, hki]
      exact ⟨old, rfl⟩
    · rw [hmove k hki] at hsrc
      exact absurd hsrc (hfree k (hw ▸ hk))
  · have honly : ∀ k ∈ (Vm.parkMove ctx s i).waiting,
        ((Vm.parkMove ctx s i).move k).src = ctx.scratchReg → k = i := by
      intro k hk hsrc
      by_contra hki
      rw [hmove k hki] at hsrc
      exact hfree k (hw ▸ hk) hsrc
    intro k hk j hj hksrc hjsrc
    rw [honly k hk hksrc, honly j hj hjsrc]

/-! ## The tables through a step -/

theorem Counted.free (h : Counted ctx s) (hr : r ≠ ctx.scratchReg) (hzero : s.useCount r = 0) :
    s.readers r = ∅ :=
  Finset.card_eq_zero.1 ((h.count r hr).symm.trans hzero)

/-- The use counts when a reader of `r` has gone and the readers of the others are as before. -/
theorem Counted.release {t : MoveState} (h : Counted ctx s) (hr : r ≠ ctx.scratchReg)
    (hi : i ∈ s.readers r) (hcount : t.useCount = s.useCount)
    (hreaders : ∀ q, q ≠ ctx.scratchReg → t.readers q = (s.readers q).erase i)
    (hwriter : ∀ {q j}, t.writerOf q = some j ↔ j ∈ t.waiting ∧ (t.move j).dst = q) :
    Counted ctx (release t r) := by
  have hmoves := release_moves t r
  refine ⟨?_, ?_, ?_⟩
  · rw [release_useCount, update_of_ne hr.symm, hcount]
    exact h.scratch
  · intro q hq
    rw [release_useCount, readers, waiting_congr hmoves]
    simp only [move_congr hmoves]
    rw [← readers, hreaders q hq, hcount]
    by_cases hqr : q = r
    · rw [hqr, update_self, Finset.card_erase_of_mem hi, h.count r hr]
    · have hother : i ∉ s.readers q := fun hmem =>
        hqr ((mem_readers.1 hmem).2.symm.trans (mem_readers.1 hi).2)
      rw [update_of_ne hqr, Finset.erase_eq_of_notMem hother, h.count q hq]
  · intro q j
    rw [release_writerOf, waiting_congr hmoves, move_congr hmoves]
    exact hwriter

theorem Readied.release {t : MoveState}
    (hcomplete : ∀ j ∈ t.waiting, (t.move j).dst ≠ r → t.useCount (t.move j).dst = 0 → j ∈ t.ready)
    (hsound : ∀ j ∈ t.ready, j ∈ t.waiting → t.useCount (t.move j).dst = 0)
    (hwriter : ∀ {q j}, t.writerOf q = some j ↔ j ∈ t.waiting ∧ (t.move j).dst = q)
    (hscanned : ∀ j < t.scan, j ∉ t.waiting) : Readied (release t r) := by
  have hmoves := release_moves t r
  have hzero : ∀ {q}, t.useCount q = 0 → (Vm.release t r).useCount q = 0 := by
    intro q hq
    rw [release_useCount]
    by_cases hqr : q = r
    · rw [hqr, update_self, ← hqr, hq]
    · rw [update_of_ne hqr, hq]
  refine ⟨?_, ?_, ?_⟩
  · intro j hj hcount
    rw [waiting_congr hmoves] at hj
    rw [release_useCount, move_congr hmoves] at hcount
    rw [mem_release_ready]
    by_cases hdst : (t.move j).dst = r
    · rw [hdst, update_self] at hcount
      exact .inr ⟨hcount, hwriter.2 ⟨hj, hdst⟩, mem_waiting.1 hj⟩
    · rw [update_of_ne hdst] at hcount
      exact .inl (hcomplete j hj hdst hcount)
  · intro j hj hwait
    rw [waiting_congr hmoves] at hwait
    rw [move_congr hmoves]
    rcases mem_release_ready.1 hj with hj | ⟨hcount, hw, -⟩
    · exact hzero (hsound j hj hwait)
    · rw [(hwriter.1 hw).2, release_useCount, update_self]
      exact hcount
  · intro j hj
    rw [waiting_congr hmoves]
    exact hscanned j ((release_rest t r).1 ▸ hj)

theorem readers_emitMove (hi : i ∈ s.waiting) (q : Reg) :
    (emitMove ctx s i rest).readers q = (s.readers q).erase i := by
  ext j
  rw [mem_readers, waiting_emitMove hi, Finset.mem_erase, Finset.mem_erase, mem_readers,
    move_emitMove hi, and_assoc]
  refine and_congr_right fun hj => ?_
  rw [if_neg hj]

theorem Counted.writer_emitMove (h : Counted ctx s) (hi : i ∈ s.waiting) {q : Reg} :
    (emitMove ctx s i rest).writerOf q = some j ↔
      j ∈ (emitMove ctx s i rest).waiting ∧ ((emitMove ctx s i rest).move j).dst = q := by
  rw [waiting_emitMove hi, Finset.mem_erase, move_emitMove hi]
  have hself := h.writer.2 ⟨hi, rfl⟩
  change update s.writerOf (s.move i).dst none q = some j ↔ _
  by_cases hji : j = i
  · -- the move that is made is not the writer of its destination any more
    refine iff_of_false (fun hw => ?_) (fun hw => hw.1.1 hji)
    by_cases hq : q = (s.move i).dst
    · rw [hq, update_self] at hw
      exact absurd hw (by simp)
    · rw [update_of_ne hq] at hw
      exact hq (hji ▸ (h.writer.1 hw).2.symm)
  rw [if_neg hji, and_iff_right hji]
  by_cases hq : q = (s.move i).dst
  · rw [hq, update_self]
    refine iff_of_false (by simp) fun hw => hji ?_
    exact Option.some.inj ((h.writer.2 hw).symm.trans hself)
  · rw [update_of_ne hq]
    exact h.writer

theorem emitReady_of_waiting (hi : i ∈ s.waiting) : emitReady ctx s i rest =
    if (s.move i).src = ctx.scratchReg then emitMove ctx s i rest
    else release (emitMove ctx s i rest) (s.move i).src := by
  rw [emitReady, if_neg (by simp [mem_waiting.1 hi])]

theorem Counted.emitReady (h : Counted ctx s) (hi : i ∈ s.waiting) :
    Counted ctx (emitReady ctx s i rest) := by
  rw [emitReady_of_waiting hi]
  by_cases hsrc : (s.move i).src = ctx.scratchReg
  · rw [if_pos hsrc]
    refine ⟨h.scratch, ?_, h.writer_emitMove hi⟩
    intro q hq
    have hother : i ∉ s.readers q := fun hmem => hq ((mem_readers.1 hmem).2.symm.trans hsrc)
    rw [readers_emitMove hi, Finset.erase_eq_of_notMem hother]
    exact h.count q hq
  · rw [if_neg hsrc]
    exact h.release hsrc (mem_readers.2 ⟨hi, rfl⟩) rfl (fun q _ => readers_emitMove hi q)
      (h.writer_emitMove hi)

theorem Readied.emitReady (h : Readied s) (hc : Counted ctx s) (hi : i ∈ s.waiting)
    (hready : s.ready = i :: rest) : Readied (emitReady ctx s i rest) := by
  have hw : (Vm.emitMove ctx s i rest).waiting = s.waiting.erase i := waiting_emitMove hi
  have hmove : ∀ j ∈ s.waiting.erase i, (emitMove ctx s i rest).move j = s.move j := fun j hj => by
    rw [move_emitMove hi, if_neg (Finset.ne_of_mem_erase hj)]
  have hcomplete : ∀ j ∈ (emitMove ctx s i rest).waiting,
      s.useCount ((emitMove ctx s i rest).move j).dst = 0 → j ∈ rest := by
    intro j hj hcount
    rw [hw] at hj
    rw [hmove j hj] at hcount
    have hmem := h.complete j (Finset.mem_of_mem_erase hj) hcount
    rw [hready] at hmem
    exact (mem_cons.1 hmem).resolve_left (Finset.ne_of_mem_erase hj)
  have hsound : ∀ j ∈ rest, j ∈ (emitMove ctx s i rest).waiting →
      s.useCount ((emitMove ctx s i rest).move j).dst = 0 := by
    intro j hj hwait
    rw [hw] at hwait
    rw [hmove j hwait]
    exact h.sound j (hready ▸ mem_cons_of_mem _ hj) (Finset.mem_of_mem_erase hwait)
  have hscanned : ∀ j < s.scan, j ∉ (emitMove ctx s i rest).waiting := by
    intro j hj hwait
    rw [hw] at hwait
    exact h.scanned j hj (Finset.mem_of_mem_erase hwait)
  rw [emitReady_of_waiting hi]
  by_cases hsrc : (s.move i).src = ctx.scratchReg
  · rw [if_pos hsrc]
    exact ⟨hcomplete, hsound, hscanned⟩
  · rw [if_neg hsrc]
    exact Readied.release (fun j hj _ => hcomplete j hj) hsound (hc.writer_emitMove hi) hscanned

/-! ## When no move is ready -/

/-- Every destination that waits has a reader, and there are not more readers than moves, so
every source is a destination that waits. -/
theorem src_ne_scratch_of_stuck (hc : Counted ctx s) (hr : Readied s) (hready : s.ready = [])
    (hdst : ∀ i ∈ s.waiting, (s.move i).dst ≠ ctx.scratchReg) :
    ∀ j ∈ s.waiting, (s.move j).src ≠ ctx.scratchReg := by
  have hinj : Set.InjOn (fun i => (s.move i).dst) s.waiting := by
    intro i hi j hj hij
    have hwi := hc.writer.2 ⟨hi, rfl⟩
    have hwj := hc.writer.2 ⟨hj, hij.symm⟩
    exact Option.some.inj (hwi.symm.trans hwj)
  have hsub : s.waiting.image (fun i => (s.move i).dst) ⊆ s.waiting.image (fun i => (s.move i).src) := by
    intro d hd
    obtain ⟨i, hi, rfl⟩ := Finset.mem_image.1 hd
    have hread : s.useCount (s.move i).dst ≠ 0 := fun hzero => by
      have hmem := hr.complete i hi hzero
      rw [hready] at hmem
      exact absurd hmem not_mem_nil
    rw [hc.count _ (hdst i hi)] at hread
    obtain ⟨j, hj⟩ := Finset.card_ne_zero.1 hread
    exact Finset.mem_image.2 ⟨j, (mem_readers.1 hj).1, (mem_readers.1 hj).2⟩
  have hcard : (s.waiting.image (fun i => (s.move i).src)).card ≤
      (s.waiting.image (fun i => (s.move i).dst)).card := by
    rw [Finset.card_image_of_injOn hinj]
    exact Finset.card_image_le
  have heq := Finset.eq_of_subset_of_card_le hsub hcard
  intro j hj
  have hmem : (s.move j).src ∈ s.waiting.image (fun i => (s.move i).dst) := by
    rw [heq]
    exact Finset.mem_image_of_mem _ hj
  obtain ⟨i, hi, hij⟩ := Finset.mem_image.1 hmem
  exact hij ▸ hdst i hi

/-! ## The loops -/

structure Emitting (ctx : MoveContext) (o : Nat → Move) (n : Nat) (s : MoveState) : Prop where
  counted : Counted ctx s
  readied : Readied s
  remaining : s.remaining = s.waiting.card
  carries : ∀ m₀, Carries ctx o n m₀ s

/-- The moves that wait and do not read the scratch register. -/
def unparked (ctx : MoveContext) (s : MoveState) : Finset Nat :=
  s.waiting.filter (fun i => (s.move i).src ≠ ctx.scratchReg)

variable (ctx rest) in
theorem moves_emitReady (hi : i ∈ s.waiting) :
    (emitReady ctx s i rest).moves = (emitMove ctx s i rest).moves ∧
      (emitReady ctx s i rest).code = (emitMove ctx s i rest).code ∧
      (emitReady ctx s i rest).remaining = s.remaining - 1 ∧
      (emitReady ctx s i rest).ready.length ≤ rest.length + 1 := by
  rw [emitReady_of_waiting hi]
  split
  · exact ⟨rfl, rfl, rfl, Nat.le_succ _⟩
  · have hrest := release_rest (emitMove ctx s i rest) (s.move i).src
    exact ⟨release_moves _ _, hrest.2.2, hrest.2.1, release_ready_length _ _⟩

theorem Emitting.emitReady (h : Emitting ctx o n s) (hok : MovesOk ctx o n)
    (hready : s.ready = i :: rest) :
    Emitting ctx o n (emitReady ctx s i rest) ∧
      unparked ctx (emitReady ctx s i rest) ⊆ unparked ctx s ∧
      (emitReady ctx s i rest).waiting.card + (emitReady ctx s i rest).ready.length <
        s.waiting.card + s.ready.length := by
  by_cases hdone : (s.move i).done = true
  · have hnot : i ∉ s.waiting := fun hi => by simp [mem_waiting.1 hi] at hdone
    have hstep : Vm.emitReady ctx s i rest = { s with ready := rest } := by
      rw [Vm.emitReady, if_pos hdone]
    rw [hstep]
    refine ⟨⟨⟨h.counted.scratch, h.counted.count, h.counted.writer⟩, ⟨?_, ?_, h.readied.scanned⟩,
      h.remaining, fun m₀ => (h.carries m₀).congr rfl rfl⟩, Finset.Subset.refl _, ?_⟩
    · intro j hj hcount
      have hmem := h.readied.complete j hj hcount
      rw [hready] at hmem
      exact (mem_cons.1 hmem).resolve_left fun hji => hnot (hji ▸ hj)
    · intro j hj
      exact h.readied.sound j (hready ▸ mem_cons_of_mem _ hj)
    · rw [hready]
      exact Nat.lt_succ_self _
  · have hi : i ∈ s.waiting := mem_waiting.2 (by simpa using hdone)
    have hlt := (h.carries fun _ => ⟨0, 0⟩).lt hi
    have hdst : (s.move i).dst ≠ ctx.scratchReg := by
      rw [(h.carries fun _ => ⟨0, 0⟩).dst i hlt]
      exact hok.dst_ne i hlt
    have hzero := h.readied.sound i (hready ▸ mem_cons_self) hi
    obtain ⟨hmoves, hcode, hrem, hlen⟩ := moves_emitReady ctx rest hi
    have hw : (Vm.emitReady ctx s i rest).waiting = s.waiting.erase i :=
      (waiting_congr hmoves).trans (waiting_emitMove hi)
    have hcard := Finset.card_erase_add_one hi
    refine ⟨⟨h.counted.emitReady hi, h.readied.emitReady h.counted hi hready, ?_, fun m₀ => ?_⟩, ?_, ?_⟩
    · rw [hw, hrem, h.remaining]
      omega
    · exact ((h.carries m₀).emitMove hok hi (h.counted.free hdst hzero)).congr hmoves hcode
    · intro j hj
      obtain ⟨hjw, hsrc⟩ := Finset.mem_filter.1 hj
      rw [hw] at hjw
      rw [move_congr hmoves, move_emitMove hi, if_neg (Finset.ne_of_mem_erase hjw)] at hsrc
      exact Finset.mem_filter.2 ⟨Finset.mem_of_mem_erase hjw, hsrc⟩
    · rw [hw, hready, length_cons]
      omega

theorem drain_spec (hok : MovesOk ctx o n) (fuel : Nat) : ∀ s, Emitting ctx o n s →
    s.waiting.card + s.ready.length < fuel → ∃ t, drain ctx fuel s = some t ∧
      Emitting ctx o n t ∧ t.ready = [] ∧ unparked ctx t ⊆ unparked ctx s := by
  induction fuel with
  | zero => exact fun _ _ hlt => absurd hlt (Nat.not_lt_zero _)
  | succ fuel ih =>
    intro s h hlt
    rw [drain]
    split
    · rename_i hready
      exact ⟨s, rfl, h, hready, Finset.Subset.refl _⟩
    · rename_i i rest hready
      obtain ⟨hstep, hsub, hless⟩ := h.emitReady hok hready
      obtain ⟨t, ht, hemit, hempty, hsub'⟩ := ih _ hstep (by omega)
      exact ⟨t, ht, hemit, hempty, hsub'.trans hsub⟩

theorem nextWaiting_spec (h : Readied s) (hne : s.waiting.Nonempty) :
    ∃ i, nextWaiting s = some i ∧ i ∈ s.waiting ∧ ∀ j < i, j ∉ s.waiting := by
  obtain ⟨w, hw⟩ := hne
  cases hfind : nextWaiting s with
  | none =>
    have hnone := find?_eq_none.1 hfind w (mem_range.2 (lt_of_waiting hw))
    have hscan : s.scan ≤ w := not_lt.1 fun hlt => h.scanned w hlt hw
    simp [hscan, mem_waiting.1 hw] at hnone
  | some i =>
    obtain ⟨hi, -, hmin⟩ := find?_range_eq_some.1 hfind
    simp only [Bool.and_eq_true, decide_eq_true_eq, Bool.not_eq_true'] at hi
    refine ⟨i, rfl, mem_waiting.2 hi.2, fun j hj hjw => ?_⟩
    rcases Nat.lt_or_ge j s.scan with hlt | hge
    · exact h.scanned j hlt hjw
    · have hdone := hmin j hj
      simp [hge, mem_waiting.1 hjw] at hdone

theorem openCycle_spec (h : Emitting ctx o n s) (hok : MovesOk ctx o n) (hready : s.ready = [])
    (hne : s.remaining ≠ 0) : ∃ t, openCycle ctx s = some t ∧ Emitting ctx o n t ∧
      (unparked ctx t).card < (unparked ctx s).card := by
  have hnonempty : s.waiting.Nonempty := Finset.card_ne_zero.1 (h.remaining ▸ hne)
  obtain ⟨i, hnext, hi, hbefore⟩ := nextWaiting_spec h.readied hnonempty
  have hdst : ∀ j ∈ s.waiting, (s.move j).dst ≠ ctx.scratchReg := by
    intro j hj
    have hlt := (h.carries fun _ => ⟨0, 0⟩).lt hj
    rw [(h.carries fun _ => ⟨0, 0⟩).dst j hlt]
    exact hok.dst_ne j hlt
  have hstuck := src_ne_scratch_of_stuck h.counted h.readied hready hdst
  have hw : (Vm.parkMove ctx s i).waiting = s.waiting := waiting_parkMove hi
  have hdstEq : ∀ j, ((parkMove ctx s i).move j).dst = (s.move j).dst := by
    intro j
    rw [move_parkMove hi]
    split
    · rename_i hj
      rw [hj]
    · rfl
  have hwriter : ∀ {q j}, (parkMove ctx s i).writerOf q = some j ↔
      j ∈ (parkMove ctx s i).waiting ∧ ((parkMove ctx s i).move j).dst = q := by
    intro q j
    rw [hw, hdstEq]
    exact h.counted.writer
  have hreaders : ∀ q, q ≠ ctx.scratchReg →
      (parkMove ctx s i).readers q = (s.readers q).erase i := by
    intro q hq
    ext j
    rw [mem_readers, hw, Finset.mem_erase, mem_readers, move_parkMove hi]
    by_cases hj : j = i
    · rw [if_pos hj]
      exact iff_of_false (fun hsrc => hq hsrc.2.symm) (fun hne => hne.1 hj)
    · rw [if_neg hj]
      exact (and_iff_right hj).symm
  have hmoves := release_moves (parkMove ctx s i) (s.move i).src
  have hrest := release_rest (parkMove ctx s i) (s.move i).src
  refine ⟨release (parkMove ctx s i) (s.move i).src, ?_, ⟨?_, ?_, ?_, fun m₀ => ?_⟩, ?_⟩
  · rw [openCycle, hnext, Option.map_some]
  · exact h.counted.release (hstuck i hi) (mem_readers.2 ⟨hi, rfl⟩) rfl hreaders hwriter
  · refine Readied.release ?_ ?_ hwriter ?_
    · intro j hj _ hcount
      rw [hw] at hj
      rw [hdstEq] at hcount
      exact h.readied.complete j hj hcount
    · intro j hj
      exact absurd (hready ▸ hj : j ∈ []) not_mem_nil
    · intro j hj
      rw [hw]
      exact hbefore j hj
  · rw [hrest.2.1, waiting_congr hmoves, hw]
    exact h.remaining
  · exact ((h.carries m₀).parkMove hok hi hstuck).congr hmoves hrest.2.2
  · refine Finset.card_lt_card ⟨fun j hj => ?_, fun hsub => ?_⟩
    · obtain ⟨hjw, -⟩ := Finset.mem_filter.1 hj
      rw [waiting_congr hmoves, hw] at hjw
      exact Finset.mem_filter.2 ⟨hjw, hstuck j hjw⟩
    · have hmem := hsub (Finset.mem_filter.2 ⟨hi, hstuck i hi⟩)
      have hsrc := (Finset.mem_filter.1 hmem).2
      rw [move_congr hmoves, move_parkMove hi, if_pos rfl] at hsrc
      exact hsrc rfl

theorem moveLoop_spec (hok : MovesOk ctx o n) (fuel : Nat) : ∀ s, Emitting ctx o n s →
    (unparked ctx s).card < fuel → ∃ t, moveLoop ctx fuel s = some t ∧
      Emitting ctx o n t ∧ t.remaining = 0 := by
  induction fuel with
  | zero => exact fun _ _ hlt => absurd hlt (Nat.not_lt_zero _)
  | succ fuel ih =>
    intro s h hlt
    rw [moveLoop]
    by_cases hzero : s.remaining = 0
    · rw [if_pos hzero]
      exact ⟨s, rfl, h, hzero⟩
    rw [if_neg hzero]
    have hwaiting : s.waiting.card ≤ s.moves.length :=
      (Finset.card_filter_le _ _).trans_eq (Finset.card_range _)
    obtain ⟨t, ht, hemit, hempty, hsub⟩ :=
      drain_spec hok (s.ready.length + s.moves.length + 1) s h (by omega)
    rw [ht]
    change ∃ u, (if t.remaining = 0 then some t else _) = some u ∧ _
    by_cases hzero : t.remaining = 0
    · rw [if_pos hzero]
      exact ⟨t, rfl, hemit, hzero⟩
    rw [if_neg hzero]
    obtain ⟨u, hu, hopened, hless⟩ := openCycle_spec hemit hok hempty hzero
    rw [hu]
    have hcard := Finset.card_le_card hsub
    exact ih u hopened (by omega)

end Steps

end Brass.Vm
