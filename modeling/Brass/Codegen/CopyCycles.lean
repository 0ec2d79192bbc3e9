import Mathlib.Data.Fintype.Card
import Mathlib.Data.List.Chain
import Brass.Codegen.CopyProgress

/-!
# The moves that wait

Peeling makes every move whose destination no move that waits reads. When it can make no more,
each destination that waits is read by exactly one move that waits (`Stuck.reader`), so what is
left are cycles, and `trace_cycle` finds one (`traceCycle_spec`).
-/

namespace Brass.Codegen.Copy

open List Emission

/-! ## The moves that wait -/

namespace Emission

variable {st : Emission} {i j : Nat}

def waiting (st : Emission) : Finset Nat :=
  (Finset.range st.moves.length).filter (fun i => (st.move i).done = false)

theorem mem_waiting : i ∈ st.waiting ↔ i < st.moves.length ∧ (st.move i).done = false := by
  simp [waiting]

theorem move_eq (h : i < st.moves.length) : st.moves[i]? = some (st.move i) := by
  rw [move, getD_eq_getElem?_getD, getElem?_eq_getElem h]
  rfl

theorem move_modify (h : i < st.moves.length) (f : CopyMove → CopyMove) (code : List CopyInst) :
    move ⟨st.moves.modify i f, code⟩ j = if j = i then f (st.move i) else st.move j := by
  rw [move, getD_eq_getElem?_getD, getElem?_modify]
  by_cases hj : i = j
  · subst hj
    rw [if_pos rfl, move_eq h]
    simp
  · rw [if_neg (fun h => hj h.symm), move, getD_eq_getElem?_getD]
    simp [hj]

@[simp] theorem length_emit (code : List CopyInst) : (st.emit code).moves.length = st.moves.length :=
  rfl

@[simp] theorem length_finish : (st.finish i).moves.length = st.moves.length :=
  length_modify ..

@[simp] theorem length_setSrc (src : CopyOperand) :
    (st.setSrc i src).moves.length = st.moves.length := length_modify ..

@[simp] theorem move_emit (code : List CopyInst) : (st.emit code).move j = st.move j := rfl

section

variable (h : i < st.moves.length)
include h

theorem move_finish :
    (st.finish i).move j = if j = i then { st.move i with done := true } else st.move j :=
  move_modify h _ _

theorem move_setSrc (src : CopyOperand) :
    (st.setSrc i src).move j = if j = i then { st.move i with src := src } else st.move j :=
  move_modify h _ _

theorem done_finish : (fun j => ((st.finish i).move j).done) =
    Function.update (fun j => (st.move j).done) i true := by
  funext j
  rw [move_finish h, Function.update_apply]
  split <;> rfl

theorem src_finish : ((st.finish i).move j).src = (st.move j).src := by
  rw [move_finish h]
  split
  · rename_i hj
    rw [hj]
  · rfl

theorem dst_finish : ((st.finish i).move j).dst = (st.move j).dst := by
  rw [move_finish h]
  split
  · rename_i hj
    rw [hj]
  · rfl

theorem waiting_finish : (st.finish i).waiting = st.waiting.erase i := by
  ext j
  rw [Finset.mem_erase, mem_waiting, mem_waiting, length_finish, move_finish h]
  by_cases hj : j = i
  · simp [hj]
  · simp [hj]

end

@[simp] theorem waiting_emit (code : List CopyInst) : (st.emit code).waiting = st.waiting := rfl

theorem waiting_setSrc (h : i < st.moves.length) (src : CopyOperand) :
    (st.setSrc i src).waiting = st.waiting := by
  ext j
  rw [mem_waiting, mem_waiting, length_setSrc, move_setSrc h]
  by_cases hj : j = i
  · simp [hj]
  · simp [hj]

theorem exists_move_of_mem {m : CopyMove} (h : m ∈ st.moves) :
    ∃ j, j < st.moves.length ∧ st.move j = m := by
  obtain ⟨j, hj, rfl⟩ := mem_iff_getElem.mp h
  exact ⟨j, hj, by rw [move, getD_eq_getElem?_getD, getElem?_eq_getElem hj]; rfl⟩

theorem move_mem (h : i < st.moves.length) : st.move i ∈ st.moves :=
  mem_of_getElem? (move_eq h)

theorem dstUsed_iff {m : CopyMove} :
    st.dstUsed m = true ↔ ∃ j ∈ st.waiting, sameLoc m.dst (st.move j).src = true := by
  rw [dstUsed, any_eq_true]
  constructor
  · rintro ⟨other, hmem, hother⟩
    obtain ⟨j, hj, rfl⟩ := exists_move_of_mem hmem
    rw [Bool.and_eq_true, Bool.not_eq_true'] at hother
    exact ⟨j, mem_waiting.mpr ⟨hj, hother.1⟩, hother.2⟩
  · rintro ⟨j, hj, hsame⟩
    obtain ⟨hlt, hdone⟩ := mem_waiting.mp hj
    exact ⟨st.move j, move_mem hlt, by rw [hdone, hsame]; rfl⟩

end Emission

/-! ## The invariant of the loops -/

structure Inv (L : Layout) (moves : List CopyMove) (m₀ : Machine) (st : Emission) : Prop where
  length : st.moves.length = moves.length
  dst : ∀ i, (st.move i).dst = (moves.getD i default).dst
  progress : Progress L moves m₀ (fun i => (st.move i).done) (fun i => (st.move i).src)
    (run st.code m₀)

section Run

variable {L : Layout} {moves : List CopyMove} {m₀ : Machine} {st : Emission} {i j : Nat}

theorem Inv.lt (h : Inv L moves m₀ st) (hi : i ∈ st.waiting) : i < moves.length :=
  h.length ▸ (mem_waiting.mp hi).1

theorem Inv.finish {code : List CopyInst} (h : Inv L moves m₀ st) (hi : i < moves.length)
    (hp : Progress L moves m₀ (Function.update (fun j => (st.move j).done) i true)
      (fun i => (st.move i).src) (run code (run st.code m₀))) :
    Inv L moves m₀ ((st.emit code).finish i) := by
  have hlt : i < (st.emit code).moves.length := by
    rw [length_emit, h.length]
    exact hi
  refine ⟨by simp [h.length], fun j => ?_, ?_⟩
  · rw [dst_finish hlt, move_emit, h.dst]
  · have hcode : run ((st.emit code).finish i).code m₀ = run code (run st.code m₀) :=
      run_append st.code code m₀
    rw [hcode, done_finish hlt]
    simp only [src_finish hlt, move_emit]
    exact hp

theorem Inv.setSrc {code : List CopyInst} {src : CopyOperand} (h : Inv L moves m₀ st)
    (hi : i < moves.length)
    (hp : Progress L moves m₀ (fun j => (st.move j).done)
      (Function.update (fun i => (st.move i).src) i src) (run code (run st.code m₀))) :
    Inv L moves m₀ ((st.emit code).setSrc i src) := by
  have hlt : i < (st.emit code).moves.length := by
    rw [length_emit, h.length]
    exact hi
  have hmove := fun j => move_setSrc (j := j) hlt src
  refine ⟨by simp [h.length], fun j => ?_, ?_⟩
  · rw [hmove]
    split
    · rename_i hj
      rw [hj]
      exact h.dst i
    · exact h.dst j
  · have hcode : run ((st.emit code).setSrc i src).code m₀ = run code (run st.code m₀) :=
      run_append st.code code m₀
    have hdone : (fun j => (((st.emit code).setSrc i src).move j).done) =
        fun j => (st.move j).done := by
      funext j
      rw [hmove]
      split
      · rename_i hj
        rw [hj]
        rfl
      · rfl
    have hsrc : (fun j => (((st.emit code).setSrc i src).move j).src) =
        Function.update (fun i => (st.move i).src) i src := by
      funext j
      rw [hmove, Function.update_apply]
      split <;> rfl
    rw [hcode, hdone, hsrc]
    exact hp

theorem Inv.emit (hl : Legal L moves) (h : Inv L moves m₀ st) (hi : i ∈ st.waiting)
    (hunread : ∀ j ∈ st.waiting, j ≠ i → sameLoc (st.move i).dst (st.move j).src = false)
    {src : CopyOperand} (hk : src.kind = (st.move i).src.kind)
    (hemit : Emittable L (st.move i).dst src) :
    Inv L moves m₀ ((st.emit (emitMove L.addr (st.move i).dst src)).finish i) := by
  refine h.finish (h.lt hi) (h.progress.emit hl (h.lt hi) (mem_waiting.mp hi).2 ?_ ?_)
  · intro j hj hji hdj
    rw [← h.dst]
    exact hunread j (mem_waiting.mpr ⟨h.length ▸ hj, hdj⟩) hji
  · have hmoves := emitMove_spec (m := run st.code m₀) hemit
    rw [hk, h.dst] at hmoves
    rwa [h.dst]

theorem Inv.emittable (hl : Legal L moves) (h : Inv L moves m₀ st) (hi : i ∈ st.waiting) :
    Emittable L (st.move i).dst (st.move i).src := by
  rw [h.dst]
  rcases h.progress.waits i (h.lt hi) (mem_waiting.mp hi).2 with hsrc | ⟨-, hemit, -⟩
  · rw [hsrc]
    exact (hl.legal i (h.lt hi)).emittable
  · exact hemit

/-! ## Peeling -/

/-- What a pass that has looked at the moves `seen` has done. -/
structure Peeled (L : Layout) (moves : List CopyMove) (m₀ : Machine) (st : Emission)
    (seen : List Nat) (r : Emission × Bool) : Prop where
  inv : Inv L moves m₀ r.1
  src : ∀ i, (r.1.move i).src = (st.move i).src
  waiting : r.1.waiting ⊆ st.waiting
  idle : r.2 = false → r.1 = st ∧ ∀ i ∈ seen, i ∈ st.waiting → st.dstUsed (st.move i) = true
  moved : r.2 = true → r.1.waiting.card < st.waiting.card

theorem Peeled.step (hl : Legal L moves) {seen : List Nat} {r : Emission × Bool}
    (h : Peeled L moves m₀ st seen r) (hi : i < moves.length) :
    Peeled L moves m₀ st (seen ++ [i]) (peelStep L.addr r i) := by
  have hlen : i < r.1.moves.length := h.inv.length ▸ hi
  unfold peelStep
  dsimp only
  split
  · rename_i hskip
    refine ⟨h.inv, h.src, h.waiting, fun hr => ⟨(h.idle hr).1, fun j hj hwait => ?_⟩, h.moved⟩
    rcases mem_append.mp hj with hj | hj
    · exact (h.idle hr).2 j hj hwait
    · obtain rfl := mem_singleton.mp hj
      rw [(h.idle hr).1, (mem_waiting.mp hwait).2, Bool.false_or] at hskip
      exact hskip
  · rename_i hgo
    rw [Bool.or_eq_true, not_or, Bool.not_eq_true, Bool.not_eq_true] at hgo
    have hwait : i ∈ r.1.waiting := mem_waiting.mpr ⟨hlen, hgo.1⟩
    have hunread : ∀ j ∈ r.1.waiting, j ≠ i →
        sameLoc (r.1.move i).dst (r.1.move j).src = false := by
      intro j hj _
      rw [Bool.eq_false_iff]
      intro hsame
      have hused := dstUsed_iff.mpr ⟨j, hj, hsame⟩
      rw [hgo.2] at hused
      exact absurd hused (by decide)
    have hw : ((r.1.emit (emitMove L.addr (r.1.move i).dst (r.1.move i).src)).finish i).waiting =
        r.1.waiting.erase i := waiting_finish hlen
    refine ⟨h.inv.emit hl hwait hunread rfl (h.inv.emittable hl hwait), fun j => ?_, ?_,
      fun hr => absurd hr (by simp), fun _ => ?_⟩
    · exact (src_finish hlen).trans (h.src j)
    · rw [hw]
      exact (Finset.erase_subset _ _).trans h.waiting
    · rw [hw]
      exact Nat.lt_of_lt_of_le (Finset.card_erase_lt_of_mem hwait) (Finset.card_le_card h.waiting)

theorem peelAcyclic_spec (hl : Legal L moves) (h : Inv L moves m₀ st) :
    Peeled L moves m₀ st (range moves.length) (peelAcyclic L.addr st) := by
  have hfold : ∀ (todo seen : List Nat) (r : Emission × Bool), (∀ i ∈ todo, i < moves.length) →
      Peeled L moves m₀ st seen r →
      Peeled L moves m₀ st (seen ++ todo) (todo.foldl (peelStep L.addr) r) := by
    intro todo
    induction todo with
    | nil =>
      intro seen r _ hr
      rwa [append_nil]
    | cons i todo ih =>
      intro seen r htodo hr
      have hstep := hr.step hl (htodo i mem_cons_self)
      have hrest := ih _ _ (fun j hj => htodo j (mem_cons_of_mem _ hj)) hstep
      rwa [append_assoc, singleton_append] at hrest
  have hstart : Peeled L moves m₀ st [] (st, false) :=
    ⟨h, fun _ => rfl, Finset.Subset.refl _, fun _ => ⟨rfl, by simp⟩, fun hr => absurd hr (by simp)⟩
  have hpass := hfold (range st.moves.length) [] _ (fun i hi => h.length ▸ mem_range.mp hi) hstart
  rw [nil_append, h.length] at hpass
  rw [peelAcyclic, h.length]
  exact hpass

/-- Every destination that waits is read by a move that waits. -/
def Stuck (st : Emission) : Prop := ∀ i ∈ st.waiting, st.dstUsed (st.move i) = true

theorem peelAll_spec (hl : Legal L moves) (fuel : Nat) : ∀ st, Inv L moves m₀ st →
    st.waiting.card < fuel → ∃ st', peelAll L.addr fuel st = some st' ∧ Inv L moves m₀ st' ∧
      (∀ i, (st'.move i).src = (st.move i).src) ∧ st'.waiting ⊆ st.waiting ∧ Stuck st' := by
  induction fuel with
  | zero => exact fun st _ hfuel => absurd hfuel (Nat.not_lt_zero _)
  | succ fuel ih =>
    intro st h hfuel
    have hpass := peelAcyclic_spec hl h
    rw [peelAll]
    cases hr : (peelAcyclic L.addr st).2 with
    | false =>
      obtain ⟨hsame, hused⟩ := hpass.idle hr
      refine ⟨st, ?_, h, fun _ => rfl, Finset.Subset.refl _, fun i hi => ?_⟩
      · rw [hsame]
        rfl
      · exact hused i (mem_range.mpr (h.lt hi)) hi
    | true =>
      have hlt := hpass.moved hr
      obtain ⟨st', hst', hinv, hsrc, hsub, hstuck⟩ := ih _ hpass.inv (by omega)
      exact ⟨st', hst', hinv, fun i => (hsrc i).trans (hpass.src i), hsub.trans hpass.waiting, hstuck⟩

/-! ## What is left is cycles -/

/-- No move that waits reads a scratch register. -/
def Plain (moves : List CopyMove) (st : Emission) : Prop :=
  ∀ i ∈ st.waiting, (st.move i).src = (moves.getD i default).src

section

variable (hl : Legal L moves) (h : Inv L moves m₀ st)
include hl h

theorem writer_unique {k : CopyOperand}
    (hi : i ∈ st.waiting) (hj : j ∈ st.waiting) (hki : sameLoc (st.move i).dst k = true)
    (hkj : sameLoc (st.move j).dst k = true) : i = j := by
  by_contra hne
  obtain ⟨hi', hnot⟩ := sameLoc_iff.mp hki
  obtain ⟨hj', -⟩ := sameLoc_iff.mp hkj
  have hdiff := hl.distinct i (h.lt hi) j (h.lt hj) hne
  rw [← h.dst, ← h.dst, Bool.eq_false_iff] at hdiff
  exact hdiff (sameLoc_iff.mpr ⟨hi'.trans hj'.symm, hnot⟩)

/-- Each of the moves that wait reads one destination, and each destination is read by one. -/
theorem Stuck.reader (hs : Stuck st) : ∃ r : Nat → Nat, Set.SurjOn r st.waiting st.waiting ∧
      ∀ i ∈ st.waiting, sameLoc (st.move i).dst (st.move (r i)).src = true := by
  have hread : ∀ i, ∃ j, i ∈ st.waiting →
      j ∈ st.waiting ∧ sameLoc (st.move i).dst (st.move j).src = true := by
    intro i
    by_cases hi : i ∈ st.waiting
    · obtain ⟨j, hj, hsame⟩ := dstUsed_iff.mp (hs i hi)
      exact ⟨j, fun _ => ⟨hj, hsame⟩⟩
    · exact ⟨i, fun h => absurd h hi⟩
  choose r hr using hread
  refine ⟨r, Finset.surjOn_of_injOn_of_card_le r (fun i hi => (hr i hi).1) ?_ (Nat.le_refl _),
    fun i hi => (hr i hi).2⟩
  intro i hi j hj hij
  refine writer_unique hl h hi hj (hr i hi).2 ?_
  rw [hij]
  exact (hr j hj).2

theorem Stuck.written (hs : Stuck st) (hj : j ∈ st.waiting) :
    ∃ i ∈ st.waiting, sameLoc (st.move i).dst (st.move j).src = true := by
  obtain ⟨r, hsurj, hr⟩ := hs.reader hl h
  obtain ⟨i, hi, rfl⟩ := hsurj hj
  exact ⟨i, hi, hr i hi⟩

theorem Stuck.reader_unique (hs : Stuck st)
    {k : Nat} (hi : i ∈ st.waiting) (hj : j ∈ st.waiting) (hk : k ∈ st.waiting)
    (hij : sameLoc (st.move i).dst (st.move j).src = true)
    (hik : sameLoc (st.move i).dst (st.move k).src = true) : j = k := by
  obtain ⟨r, hsurj, hr⟩ := hs.reader hl h
  obtain ⟨a, ha, rfl⟩ := hsurj hj
  obtain ⟨b, hb, rfl⟩ := hsurj hk
  rw [← writer_unique hl h hi ha hij (hr a ha), ← writer_unique hl h hi hb hik (hr b hb)]

theorem Stuck.plain (hs : Stuck st) : Plain moves st := by
  intro j hj
  rcases h.progress.waits j (h.lt hj) (mem_waiting.mp hj).2 with hsrc | ⟨hpark, -⟩
  · exact hsrc
  · obtain ⟨i, hi, hsame⟩ := hs.written hl h hj
    obtain ⟨hkind, -⟩ := sameLoc_iff.mp hsame
    rw [h.dst] at hkind
    rcases hpark with hk | hk <;> rw [hk] at hkind
    · exact absurd (Or.inl rfl) ((hl.legal i (h.lt hi)).dstReg _ hkind)
    · exact absurd (Or.inr (Or.inr (Or.inl rfl))) ((hl.legal i (h.lt hi)).dstReg _ hkind)

end

theorem nextInCycle_eq_some (h : nextInCycle st j = some i) :
    i ∈ st.waiting ∧ sameLoc (st.move i).dst (st.move j).src = true := by
  obtain ⟨hlt, hp, -⟩ := findIdx?_eq_some_iff_getElem.mp h
  have hmove : st.moves[i] = st.move i := by
    have := move_eq hlt
    rwa [getElem?_eq_getElem hlt, Option.some_inj] at this
  rw [hmove, Bool.and_eq_true, Bool.not_eq_true'] at hp
  exact ⟨mem_waiting.mpr ⟨hlt, hp.1⟩, hp.2⟩

theorem Stuck.next (hl : Legal L moves) (h : Inv L moves m₀ st) (hs : Stuck st)
    (hj : j ∈ st.waiting) : ∃ i, nextInCycle st j = some i := by
  obtain ⟨i, hi, hsame⟩ := hs.written hl h hj
  obtain ⟨hlt, hdone⟩ := mem_waiting.mp hi
  rw [← Option.isSome_iff_exists, nextInCycle, findIdx?_isSome, any_eq_true]
  exact ⟨st.move i, move_mem hlt, by rw [hdone, hsame]; rfl⟩

/-! ## Tracing a cycle -/

/-- The moves from `start` to `curr`, each of which reads what the next one writes. -/
structure Path (st : Emission) (start curr : Nat) (cycle : List Nat) : Prop where
  nodup : (cycle ++ [curr]).Nodup
  subset : ∀ i ∈ cycle ++ [curr], i ∈ st.waiting
  chain : (cycle ++ [curr]).IsChain (fun i j => nextInCycle st i = some j)
  head : (cycle ++ [curr]).head? = some start

/-- A path whose last move reads the first destination. -/
structure Cycle (st : Emission) (start last : Nat) (cycle : List Nat) : Prop
    extends Path st start last cycle where
  closed : nextInCycle st last = some start

theorem exists_before {α : Type} {R : α → α → Prop} {l : List α} {a x : α}
    (h : (l ++ [a]).IsChain R) (hx : x ∈ l ++ [a]) (hne : (l ++ [a]).head? ≠ some x) :
    ∃ y ∈ l, R y x := by
  induction l with
  | nil =>
    obtain rfl : x = a := by simpa using hx
    exact absurd rfl hne
  | cons b l ih =>
    have hxb : x ≠ b := by
      rintro rfl
      exact hne rfl
    have hxl : x ∈ l ++ [a] := (mem_cons.mp hx).resolve_left hxb
    rw [cons_append, isChain_cons] at h
    by_cases hhead : (l ++ [a]).head? = some x
    · exact ⟨b, mem_cons_self, h.1 x hhead⟩
    · obtain ⟨y, hy, hyx⟩ := ih h.2 hxl hhead
      exact ⟨y, mem_cons_of_mem _ hy, hyx⟩

theorem Path.length_le {start curr : Nat} {cycle : List Nat} (h : Path st start curr cycle) :
    cycle.length + 1 ≤ st.waiting.card := by
  have hsub : (cycle ++ [curr]).toFinset ⊆ st.waiting := fun i hi =>
    h.subset i (mem_toFinset.mp hi)
  have hcard := Finset.card_le_card hsub
  rwa [toFinset_card_of_nodup h.nodup, length_append, length_singleton] at hcard

theorem traceCycle_spec (hl : Legal L moves) (h : Inv L moves m₀ st) (hs : Stuck st)
    {start : Nat} (fuel : Nat) : ∀ cycle curr, Path st start curr cycle →
    st.waiting.card < fuel + cycle.length → ∃ c last,
      traceCycle st start fuel cycle curr = some (c ++ [last]) ∧ Cycle st start last c := by
  induction fuel with
  | zero =>
    intro cycle curr hpath hfuel
    have hle := hpath.length_le
    omega
  | succ fuel ih =>
    intro cycle curr hpath hfuel
    have hcurr : curr ∈ st.waiting := hpath.subset curr (by simp)
    obtain ⟨next, hnext⟩ := hs.next hl h hcurr
    obtain ⟨hwait, hsame⟩ := nextInCycle_eq_some hnext
    rw [traceCycle]
    simp only [hnext]
    split
    · rename_i hstop
      refine ⟨cycle, curr, rfl, hpath, ?_⟩
      rw [hnext, Option.some_inj]
      by_contra hne
      -- The move before `next` on the path would read the same destination as `curr`.
      obtain ⟨y, hy, hyn⟩ := exists_before hpath.chain (hstop.resolve_left hne)
        (fun hhead => hne (Option.some_inj.mp (hhead.symm.trans hpath.head)))
      have hyc := hs.reader_unique hl h hwait (hpath.subset y (mem_append_left _ hy)) hcurr
        (nextInCycle_eq_some hyn).2 hsame
      exact (nodup_append.mp hpath.nodup).2.2 y hy curr (by simp) hyc
    · rename_i hgo
      rw [not_or] at hgo
      refine ih (cycle ++ [curr]) next ⟨?_, fun i hi => ?_, ?_, ?_⟩ ?_
      · refine nodup_append.mpr ⟨hpath.nodup, by simp, fun a ha b hb => ?_⟩
        obtain rfl := mem_singleton.mp hb
        rintro rfl
        exact hgo.2 ha
      · rcases mem_append.mp hi with hi | hi
        · exact hpath.subset i hi
        · rwa [mem_singleton.mp hi]
      · refine isChain_append.mpr ⟨hpath.chain, isChain_singleton _, ?_⟩
        intro x hx y hy
        simp only [getLast?_concat, Option.mem_def, Option.some_inj] at hx
        simp only [head?_cons, Option.mem_def, Option.some_inj] at hy
        rw [← hx, ← hy]
        exact hnext
      · rw [head?_append, hpath.head]
        rfl
      · rw [length_append, length_singleton]
        omega

end Run

end Brass.Codegen.Copy
