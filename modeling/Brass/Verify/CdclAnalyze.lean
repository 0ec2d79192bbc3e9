import Brass.Verify.CdclPropagate

/-!
# Conflict analysis

The clause that `analyze` builds is a resolvent of clauses of the solver. While it is
built, its literals are the learnt ones, the negations of the marked literals of the
current level before `index`, and the literals of the clause that is being read
(`Resolving`). At the end one literal of the current level is left.
-/

namespace Brass.Verify.Cdcl

open Function (update update_of_ne update_self)

open Brass.Util.Cnf List

variable {D : Doubles}

namespace Solver

/-- The state `s` with other marks and activities. -/
def marked (s : Solver D) (seen : Nat → Bool) (activity : Nat → D.carrier) : Solver D :=
  { s with seen := seen, activity := activity }

def isOpen (s : Solver D) (seen : Nat → Bool) (l : Lit) : Bool :=
  seen l.var && decide (s.level l.var = s.decisionLevel)

theorem isOpen_iff {s : Solver D} {seen : Nat → Bool} {l : Lit} :
    s.isOpen seen l = true ↔ seen l.var = true ∧ s.level l.var = s.decisionLevel := by
  simp [isOpen]

theorem isOpen_update_of_ne {s : Solver D} {seen : Nat → Bool} {l : Lit} {v : Nat} (b : Bool)
    (h : l.var ≠ v) : s.isOpen (update seen v b) l = s.isOpen seen l := by
  simp [isOpen, h]

def openCount (s : Solver D) (seen : Nat → Bool) (index : Nat) : Nat :=
  (s.trail.take index).countP (s.isOpen seen)

/-- The resolvent so far: `lits` are the literals still to be read. -/
structure Resolving (s : Solver D) (index : Nat) (lits : List Lit) (a : Analysis D) : Prop where
  solver : a.solver = s.marked a.solver.seen a.solver.activity
  activity : ∀ v, D.NonNeg (a.solver.activity v)
  indexLe : index ≤ s.trail.length
  falsified : ∀ q ∈ lits, q.neg ∈ s.trail.take index
  learnt : ∀ q ∈ a.learnt, q.neg ∈ s.trail ∧ 0 < s.level q.var ∧ s.level q.var < s.decisionLevel ∧
    a.solver.seen q.var = true
  nodup : (a.learnt.map Lit.var).Nodup
  marks : ∀ v, a.solver.seen v = true → v ∈ a.learnt.map Lit.var ∨
    ∃ l ∈ s.trail.take index, l.var = v ∧ s.level v = s.decisionLevel
  count : a.pathC = s.openCount a.solver.seen index
  implied : ∀ α, Models s.added α → Satisfies α a.learnt ∨ Satisfies α lits ∨
    ∃ l ∈ s.trail.take index, s.isOpen a.solver.seen l = true ∧ litTrue α l = false

theorem openCount_mark {s : Solver D} (hc : s.Core) {seen : Nat → Bool} {q : Lit} {index : Nat}
    (hq : q.neg ∈ s.trail.take index) (hns : seen q.var = false)
    (hlev : s.level q.var = s.decisionLevel) :
    s.openCount (update seen q.var true) index = s.openCount seen index + 1 := by
  have hnodup : ((s.trail.take index).map Lit.var).Nodup := by
    rw [map_take]
    exact hc.vars_nodup.sublist (take_sublist _ _)
  unfold openCount
  generalize s.trail.take index = xs at hq hnodup ⊢
  induction xs with
  | nil => cases hq
  | cons x xs ih =>
    obtain ⟨hx, hxs⟩ := nodup_cons.mp hnodup
    rw [countP_cons, countP_cons]
    rcases mem_cons.mp hq with rfl | hq
    · -- The other literals have other variables, so their marks stay.
      have hrest : xs.countP (s.isOpen (update seen q.var true)) = xs.countP (s.isOpen seen) := by
        refine countP_congr (fun l hl => ?_)
        have hne : l.var ≠ q.var := fun h => hx (mem_map.mpr ⟨l, hl, h⟩)
        rw [isOpen_update_of_ne true hne]
      rw [hrest]
      simp [isOpen, hns, hlev]
    · have hne : x.var ≠ q.var := fun h => hx (mem_map.mpr ⟨q.neg, hq, h.symm⟩)
      rw [ih hq hxs, isOpen_update_of_ne true hne]
      omega

theorem Core.eq_of_neg {s : Solver D} (hc : s.Core) {a b : Lit} (ha : a.neg ∈ s.trail)
    (hb : b.neg ∈ s.trail) (hv : a.var = b.var) : a = b :=
  Lit.neg_inj.mp (hc.eq_of_var ha hb hv)

namespace Resolving

variable {s : Solver D} {index : Nat} {q : Lit} {lits : List Lit} {a : Analysis D}

section

variable (h : s.Resolving index lits a)
include h

theorem level_eq : a.solver.level = s.level := by rw [h.solver]; rfl
theorem trail_eq : a.solver.trail = s.trail := by rw [h.solver]; rfl
theorem reason_eq : a.solver.reason = s.reason := by
  rw [h.solver]; rfl
theorem clauses_eq : a.solver.clauses = s.clauses := by
  rw [h.solver]; rfl
theorem varInc_eq : a.solver.varInc = s.varInc := by
  rw [h.solver]; rfl

end

theorem neg_mem (h : s.Resolving index (q :: lits) a) : q.neg ∈ s.trail :=
  (List.take_prefix _ _).subset (h.falsified q (by simp))

theorem skip (h : s.Resolving index (q :: lits) a)
    (hq : ∀ α, Models s.added α → litTrue α q = true → Satisfies α a.learnt ∨
      ∃ l ∈ s.trail.take index, s.isOpen a.solver.seen l = true ∧ litTrue α l = false) :
    s.Resolving index lits a :=
  { h with
    falsified := fun x hx => h.falsified x (mem_cons_of_mem _ hx)
    implied := by
      intro α hα
      rcases h.implied α hα with h₁ | ⟨x, hx, ht⟩ | h₃
      · exact .inl h₁
      · rcases mem_cons.mp hx with rfl | hx
        · rcases hq α hα ht with h₁ | h₂
          · exact .inl h₁
          · exact .inr (.inr h₂)
        · exact .inr (.inl ⟨x, hx, ht⟩)
      · exact .inr (.inr h₃) }

theorem skip_seen (hc : s.Core) (h : s.Resolving index (q :: lits) a)
    (hs : a.solver.seen q.var = true) : s.Resolving index lits a := by
  refine h.skip (fun α _ ht => ?_)
  rcases h.marks _ hs with hl | ⟨l, hl, hv, hlev⟩
  · obtain ⟨x, hx, hxv⟩ := mem_map.mp hl
    rw [← hc.eq_of_neg (h.learnt x hx).1 h.neg_mem hxv] at ht
    exact .inl ⟨x, hx, ht⟩
  · refine .inr ⟨l, hl, isOpen_iff.mpr ⟨by rw [hv]; exact hs, by rw [hv]; exact hlev⟩, ?_⟩
    obtain rfl : l = q.neg := hc.eq_of_var ((List.take_prefix _ _).subset hl) h.neg_mem hv
    rw [litTrue_neg, ht]
    rfl

theorem skip_root (hc : s.Core) (h : s.Resolving index (q :: lits) a)
    (h0 : s.level q.var = 0) : s.Resolving index lits a := by
  refine h.skip (fun α hα ht => ?_)
  have := satisfies_singleton.mp (hc.root_implied h.neg_mem h0 α hα)
  rw [litTrue_neg, ht] at this
  cases this

@[simp] theorem mark_seen (a : Analysis D) (q : Lit) :
    (mark a q).seen = update a.solver.seen q.var true := rfl

theorem mark_activity_eq (a : Analysis D) (q : Lit) :
    (mark a q).activity = update a.solver.activity q.var
      (D.add (a.solver.activity q.var) a.solver.varInc) := rfl

theorem mark_solver (h : s.Resolving index lits a) :
    mark a q = s.marked (mark a q).seen (mark a q).activity := by
  unfold mark
  rw [h.solver]
  rfl

theorem mark_activity (hc : s.Core) (h : s.Resolving index lits a) (v : Nat) :
    D.NonNeg ((mark a q).activity v) := by
  rw [mark_activity_eq]
  by_cases hv : v = q.var
  · subst hv
    rw [update_self, h.varInc_eq]
    exact D.nonNeg_add (h.activity _) hc.varInc
  · rw [update_of_ne hv]
    exact h.activity v

theorem open_mark {x : Lit} (ho : s.isOpen a.solver.seen x = true) :
    s.isOpen (mark a q).seen x = true := by
  rw [isOpen_iff] at ho ⊢
  refine ⟨?_, ho.2⟩
  rw [mark_seen]
  by_cases hx : x.var = q.var
  · rw [hx, update_self]
  · rw [update_of_ne hx]
    exact ho.1

section

variable (hc : s.Core) (h : s.Resolving index (q :: lits) a)
include hc h

theorem mark_current (hns : a.solver.seen q.var = false) (hlev : s.level q.var = s.decisionLevel) :
    s.Resolving index lits ⟨mark a q, a.learnt, a.pathC + 1⟩ where
  solver := h.mark_solver
  activity := h.mark_activity hc
  indexLe := h.indexLe
  falsified := fun x hx => h.falsified x (mem_cons_of_mem _ hx)
  learnt := by
    intro x hx
    obtain ⟨h₁, h₂, h₃, h₄⟩ := h.learnt x hx
    have hne : x.var ≠ q.var := by
      intro heq
      rw [heq] at h₃
      omega
    refine ⟨h₁, h₂, h₃, ?_⟩
    simp only [mark_seen, update_of_ne hne]
    exact h₄
  nodup := h.nodup
  marks := by
    intro v hv
    by_cases hvq : v = q.var
    · subst hvq
      exact .inr ⟨q.neg, h.falsified q (by simp), rfl, hlev⟩
    · simp only [mark_seen, update_of_ne hvq] at hv
      exact h.marks v hv
  count := by
    rw [h.count]
    exact (openCount_mark hc (h.falsified q (by simp)) hns hlev).symm
  implied := by
    intro α hα
    rcases h.implied α hα with h₁ | ⟨x, hx, ht⟩ | ⟨l, hl, ho, hf⟩
    · exact .inl h₁
    · rcases mem_cons.mp hx with rfl | hx
      · have ho : s.isOpen (mark a x).seen x.neg = true :=
          isOpen_iff.mpr ⟨by simp, hlev⟩
        exact .inr (.inr ⟨x.neg, h.falsified x (by simp), ho, by simp [ht]⟩)
      · exact .inr (.inl ⟨x, hx, ht⟩)
    · exact .inr (.inr ⟨l, hl, open_mark ho, hf⟩)

/-- A literal of a lower level is marked and learnt. -/
theorem mark_lower (hns : a.solver.seen q.var = false) (h0 : 0 < s.level q.var)
    (hlev : s.level q.var < s.decisionLevel) :
    s.Resolving index lits ⟨mark a q, a.learnt ++ [q], a.pathC⟩ where
  solver := h.mark_solver
  activity := h.mark_activity hc
  indexLe := h.indexLe
  falsified := fun x hx => h.falsified x (mem_cons_of_mem _ hx)
  learnt := by
    intro x hx
    rcases mem_append.mp hx with hx | hx
    · obtain ⟨h₁, h₂, h₃, h₄⟩ := h.learnt x hx
      have hne : x.var ≠ q.var := by
        intro heq
        rw [heq, hns] at h₄
        cases h₄
      refine ⟨h₁, h₂, h₃, ?_⟩
      simp only [mark_seen, update_of_ne hne]
      exact h₄
    · obtain rfl := mem_singleton.mp hx
      exact ⟨h.neg_mem, h0, hlev, by simp⟩
  nodup := by
    rw [map_append, nodup_append]
    refine ⟨h.nodup, by simp, ?_⟩
    intro v hv w hw heq
    obtain ⟨x, hx, rfl⟩ := mem_map.mp hv
    obtain rfl : w = q.var := by simpa using hw
    have := (h.learnt x hx).2.2.2
    rw [heq, hns] at this
    cases this
  marks := by
    intro v hv
    by_cases hvq : v = q.var
    · exact .inl (by simp [hvq])
    · simp only [mark_seen, update_of_ne hvq] at hv
      rcases h.marks v hv with hm | hm
      · exact .inl (by
          rw [map_append]
          exact mem_append_left _ hm)
      · exact .inr hm
  count := by
    rw [h.count]
    unfold openCount
    refine countP_congr (fun l _ => ?_)
    by_cases hl : l.var = q.var
    · have hne : s.level q.var ≠ s.decisionLevel := by omega
      simp [isOpen, hl, hne]
    · rw [mark_seen, isOpen_update_of_ne true hl]
  implied := by
    intro α hα
    rcases h.implied α hα with ⟨x, hx, ht⟩ | ⟨x, hx, ht⟩ | ⟨l, hl, ho, hf⟩
    · exact .inl ⟨x, mem_append_left _ hx, ht⟩
    · rcases mem_cons.mp hx with rfl | hx
      · exact .inl ⟨x, by simp, ht⟩
      · exact .inr (.inl ⟨x, hx, ht⟩)
    · exact .inr (.inr ⟨l, hl, open_mark ho, hf⟩)

theorem markLit : s.Resolving index lits (markLit s.decisionLevel a q) := by
  unfold Solver.markLit
  rw [h.level_eq]
  split
  · rename_i hcond
    split
    · rename_i hge
      have hle := hc.level_neg_le h.neg_mem
      exact h.mark_current hc hcond.1 (by omega)
    · rename_i hlt
      exact h.mark_lower hc hcond.1 hcond.2 (by omega)
  · rename_i hcond
    by_cases hs : a.solver.seen q.var = true
    · exact h.skip_seen hc hs
    · refine h.skip_root hc ?_
      by_contra hne
      exact hcond ⟨by simpa using hs, by omega⟩

end

theorem markAll (hc : s.Core) (h : s.Resolving index lits a) :
    s.Resolving index [] (lits.foldl (Solver.markLit s.decisionLevel) a) := by
  induction lits generalizing a with
  | nil => exact h
  | cons q qs ih => exact ih (h.markLit hc)

theorem pathC_le_markLit (cur : Nat) (a : Analysis D) (q : Lit) :
    a.pathC ≤ (Solver.markLit cur a q).pathC := by
  unfold Solver.markLit
  split
  · split
    · exact Nat.le_succ _
    · exact Nat.le_refl _
  · exact Nat.le_refl _

theorem pathC_le_markAll (cur : Nat) : ∀ (lits : List Lit) (a : Analysis D),
    a.pathC ≤ (lits.foldl (Solver.markLit cur) a).pathC
  | [], a => Nat.le_refl a.pathC
  | q :: qs, a => Nat.le_trans (pathC_le_markLit cur a q) (pathC_le_markAll cur qs _)

theorem seen_markLit (cur : Nat) (a : Analysis D) (q : Lit) {v : Nat}
    (h : a.solver.seen v = true ∨ (v = q.var ∧ 0 < a.solver.level v)) :
    (Solver.markLit cur a q).solver.seen v = true := by
  have hmark : (mark a q).seen v = true := by
    rw [mark_seen]
    by_cases hv : v = q.var
    · rw [hv, update_self]
    · rw [update_of_ne hv]
      exact h.resolve_right (fun h' => hv h'.1)
  unfold Solver.markLit
  split
  · split <;> exact hmark
  · rename_i hcond
    rcases h with hs | ⟨rfl, hpos⟩
    · exact hs
    · by_contra hns
      exact hcond ⟨by simpa using hns, hpos⟩

theorem level_markLit (cur : Nat) (a : Analysis D) (q : Lit) :
    (Solver.markLit cur a q).solver.level = a.solver.level := by
  unfold Solver.markLit
  split
  · split <;> rfl
  · rfl

theorem seen_markAll (cur : Nat) : ∀ (lits : List Lit) (a : Analysis D) (v : Nat),
    (a.solver.seen v = true ∨ (v ∈ lits.map Lit.var ∧ 0 < a.solver.level v)) →
    (lits.foldl (Solver.markLit cur) a).solver.seen v = true := by
  intro lits
  induction lits with
  | nil =>
    intro a v h
    exact h.resolve_right (fun h' => by simp at h')
  | cons q qs ih =>
    intro a v h
    refine ih _ v ?_
    rw [level_markLit]
    rcases h with hs | ⟨hv, hpos⟩
    · exact .inl (seen_markLit cur a q (.inl hs))
    · rw [map_cons] at hv
      rcases mem_cons.mp hv with rfl | hv
      · exact .inl (seen_markLit cur a q (.inr ⟨rfl, hpos⟩))
      · exact .inr ⟨hv, hpos⟩

end Resolving

/-! ## The loop -/

theorem lastSeen_some {s : Solver D} {index i : Nat} {p : Lit} (h : s.lastSeen index = some (i, p)) :
    i < index ∧ s.trail[i]? = some p ∧ s.seen p.var = true ∧
      ∀ j l, i < j → j < index → s.trail[j]? = some l → s.seen l.var = false := by
  induction index with
  | zero => cases h
  | succ n ih =>
    unfold lastSeen at h
    cases hn : s.trail[n]? with
    | none => simp [hn] at h
    | some l =>
      simp only [hn] at h
      split at h
      · rename_i hs
        cases h
        refine ⟨Nat.lt_succ_self _, hn, hs, ?_⟩
        intro j l' h₁ h₂
        omega
      · rename_i hs
        obtain ⟨h₁, h₂, h₃, h₄⟩ := ih h
        refine ⟨by omega, h₂, h₃, ?_⟩
        intro j l' hij hj hl'
        rcases Nat.lt_or_ge j n with hlt | hge
        · exact h₄ j l' hij hlt hl'
        · obtain rfl : j = n := by omega
          rw [hn] at hl'
          cases hl'
          simpa using hs

theorem lastSeen_isSome {s : Solver D} {index i : Nat} {l : Lit} (hi : i < index)
    (hle : index ≤ s.trail.length) (hl : s.trail[i]? = some l) (hs : s.seen l.var = true) :
    ∃ r, s.lastSeen index = some r := by
  induction index with
  | zero => omega
  | succ n ih =>
    unfold lastSeen
    rw [getElem?_eq_getElem (by omega)]
    dsimp only
    split
    · exact ⟨_, rfl⟩
    · rename_i hns
      rcases Nat.lt_or_ge i n with hlt | hge
      · exact ih hlt (by omega)
      · obtain rfl : i = n := by omega
        obtain ⟨hi', heq⟩ := List.getElem?_eq_some_iff.mp hl
        rw [heq] at hns
        exact absurd hs hns

theorem exists_open {s : Solver D} {seen : Nat → Bool} {index : Nat}
    (h : 0 < s.openCount seen index) :
    ∃ i l, i < index ∧ s.trail[i]? = some l ∧ s.isOpen seen l = true := by
  obtain ⟨l, hl, ho⟩ := countP_pos_iff.mp h
  obtain ⟨i, hi⟩ := mem_iff_getElem?.mp hl
  rw [getElem?_take] at hi
  split at hi
  · rename_i hlt
    exact ⟨i, l, hlt, hi, ho⟩
  · cases hi

theorem Core.reason_of_later {s : Solver D} (hc : s.Core) (hpos : 0 < s.decisionLevel) {i j : Nat}
    {p : Lit} (hp : s.trail[i]? = some p) (hij : j < i) (hj : s.levelAt j = s.decisionLevel) :
    ∃ cid, s.reason p.var = some cid := by
  cases hr : s.reason p.var with
  | some cid => exact ⟨cid, rfl⟩
  | none =>
    have hi : s.levelAt i = s.decisionLevel :=
      Nat.le_antisymm (s.levelAt_le i) (hj ▸ s.levelAt_mono (Nat.le_of_lt hij))
    rcases hc.reasonDecision i p hp hr with h0 | hlim
    · omega
    · -- The decision at `i` is not counted at `j`.
      exfalso
      have hall : ∀ n ∈ s.trailLim, n ≤ j := by
        intro n hn
        by_contra hgt
        have hlt : s.levelAt j < s.decisionLevel := by
          unfold levelAt decisionLevel
          exact length_filter_lt_length_iff_exists.mpr ⟨n, hn, by simpa using hgt⟩
        omega
      have := hall i hlim
      omega

/-- What the loop leaves: the first unique implication point and the learnt literals. -/
structure Resolved (s : Solver D) (p : Lit) (a : Analysis D) : Prop where
  solver : a.solver = s.marked a.solver.seen a.solver.activity
  activity : ∀ v, D.NonNeg (a.solver.activity v)
  mem : p ∈ s.trail
  current : s.level p.var = s.decisionLevel
  learnt : ∀ q ∈ a.learnt, q.neg ∈ s.trail ∧ s.level q.var < s.decisionLevel
  nodup : (a.learnt.map Lit.var).Nodup
  marks : ∀ v, a.solver.seen v = true → v ∈ a.learnt.map Lit.var
  implied : Implies s.added (p.neg :: a.learnt)

namespace Resolving

variable {s : Solver D} {index i : Nat} {p : Lit} {a : Analysis D} (hc : s.Core)
  (h : s.Resolving index [] a) (hpos : 0 < a.pathC)
  (hlast : a.solver.lastSeen index = some (i, p))

include hc h hpos hlast

/-- The last marked literal is open: open literals come after all others. -/
theorem last_open : i < index ∧ s.trail[i]? = some p ∧ s.isOpen a.solver.seen p = true ∧
      s.levelAt i = s.decisionLevel ∧
      ∀ j l, i < j → j < index → s.trail[j]? = some l → a.solver.seen l.var = false := by
  obtain ⟨hi, hp, hs, hafter⟩ := lastSeen_some hlast
  rw [h.trail_eq] at hp hafter
  obtain ⟨j, l, hj, hl, ho⟩ := exists_open (h.count ▸ hpos)
  rw [isOpen_iff] at ho
  have hji : j ≤ i := by
    by_contra hgt
    have := hafter j l (by omega) hj hl
    rw [ho.1] at this
    cases this
  have hlev : s.levelAt i = s.decisionLevel := by
    refine Nat.le_antisymm (s.levelAt_le i) ?_
    rw [← ho.2, hc.level j l hl]
    exact s.levelAt_mono hji
  exact ⟨hi, hp, isOpen_iff.mpr ⟨hs, by rw [hc.level i p hp, hlev]⟩, hlev, hafter⟩

/-- Removing the mark of the last open literal leaves the open literals before it. -/
theorem openCount_unmark : a.pathC = s.openCount (update a.solver.seen p.var false) i + 1 := by
  obtain ⟨hi, hp, ho, -, hafter⟩ := h.last_open hc hpos hlast
  have hsplit : s.trail.take index = s.trail.take i ++ p :: (s.trail.take index).drop (i + 1) := by
    have hlt : i < (s.trail.take index).length := by
      obtain ⟨hi', -⟩ := List.getElem?_eq_some_iff.mp hp
      rw [List.length_take]
      omega
    have hget : (s.trail.take index)[i]? = some p := by
      rw [getElem?_take, if_pos hi]
      exact hp
    conv_lhs => rw [← take_append_drop i (s.trail.take index), take_take,
      Nat.min_eq_left (Nat.le_of_lt hi), drop_eq_getElem_cons hlt]
    congr 2
    exact (List.getElem?_eq_some_iff.mp hget).2
  have hnodup : ((s.trail.take index).map Lit.var).Nodup := by
    rw [map_take]
    exact hc.vars_nodup.sublist (take_sublist _ _)
  have hrest : ((s.trail.take index).drop (i + 1)).countP (s.isOpen a.solver.seen) = 0 := by
    rw [countP_eq_zero]
    intro l hl
    obtain ⟨j, hj⟩ := mem_iff_getElem?.mp hl
    rw [getElem?_drop, getElem?_take] at hj
    split at hj
    · rename_i hlt
      have := hafter _ l (by omega) hlt hj
      simp [isOpen, this]
    · cases hj
  have hfirst : (s.trail.take i).countP (s.isOpen (update a.solver.seen p.var false)) =
      (s.trail.take i).countP (s.isOpen a.solver.seen) := by
    refine countP_congr (fun l hl => ?_)
    have hne : l.var ≠ p.var := by
      rw [hsplit, map_append, nodup_append] at hnodup
      exact hnodup.2.2 _ (mem_map_of_mem hl) _ (by simp)
    rw [isOpen_update_of_ne false hne]
  rw [h.count]
  unfold openCount
  rw [hfirst, hsplit, countP_append, countP_cons, hrest, ho]
  simp

/-- A model falsifies a literal that is still open, unless it satisfies a learnt one. -/
theorem implied_unmark (α : Nat → Bool) (hα : Models s.added α) :
    Satisfies α a.learnt ∨ litTrue α p = false ∨
      ∃ l ∈ s.trail.take i, s.isOpen (update a.solver.seen p.var false) l = true ∧
        litTrue α l = false := by
  obtain ⟨hi, hp, -, -, hafter⟩ := h.last_open hc hpos hlast
  rcases h.implied α hα with h₁ | ⟨x, hx, -⟩ | ⟨l, hl, ho, hf⟩
  · exact .inl h₁
  · cases hx
  · by_cases hv : l.var = p.var
    · obtain rfl : l = p :=
        hc.eq_of_var ((List.take_prefix _ _).subset hl) (mem_of_getElem? hp) hv
      exact .inr (.inl hf)
    · obtain ⟨j, hj⟩ := mem_iff_getElem?.mp hl
      rw [getElem?_take] at hj
      split at hj
      swap
      · cases hj
      rename_i hlt
      have hji : j < i := by
        by_contra hge
        rcases Nat.lt_or_ge i j with hij | hle
        · have hns := hafter j l hij hlt hj
          rw [isOpen_iff, hns] at ho
          cases ho.1
        · obtain rfl : j = i := by omega
          rw [hp] at hj
          cases hj
          exact hv rfl
      refine .inr (.inr ⟨l, ?_, by rw [isOpen_update_of_ne false hv]; exact ho, hf⟩)
      have : (s.trail.take i)[j]? = some l := by
        rw [getElem?_take, if_pos hji]
        exact hj
      exact mem_of_getElem? this

/-- Marks other than that of `p` are marks of learnt literals or lie before `p`. -/
theorem marks_unmark {v : Nat} (hv : update a.solver.seen p.var false v = true) :
    v ∈ a.learnt.map Lit.var ∨ ∃ l ∈ s.trail.take i, l.var = v ∧ s.level v = s.decisionLevel := by
  obtain ⟨hi, hp, -, -, hafter⟩ := h.last_open hc hpos hlast
  have hne : v ≠ p.var := by
    rintro rfl
    rw [update_self] at hv
    cases hv
  rw [update_of_ne hne] at hv
  rcases h.marks v hv with hm | ⟨l, hl, rfl, hlev⟩
  · exact .inl hm
  · obtain ⟨j, hj⟩ := mem_iff_getElem?.mp hl
    rw [getElem?_take] at hj
    split at hj
    swap
    · cases hj
    rename_i hlt
    have hji : j < i := by
      by_contra hge
      rcases Nat.lt_or_ge i j with hij | hle
      · have hns := hafter j l hij hlt hj
        rw [hv] at hns
        cases hns
      · obtain rfl : j = i := by omega
        rw [hp] at hj
        cases hj
        exact hne rfl
    have hget : (s.trail.take i)[j]? = some l := by
      rw [getElem?_take, if_pos hji]
      exact hj
    exact .inr ⟨l, mem_of_getElem? hget, rfl, hlev⟩

theorem learnt_unmark {q : Lit} (hq : q ∈ a.learnt) :
    q.neg ∈ s.trail ∧ 0 < s.level q.var ∧ s.level q.var < s.decisionLevel ∧
      update a.solver.seen p.var false q.var = true := by
  obtain ⟨-, -, ho, -, -⟩ := h.last_open hc hpos hlast
  obtain ⟨h₁, h₂, h₃, h₄⟩ := h.learnt q hq
  have hne : q.var ≠ p.var := by
    intro heq
    have := (isOpen_iff.mp ho).2
    rw [heq] at h₃
    omega
  rw [update_of_ne hne]
  exact ⟨h₁, h₂, h₃, h₄⟩

theorem resolved (hend : a.pathC - 1 = 0) : s.Resolved p (unmark a p) := by
  obtain ⟨-, hp, ho, -, -⟩ := h.last_open hc hpos hlast
  have hcount := h.openCount_unmark hc hpos hlast
  have hzero : s.openCount (update a.solver.seen p.var false) i = 0 := by omega
  have hnone : ∀ l ∈ s.trail.take i, ¬ s.isOpen (update a.solver.seen p.var false) l = true :=
    countP_eq_zero.mp hzero
  refine ⟨?_, h.activity, mem_of_getElem? hp, (isOpen_iff.mp ho).2, ?_, h.nodup, ?_, ?_⟩
  · unfold unmark
    rw [h.solver]
    rfl
  · intro q hq
    obtain ⟨h₁, -, h₃, -⟩ := h.learnt q hq
    exact ⟨h₁, h₃⟩
  · intro v hv
    rcases h.marks_unmark hc hpos hlast hv with hm | ⟨l, hl, rfl, hlev⟩
    · exact hm
    · exact absurd (isOpen_iff.mpr ⟨hv, hlev⟩) (hnone l hl)
  · intro α hα
    rcases h.implied_unmark hc hpos hlast α hα with ⟨x, hx, ht⟩ | hf | ⟨l, hl, ho, -⟩
    · exact ⟨x, mem_cons_of_mem _ hx, ht⟩
    · exact ⟨p.neg, by simp, by simp [hf]⟩
    · exact absurd ho (hnone l hl)

theorem next {cid : Nat} (hr : s.reason p.var = some cid) :
    s.Resolving i ((s.clauses cid).c1 :: (s.clauses cid).rest) (unmark a p) := by
  obtain ⟨hi, hp, -, -, -⟩ := h.last_open hc hpos hlast
  obtain ⟨hcid, hc0, hothers⟩ := hc.reasonClause i p cid hp hr
  refine ⟨?_, h.activity, Nat.le_trans (Nat.le_of_lt hi) h.indexLe, hothers,
    fun q hq => h.learnt_unmark hc hpos hlast hq, h.nodup,
    fun v hv => h.marks_unmark hc hpos hlast hv, ?_, ?_⟩
  · unfold unmark
    rw [h.solver]
    rfl
  · have := h.openCount_unmark hc hpos hlast
    simp only [unmark]
    omega
  · intro α hα
    rcases h.implied_unmark hc hpos hlast α hα with h₁ | hf | h₃
    · exact .inl h₁
    · -- The reason clause is satisfied by a literal other than `p`.
      obtain ⟨x, hx, ht⟩ := hc.clauseImplied cid hcid α hα
      rcases mem_cons.mp hx with rfl | hx
      · rw [hc0, hf] at ht
        cases ht
      · exact .inr (.inl ⟨x, hx, ht⟩)
    · exact .inr (.inr h₃)

end Resolving

theorem analyzeLoop_spec {s : Solver D} (hc : s.Core) (hlev : 0 < s.decisionLevel) :
    ∀ (fuel : Nat) (lits : List Lit) (index : Nat) (a : Analysis D), index < fuel →
      s.Resolving index lits a → 0 < (lits.foldl (markLit s.decisionLevel) a).pathC →
      ∃ p a', analyzeLoop s.decisionLevel fuel lits index a = some (p, a') ∧ s.Resolved p a' := by
  intro fuel
  induction fuel with
  | zero =>
    intro lits index a hf
    omega
  | succ fuel ih =>
    intro lits index a hf hres hpos
    have hall := hres.markAll hc
    unfold analyzeLoop
    dsimp only
    generalize lits.foldl (markLit s.decisionLevel) a = b at hall hpos ⊢
    obtain ⟨j, l, hj, hl, ho⟩ := exists_open (hall.count ▸ hpos)
    obtain ⟨⟨i, p⟩, hlast⟩ : ∃ r, b.solver.lastSeen index = some r :=
      lastSeen_isSome hj (by rw [hall.trail_eq]; exact hall.indexLe)
        (by rw [hall.trail_eq]; exact hl) (isOpen_iff.mp ho).1
    rw [hlast]
    dsimp only
    split
    · rename_i hmore
      have hcount := hall.openCount_unmark hc hpos hlast
      have hopen : 0 < s.openCount (update b.solver.seen p.var false) i := by
        simp only [unmark] at hmore
        omega
      obtain ⟨j', l', hj', hl', ho'⟩ := exists_open hopen
      obtain ⟨hi, hp, -, -, -⟩ := hall.last_open hc hpos hlast
      obtain ⟨cid, hr⟩ := hc.reason_of_later hlev hp hj'
        (by rw [← hc.level j' l' hl']; exact (isOpen_iff.mp ho').2)
      have hnext := hall.next hc hpos hlast hr
      rw [hall.reason_eq, hr]
      dsimp only
      rw [hall.clauses_eq]
      refine ih _ i (unmark b p) (by omega) hnext ?_
      exact Nat.lt_of_lt_of_le hmore (Resolving.pathC_le_markAll _ _ _)
    · rename_i hend
      exact ⟨p, unmark b p, rfl, hall.resolved hc hpos hlast (by simp only [unmark] at hend; omega)⟩

/-! ## The learnt clause -/

theorem maxLevelIdx_spec (level : Nat → Nat) : ∀ (qs before : List Lit) (best bestLevel : Nat),
    (∃ b, before[best]? = some b ∧ level b.var = bestLevel ∧ ∀ x ∈ before, level x.var ≤ bestLevel) →
    ∃ b, (before ++ qs)[maxLevelIdx level qs before.length best bestLevel]? = some b ∧
      ∀ x ∈ before ++ qs, level x.var ≤ level b.var := by
  intro qs
  induction qs with
  | nil =>
    rintro before best bestLevel ⟨b, hb, hlev, hmax⟩
    exact ⟨b, by simpa [maxLevelIdx] using hb, by simpa [hlev] using hmax⟩
  | cons q qs ih =>
    rintro before best bestLevel ⟨b, hb, hlev, hmax⟩
    have happ : before ++ q :: qs = (before ++ [q]) ++ qs := by simp
    have hlen : (before ++ [q]).length = before.length + 1 := by simp
    unfold maxLevelIdx
    rw [happ, ← hlen]
    split
    · rename_i hgt
      refine ih (before ++ [q]) _ _ ⟨q, by simp, rfl, ?_⟩
      intro x hx
      rcases mem_append.mp hx with hx | hx
      · exact Nat.le_of_lt (Nat.lt_of_le_of_lt (hmax x hx) hgt)
      · obtain rfl := mem_singleton.mp hx
        exact Nat.le_refl _
    · rename_i hle
      obtain ⟨hlt, -⟩ := List.getElem?_eq_some_iff.mp hb
      refine ih (before ++ [q]) _ _ ⟨b, by rw [List.getElem?_append_left hlt]; exact hb, hlev, ?_⟩
      intro x hx
      rcases mem_append.mp hx with hx | hx
      · exact hmax x hx
      · obtain rfl := mem_singleton.mp hx
        omega

theorem swap_first_perm {α : Type} (q : α) (qs : List α) {m : Nat} {b : α}
    (hb : (q :: qs)[m]? = some b) : (((q :: qs).set m q).set 0 b).Perm (q :: qs) := by
  cases m with
  | zero =>
    obtain rfl : q = b := by simpa using hb
    simp
  | succ m =>
    have hb' : qs[m]? = some b := by simpa using hb
    obtain ⟨hlt, rfl⟩ := List.getElem?_eq_some_iff.mp hb'
    simp only [List.set_cons_succ, List.set_cons_zero]
    have h₁ : (q :: qs.eraseIdx m).Perm (qs.set m q) := by
      rw [set_eq_take_append_cons_drop, if_pos hlt, eraseIdx_eq_take_drop_succ]
      exact perm_middle.symm
    have h₂ : (qs[m] :: qs.eraseIdx m).Perm qs := getElem_cons_eraseIdx_perm hlt
    exact (h₁.symm.cons _).trans ((List.Perm.swap _ _ _).trans (h₂.cons q))

theorem maxLevelFirst_perm (level : Nat → Nat) (ls : List Lit) :
    (maxLevelFirst level ls).Perm ls := by
  cases ls with
  | nil => exact List.Perm.refl _
  | cons q qs =>
    unfold maxLevelFirst
    dsimp only
    split
    · exact List.Perm.refl _
    · rename_i b hb
      exact swap_first_perm q qs hb

theorem maxLevelFirst_head {level : Nat → Nat} {ls others : List Lit} {b : Lit}
    (h : maxLevelFirst level ls = b :: others) : ∀ x ∈ ls, level x.var ≤ level b.var := by
  cases ls with
  | nil => simp
  | cons q qs =>
    obtain ⟨b', hb', hmax⟩ := maxLevelIdx_spec level qs [q] 0 (level q.var) ⟨q, rfl, rfl, by simp⟩
    simp only [singleton_append, length_singleton] at hb' hmax
    unfold maxLevelFirst at h
    simp only [hb'] at h
    have : b' = b := by
      cases hm : maxLevelIdx level qs 1 0 (level q.var) <;> simp_all
    rw [← this]
    exact hmax

theorem foldl_unsee (ls : List Lit) (seen : Nat → Bool) (v : Nat) :
    ls.foldl (fun seen l => update seen l.var false) seen v =
      (seen v && decide (v ∉ ls.map Lit.var)) := by
  induction ls generalizing seen with
  | nil => simp
  | cons l ls ih =>
    rw [foldl_cons, ih]
    by_cases h : v = l.var
    · subst h
      simp
    · simp [h]

/-- A learnt clause: it follows from the added clauses, and after the backjump its first
literal has no value while the others are false. -/
structure Learning (s : Solver D) (k : Learnt) : Prop where
  first : k.first.neg ∈ s.trail
  current : s.level k.first.var = s.decisionLevel
  implied : Implies s.added (k.first :: k.others)
  nodup : (k.first :: k.others).Nodup
  others : ∀ q ∈ k.others, q.neg ∈ s.trail ∧ s.level q.var ≤ k.btLevel
  btLevel : k.btLevel < s.decisionLevel
  unit : k.others = [] → k.btLevel = 0
  head : ∀ q qs, k.others = q :: qs → s.level q.var = k.btLevel

theorem Resolved.learning {s : Solver D} (hlev : 0 < s.decisionLevel) {p : Lit}
    {a : Analysis D} (h : s.Resolved p a) :
    s.Learning ⟨p.neg, maxLevelFirst s.level a.learnt, match maxLevelFirst s.level a.learnt with
      | [] => 0
      | q :: _ => s.level q.var⟩ := by
  have hperm := maxLevelFirst_perm s.level a.learnt
  have hmem : ∀ q, q ∈ maxLevelFirst s.level a.learnt ↔ q ∈ a.learnt := fun q => hperm.mem_iff
  refine ⟨by simpa using h.mem, h.current, ?_, ?_, ?_, ?_, ?_, ?_⟩
  · refine h.implied.mono (fun l hl => ?_)
    rcases mem_cons.mp hl with rfl | hl
    · simp
    · exact mem_cons_of_mem _ ((hmem l).mpr hl)
  · refine nodup_cons.mpr ⟨fun hin => ?_, hperm.nodup_iff.mpr (List.Nodup.of_map _ h.nodup)⟩
    have := (h.learnt _ ((hmem _).mp hin)).2
    rw [Lit.var_neg, h.current] at this
    omega
  · intro q hq
    have hq' := (hmem q).mp hq
    refine ⟨(h.learnt q hq').1, ?_⟩
    dsimp only
    split
    · rename_i hnil
      rw [hnil] at hq
      cases hq
    · rename_i b rest hcons
      exact maxLevelFirst_head hcons q hq'
  · dsimp only
    split
    · exact hlev
    · rename_i b rest hcons
      exact (h.learnt b ((hmem b).mp (by rw [hcons]; simp))).2
  · intro hnil
    dsimp only at hnil ⊢
    rw [hnil]
  · intro q qs hcons
    dsimp only at hcons ⊢
    rw [hcons]

/-- Analysis returns a learnt clause, and changes nothing but activities. -/
theorem analyze_spec {s : Solver D} (hc : s.Core) (hlev : 0 < s.decisionLevel) {cid : Nat}
    (hconf : s.Conflict cid) :
    ∃ act k, s.analyze cid = some ({ s with activity := act }, k) ∧ (∀ v, D.NonNeg (act v)) ∧
      s.Learning k := by
  have hunseen : s.seen = fun _ => false := funext hc.unseen
  have hzero : s.openCount s.seen s.trail.length = 0 := by
    unfold openCount
    rw [countP_eq_zero]
    intro l _
    simp [isOpen, hunseen]
  have hstart : s.Resolving s.trail.length (s.clauses cid).lits ⟨s, [], 0⟩ := by
    refine ⟨rfl, hc.activity, Nat.le_refl _, ?_, by simp, by simp, ?_, hzero.symm, ?_⟩
    · intro q hq
      rw [take_of_length_le (Nat.le_refl _)]
      exact hconf.falsified q hq
    · intro v hv
      rw [hc.unseen] at hv
      cases hv
    · intro α hα
      exact .inr (.inl (hc.clauseImplied cid hconf.inRange α hα))
  -- The clause has a literal of the current level, so something is open after reading it.
  have hpos : 0 < ((s.clauses cid).lits.foldl (markLit s.decisionLevel) ⟨s, [], 0⟩).pathC := by
    obtain ⟨q, hq, hql⟩ := hconf.current
    have hall := hstart.markAll hc
    have hqpos : 0 < s.level q.var := hql ▸ hlev
    have hseen := Resolving.seen_markAll s.decisionLevel (s.clauses cid).lits ⟨s, [], 0⟩ q.var
      (.inr ⟨mem_map_of_mem hq, hqpos⟩)
    rw [hall.count]
    refine countP_pos_iff.mpr ⟨q.neg, ?_, isOpen_iff.mpr ⟨hseen, hql⟩⟩
    rw [take_of_length_le (Nat.le_refl _)]
    exact hconf.falsified q hq
  obtain ⟨p, a, hrun, hres⟩ := analyzeLoop_spec hc hlev _ _ _ _ (Nat.lt_succ_self _) hstart hpos
  have hlevel : a.solver.level = s.level := by
    rw [hres.solver]
    rfl
  refine ⟨a.solver.activity, _, ?_, hres.activity, hres.learning hlev⟩
  unfold analyze
  rw [hrun]
  dsimp only
  have hseen : a.learnt.foldl (fun seen l => update seen l.var false) a.solver.seen = s.seen := by
    funext v
    rw [foldl_unsee, hunseen]
    cases hv : a.solver.seen v with
    | false => simp
    | true => simpa using hres.marks v hv
  rw [hseen, hlevel]
  rw [hres.solver]
  rfl

end Solver

end Brass.Verify.Cdcl
