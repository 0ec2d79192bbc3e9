import Brass.Verify.CdclInvariant

/-!
# Unit propagation

`visitWatches` is proved against `Visiting`, the invariant inside the loop over the
watches of one literal `p`: a watch that is false and propagated has a true partner,
except for the watches `p.neg` of the clauses that are still to be visited. Its result is
either `Visiting` with nothing left to visit, or a clause all of whose literals are false
(`Conflict`).
-/

namespace Brass.Verify.Cdcl

open Brass.Util.Cnf List

variable {D : Doubles}

namespace Solver

/-- What propagation may change: the trail grows at the end, and watches move. -/
structure Extends (s s' : Solver D) : Prop where
  ok : s'.ok = s.ok
  nVars : s'.nVars = s.nVars
  numClauses : s'.numClauses = s.numClauses
  clauses : ∀ i, (s'.clauses i).lits.Perm (s.clauses i).lits
  added : s'.added = s.added
  trailLim : s'.trailLim = s.trailLim
  trail : s.trail <+: s'.trail
  xorLhs : s'.xorLhs = s.xorLhs
  xorRhs : s'.xorRhs = s.xorRhs
  gateCache : s'.gateCache = s.gateCache

namespace Extends

variable {a b c : Solver D}

theorem refl (a : Solver D) : a.Extends a :=
  ⟨rfl, rfl, rfl, fun _ => List.Perm.refl _, rfl, rfl, prefix_rfl, rfl, rfl, rfl⟩

theorem trans (h₁ : a.Extends b) (h₂ : b.Extends c) : a.Extends c :=
  ⟨h₂.ok.trans h₁.ok, h₂.nVars.trans h₁.nVars, h₂.numClauses.trans h₁.numClauses,
    fun i => (h₂.clauses i).trans (h₁.clauses i), h₂.added.trans h₁.added, h₂.trailLim.trans h₁.trailLim, h₁.trail.trans h₂.trail,
    h₂.xorLhs.trans h₁.xorLhs, h₂.xorRhs.trans h₁.xorRhs, h₂.gateCache.trans h₁.gateCache⟩

theorem decisionLevel (h : a.Extends b) : b.decisionLevel = a.decisionLevel := by
  unfold Solver.decisionLevel
  rw [h.trailLim]

theorem levelAt (h : a.Extends b) (i : Nat) : b.levelAt i = a.levelAt i := by
  unfold Solver.levelAt
  rw [h.trailLim]

theorem getElem? (h : a.Extends b) {i : Nat} {l : Lit} (hl : a.trail[i]? = some l) :
    b.trail[i]? = some l := by
  obtain ⟨rest, hrest⟩ := h.trail
  obtain ⟨hlt, -⟩ := List.getElem?_eq_some_iff.mp hl
  rw [← hrest, List.getElem?_append_left hlt]
  exact hl

theorem level (h : a.Extends b) (ha : a.Core) (hb : b.Core) {l : Lit} (hl : l ∈ a.trail) :
    b.level l.var = a.level l.var := by
  obtain ⟨i, hi⟩ := mem_iff_getElem?.mp hl
  rw [ha.level i l hi, hb.level i l (h.getElem? hi), h.levelAt]

theorem complete (h : a.Extends b) (ha : a.Complete) : b.Complete := by
  intro α hcl hroot
  rw [h.added]
  refine ha α (fun i hi => ?_) (fun i l hl h0 => hroot i l (h.getElem? hl) ?_)
  · exact (hcl i (h.numClauses ▸ hi)).mono (fun l hl => (h.clauses i).mem_iff.mp hl)
  · rw [h.levelAt]
    exact h0

theorem setClause (s : Solver D) {cid : Nat} {c : Clause}
    (hperm : c.lits.Perm (s.clauses cid).lits) : s.Extends (s.setClause cid c) := by
  refine ⟨rfl, rfl, rfl, fun i => ?_, rfl, rfl, prefix_rfl, rfl, rfl, rfl⟩
  by_cases hi : i = cid
  · subst hi
    simpa [Solver.setClause] using hperm
  · simp [Solver.setClause, hi]

theorem addWatch (s : Solver D) (l : Lit) (cid : Nat) : s.Extends (s.addWatch l cid) :=
  { refl s with }

theorem assign (s : Solver D) (l : Lit) (r : Option Nat) : s.Extends (s.assign l r) :=
  { refl s with trail := prefix_append _ _ }

theorem setQhead (s : Solver D) (q : Nat) : s.Extends { s with qhead := q } :=
  { refl s with }

theorem setWatches {s : Solver D} (h : a.Extends s) (w : Lit → List Nat) :
    a.Extends { s with watches := w } := { h with }

end Extends

/-! ## Rearranging a clause -/

@[simp] theorem setClause_qhead (s : Solver D) (cid : Nat) (c : Clause) :
    (s.setClause cid c).qhead = s.qhead := rfl
@[simp] theorem setClause_clauses_self (s : Solver D) (cid : Nat) (c : Clause) :
    (s.setClause cid c).clauses cid = c := by simp [setClause]

theorem setClause_clauses_of_ne (s : Solver D) {cid i : Nat} (c : Clause) (h : i ≠ cid) :
    (s.setClause cid c).clauses i = s.clauses i := by simp [setClause, h]

/-- Rearranging the literals of a clause that is no reason keeps the invariant. -/
theorem Core.setClause {s : Solver D} (h : s.Core) {cid : Nat} {c : Clause}
    (hcid : cid < s.numClauses) (hperm : c.lits.Perm (s.clauses cid).lits)
    (hreason : (s.clauses cid).c0 ∉ s.trail) : (s.setClause cid c).Core := by
  have hlits : ∀ i, ((s.setClause cid c).clauses i).lits.Perm (s.clauses i).lits := by
    intro i
    by_cases hi : i = cid
    · subst hi
      simpa using hperm
    · rw [setClause_clauses_of_ne s c hi]
  exact {
    h with
    reasonClause := by
      intro i l j hl hr
      obtain ⟨h₁, h₂, h₃⟩ := h.reasonClause i l j hl hr
      have hj : j ≠ cid := by
        rintro rfl
        exact hreason (h₂ ▸ mem_of_getElem? hl)
      rw [setClause_clauses_of_ne s c hj]
      exact ⟨h₁, h₂, h₃⟩
    clauseImplied := fun i hi =>
      (h.clauseImplied i hi).mono (fun l hl => (hlits i).mem_iff.mpr hl)
    clauseNodup := fun i hi => (hlits i).nodup_iff.mpr (h.clauseNodup i hi)
    clauseRange := fun i hi l hl => h.clauseRange i hi l ((hlits i).mem_iff.mp hl) }

theorem Core.addWatch {s : Solver D} (h : s.Core) (l : Lit) (cid : Nat) :
    (s.addWatch l cid).Core := { h with }

theorem Core.setQhead {s : Solver D} (h : s.Core) {q : Nat} (hq : s.qhead ≤ q)
    (hle : q ≤ s.trail.length) : Core { s with qhead := q } :=
  { h with
    limsLe := fun n hn => Nat.le_trans (h.limsLe n hn) hq
    qheadLe := hle }

theorem Core.setWatches {s : Solver D} (h : s.Core) (w : Lit → List Nat) :
    Core { s with watches := w } := { h with }

theorem falseSecond_lits_perm (c : Clause) (l : Lit) : (c.falseSecond l).lits.Perm c.lits := by
  unfold Clause.falseSecond
  split
  · exact List.Perm.swap _ _ _
  · exact List.Perm.refl _

theorem falseSecond_c0_ne {c : Clause} {l : Lit} (h : (c.falseSecond l).c1 ≠ l) :
    (c.falseSecond l).c0 ≠ l := by
  unfold Clause.falseSecond at h ⊢
  split
  · rename_i h0
    rw [if_pos h0] at h
    exact absurd h0 h
  · rename_i h0
    exact h0

theorem findWatch_some {value : Lit → Option Bool} {old w : Lit} {qs rest : List Lit}
    (h : findWatch value old qs = some (w, rest)) :
    value w ≠ some false ∧ (w :: rest).Perm (old :: qs) := by
  induction qs generalizing rest with
  | nil => cases h
  | cons q qs ih =>
    unfold findWatch at h
    split at h
    · obtain ⟨⟨w', rest'⟩, hr, heq⟩ := Option.map_eq_some_iff.mp h
      cases heq
      obtain ⟨hval, hperm⟩ := ih hr
      refine ⟨hval, ?_⟩
      exact (List.Perm.swap _ _ _).trans ((hperm.cons q).trans (List.Perm.swap _ _ _))
    · rename_i hval
      cases h
      exact ⟨hval, List.Perm.swap _ _ _⟩

theorem findWatch_none {value : Lit → Option Bool} {old : Lit} {qs : List Lit}
    (h : findWatch value old qs = none) : ∀ q ∈ qs, value q = some false := by
  induction qs with
  | nil => simp
  | cons q qs ih =>
    unfold findWatch at h
    split at h
    · rename_i hval
      intro x hx
      rcases mem_cons.mp hx with rfl | hx
      · exact hval
      · exact ih (Option.map_eq_none_iff.mp h) x hx
    · cases h

/-! ## The loop over the watches of a literal -/

/-- The invariant inside the loop over the watches of `p`. -/
structure Visiting (s : Solver D) (p : Lit) (ws kept : List Nat) : Prop where
  core : s.Core
  propagated : p ∈ s.trail.take s.qhead
  current : s.level p.var = s.decisionLevel
  listed : ∀ cid < s.numClauses, ∀ w o, s.IsWatch cid w o →
    (w.neg = p → cid ∈ kept ++ ws) ∧ (w.neg ≠ p → cid ∈ s.watches w.neg)
  inRange : ∀ l cid, cid ∈ s.watches l → cid < s.numClauses
  inRange' : ∀ cid ∈ kept ++ ws, cid < s.numClauses
  guarded : ∀ cid < s.numClauses, ∀ w o, s.IsWatch cid w o → w.neg ∈ s.trail.take s.qhead →
    s.Guards w o ∨ (w.neg = p ∧ cid ∈ ws)

/-- Every literal of the clause is false, one of them at the current level. -/
structure Conflict (s : Solver D) (cid : Nat) : Prop where
  inRange : cid < s.numClauses
  falsified : ∀ q ∈ (s.clauses cid).lits, q.neg ∈ s.trail
  current : ∃ q ∈ (s.clauses cid).lits, s.level q.var = s.decisionLevel

namespace Visiting

variable {s : Solver D} {p : Lit} {cid : Nat} {ws kept : List Nat}

theorem mem_trail (h : s.Visiting p ws kept) : p ∈ s.trail :=
  (List.take_prefix _ _).subset h.propagated

theorem neg_not_mem (h : s.Visiting p ws kept) : p.neg ∉ s.trail :=
  h.core.not_mem_neg h.mem_trail

theorem lt_numClauses (h : s.Visiting p (cid :: ws) kept) : cid < s.numClauses :=
  h.inRange' cid (by simp)

/-- A clause whose watches need no further visit moves to the kept ones. -/
theorem advance (h : s.Visiting p (cid :: ws) kept)
    (hg : ∀ w o, s.IsWatch cid w o → w.neg = p → s.Guards w o) :
    s.Visiting p ws (kept ++ [cid]) where
  core := h.core
  propagated := h.propagated
  current := h.current
  listed := by
    intro i hi w o hwo
    simpa using h.listed i hi w o hwo
  inRange := h.inRange
  inRange' := by simpa using h.inRange'
  guarded := by
    intro i hi w o hwo hneg
    rcases h.guarded i hi w o hwo hneg with hg' | ⟨hp, hmem⟩
    · exact .inl hg'
    · rcases mem_cons.mp hmem with rfl | hmem
      · exact .inl (hg w o hwo hp)
      · exact .inr ⟨hp, hmem⟩

theorem isWatch_falseSecond {l : Lit} {i : Nat} {w o : Lit} :
    (s.setClause cid ((s.clauses cid).falseSecond l)).IsWatch i w o ↔ s.IsWatch i w o := by
  unfold IsWatch
  by_cases hi : i = cid
  · subst hi
    rw [setClause_clauses_self]
    unfold Clause.falseSecond
    split
    · exact or_comm
    · rfl
  · rw [setClause_clauses_of_ne s _ hi]

theorem falseSecond (h : s.Visiting p (cid :: ws) kept) :
    (s.setClause cid ((s.clauses cid).falseSecond p.neg)).Visiting p (cid :: ws) kept := by
  have hcore : (s.setClause cid ((s.clauses cid).falseSecond p.neg)).Core := by
    by_cases h0 : (s.clauses cid).c0 = p.neg
    · exact h.core.setClause h.lt_numClauses (falseSecond_lits_perm _ _) (h0 ▸ h.neg_not_mem)
    · have hsame : s.setClause cid ((s.clauses cid).falseSecond p.neg) = s := by
        simp [Clause.falseSecond, h0, Solver.setClause]
      rw [hsame]
      exact h.core
  exact {
    core := hcore
    propagated := h.propagated
    current := h.current
    listed := fun i hi w o hwo => h.listed i hi w o (isWatch_falseSecond.mp hwo)
    inRange := h.inRange
    inRange' := h.inRange'
    guarded := fun i hi w o hwo => h.guarded i hi w o (isWatch_falseSecond.mp hwo) }

/-- The watch `p.neg` of the clause is replaced by a literal that is not false. -/
theorem moveWatch (h : s.Visiting p (cid :: ws) kept) (h1 : (s.clauses cid).c1 = p.neg)
    (h0 : s.valueLit (s.clauses cid).c0 ≠ some true) {w : Lit} {rest : List Lit}
    (hw : findWatch s.valueLit (s.clauses cid).c1 (s.clauses cid).rest = some (w, rest)) :
    ((s.setClause cid ⟨(s.clauses cid).c0, w, rest⟩).addWatch w.neg cid).Visiting p ws kept := by
  obtain ⟨hval, hperm⟩ := findWatch_some hw
  have hcid := h.lt_numClauses
  have hc0 : (s.clauses cid).c0 ∉ s.trail := fun hm => h0 ((h.core.value _).mpr hm)
  have hlits : (Clause.lits ⟨(s.clauses cid).c0, w, rest⟩).Perm (s.clauses cid).lits :=
    hperm.cons _
  have hcore := (h.core.setClause hcid hlits hc0).addWatch w.neg cid
  have hnotw : w.neg ∉ s.trail := fun hm => hval ((h.core.value_false w).mpr hm)
  have hwp : w.neg ≠ p := fun heq => hnotw (heq ▸ h.mem_trail)
  -- The other watch is not false: its partner would have been true.
  have hne : (s.clauses cid).c0 ≠ (s.clauses cid).c1 := by
    have hn := h.core.clauseNodup cid hcid
    simp only [Clause.lits, nodup_cons, mem_cons, not_or] at hn
    exact hn.1.1
  have hother : (s.clauses cid).c0.neg ∉ s.trail.take s.qhead := by
    intro hm
    rcases h.guarded cid hcid _ _ (.inl ⟨rfl, rfl⟩) hm with hg | ⟨hp, -⟩
    · exact h.neg_not_mem (h1 ▸ hg.1)
    · exact hne (by rw [h1, ← hp, Lit.neg_neg])
  have hclauses : ∀ i, i ≠ cid →
      ((s.setClause cid ⟨(s.clauses cid).c0, w, rest⟩).addWatch w.neg cid).clauses i =
        s.clauses i := fun i hi => setClause_clauses_of_ne s _ hi
  have hself : ((s.setClause cid ⟨(s.clauses cid).c0, w, rest⟩).addWatch w.neg cid).clauses cid =
      ⟨(s.clauses cid).c0, w, rest⟩ := setClause_clauses_self s _ _
  have hwatch : ∀ l, ((s.setClause cid ⟨(s.clauses cid).c0, w, rest⟩).addWatch w.neg cid).watches l =
      if l = w.neg then s.watches l ++ [cid] else s.watches l := by
    intro l
    by_cases hl : l = w.neg <;> simp [Solver.addWatch, Solver.setClause, hl]
  have hold : ∀ l i, i ∈ s.watches l →
      i ∈ ((s.setClause cid ⟨(s.clauses cid).c0, w, rest⟩).addWatch w.neg cid).watches l := by
    intro l i hi
    rw [hwatch]
    split
    · exact mem_append_left _ hi
    · exact hi
  refine ⟨hcore, h.propagated, h.current, ?_, ?_, ?_, ?_⟩
  · intro i hi x o hxo
    by_cases hic : i = cid
    · subst hic
      unfold IsWatch at hxo
      rw [hself] at hxo
      rcases hxo with ⟨rfl, rfl⟩ | ⟨rfl, rfl⟩
      · obtain ⟨-, h₂⟩ := h.listed i hcid _ _ (.inl ⟨rfl, rfl⟩)
        refine ⟨fun hp => ?_, fun hp => hold _ _ (h₂ hp)⟩
        exact absurd (by rw [h1, ← hp, Lit.neg_neg]) hne
      · refine ⟨fun hp => absurd hp hwp, fun _ => ?_⟩
        rw [hwatch, if_pos rfl]
        simp
    · unfold IsWatch at hxo
      rw [hclauses i hic] at hxo
      obtain ⟨h₁, h₂⟩ := h.listed i hi x o hxo
      refine ⟨fun hp => ?_, fun hp => hold _ _ (h₂ hp)⟩
      have := h₁ hp
      simp only [mem_append, mem_cons] at this ⊢
      tauto
  · intro l i hi
    rw [hwatch] at hi
    split at hi
    · rcases mem_append.mp hi with hi | hi
      · exact h.inRange l i hi
      · obtain rfl := mem_singleton.mp hi
        exact hcid
    · exact h.inRange l i hi
  · intro i hi
    refine h.inRange' i ?_
    simp only [mem_append, mem_cons] at hi ⊢
    tauto
  · intro i hi x o hxo hneg
    by_cases hic : i = cid
    · subst hic
      unfold IsWatch at hxo
      rw [hself] at hxo
      rcases hxo with ⟨rfl, rfl⟩ | ⟨rfl, rfl⟩
      · exact absurd hneg hother
      · exact absurd ((List.take_prefix _ _).subset hneg) hnotw
    · unfold IsWatch at hxo
      rw [hclauses i hic] at hxo
      rcases h.guarded i hi x o hxo hneg with hg | ⟨hp, hmem⟩
      · exact .inl hg
      · refine .inr ⟨hp, ?_⟩
        exact (mem_cons.mp hmem).resolve_left hic

theorem guards_assign {l : Lit} {r : Option Nat} (hc : s.Core) (hl : s.valueLit l = none) {w o : Lit}
    (hw : w.neg ∈ s.trail) (hg : s.Guards w o) : (s.assign l r).Guards w o := by
  obtain ⟨ho, hle⟩ := hg
  refine ⟨mem_append_left _ ho, ?_⟩
  have h₁ := hc.ne_var_of_none hl ho
  have h₂ := hc.ne_var_of_none hl hw
  rw [assign_level, assign_level, if_neg h₁, if_neg (by simpa using h₂)]
  exact hle

theorem unit (h : s.Visiting p (cid :: ws) kept) (h1 : (s.clauses cid).c1 = p.neg)
    (h0 : s.valueLit (s.clauses cid).c0 = none)
    (hrest : ∀ q ∈ (s.clauses cid).rest, s.valueLit q = some false) :
    (s.assign (s.clauses cid).c0 (some cid)).Visiting p ws (kept ++ [cid]) := by
  have hcid := h.lt_numClauses
  have hj : s.Justified (s.clauses cid).c0 (some cid) := by
    refine ⟨hcid, rfl, fun q hq => ?_⟩
    rcases mem_cons.mp hq with rfl | hq
    · rw [h1, Lit.neg_neg]
      exact h.mem_trail
    · exact (h.core.value_false q).mp (hrest q hq)
  have hcore := h.core.assign h0 (h.core.clauseRange cid hcid _ (by simp [Clause.lits])) hj
  have htake : (s.assign (s.clauses cid).c0 (some cid)).trail.take s.qhead =
      s.trail.take s.qhead := by
    rw [assign_trail, take_append_of_le_length h.core.qheadLe]
  have hpv := h.core.ne_var_of_none h0 h.mem_trail
  have hcur : (s.assign (s.clauses cid).c0 (some cid)).level p.var = s.decisionLevel := by
    rw [assign_level, if_neg hpv]
    exact h.current
  have hvisit : (s.assign (s.clauses cid).c0 (some cid)).Visiting p (cid :: ws) kept := by
    refine ⟨hcore, by rw [assign_qhead, htake]; exact h.propagated, hcur, h.listed, h.inRange,
      h.inRange', ?_⟩
    intro i hi w o hwo hneg
    rw [assign_qhead, htake] at hneg
    rcases h.guarded i hi w o hwo hneg with hg | hp
    · exact .inl (guards_assign h.core h0 ((List.take_prefix _ _).subset hneg) hg)
    · exact .inr hp
  refine hvisit.advance ?_
  rintro w o (⟨rfl, rfl⟩ | ⟨rfl, rfl⟩) hp
  · -- The first literal has no value, so it is not the negation of `p`.
    exfalso
    refine (h.core.value_none h0).2 ?_
    rw [show (s.clauses cid).c0.neg = p from hp]
    exact h.mem_trail
  · refine ⟨by simp, ?_⟩
    simp only [assign_clauses]
    rw [assign_level, if_pos rfl, h1, Lit.var_neg]
    exact Nat.le_of_eq hcur.symm

end Visiting

/-- After a conflict the watches are good below the current level. -/
structure Failing (s : Solver D) (p : Lit) (kept : List Nat) (cid : Nat) : Prop where
  core : s.Core
  conflict : s.Conflict cid
  listed : ∀ cid < s.numClauses, ∀ w o, s.IsWatch cid w o →
    (w.neg = p → cid ∈ kept) ∧ (w.neg ≠ p → cid ∈ s.watches w.neg)
  inRange : ∀ l cid, cid ∈ s.watches l → cid < s.numClauses
  inRange' : ∀ cid ∈ kept, cid < s.numClauses
  guarded : ∀ cid < s.numClauses, ∀ w o, s.IsWatch cid w o → w.neg ∈ s.trail.take s.qhead →
    s.level w.var < s.decisionLevel → s.Guards w o

theorem Visiting.fail {s : Solver D} {p : Lit} {cid : Nat} {ws kept : List Nat}
    (h : s.Visiting p (cid :: ws) kept) (h1 : (s.clauses cid).c1 = p.neg)
    (h0 : s.valueLit (s.clauses cid).c0 = some false)
    (hrest : ∀ q ∈ (s.clauses cid).rest, s.valueLit q = some false) :
    Failing { s with qhead := s.trail.length } p (kept ++ [cid] ++ ws) cid := by
  have hcid := h.lt_numClauses
  refine ⟨h.core.setQhead h.core.qheadLe (Nat.le_refl _), ⟨hcid, ?_, ?_⟩, ?_, h.inRange, ?_, ?_⟩
  · intro q hq
    rcases mem_cons.mp hq with rfl | hq
    · exact (h.core.value_false _).mp h0
    · rcases mem_cons.mp hq with rfl | hq
      · rw [h1, Lit.neg_neg]
        exact h.mem_trail
      · exact (h.core.value_false q).mp (hrest q hq)
  · refine ⟨(s.clauses cid).c1, by simp [Clause.lits], ?_⟩
    rw [h1]
    exact h.current
  · intro i hi w o hwo
    simpa using h.listed i hi w o hwo
  · simpa using h.inRange'
  · intro i hi w o hwo hneg hlt
    -- Literals that were not propagated yet are of the current level.
    have hprop : w.neg ∈ s.trail.take s.qhead := by
      by_contra hnot
      have hmem : w.neg ∈ s.trail := by
        rw [take_of_length_le (Nat.le_refl _)] at hneg
        exact hneg
      obtain ⟨j, hj⟩ := mem_iff_getElem?.mp hmem
      have hge : s.qhead ≤ j := by
        by_contra hjq
        have htake : (s.trail.take s.qhead)[j]? = some w.neg := by
          rw [getElem?_take, if_pos (by omega)]
          exact hj
        exact hnot (mem_of_getElem? htake)
      have hlev : s.level w.neg.var = s.decisionLevel := by
        rw [h.core.level j _ hj]
        exact levelAt_eq_decisionLevel (fun n hn => Nat.le_trans (h.core.limsLe n hn) hge)
      rw [Lit.var_neg] at hlev
      have hlt' : s.level w.var < s.decisionLevel := hlt
      omega
    rcases h.guarded i hi w o hwo hprop with hg | ⟨hp, -⟩
    · exact hg
    · have hlt' : s.level w.var < s.decisionLevel := hlt
      have hcur := h.current
      rw [← hp, Lit.var_neg] at hcur
      omega

def Visited (s : Solver D) (p : Lit) (r : Solver D × List Nat × Option Nat) : Prop :=
  s.Extends r.1 ∧
    match r.2.2 with
    | none => r.1.Visiting p [] r.2.1 ∧ r.1.qhead = s.qhead
    | some cid => r.1.Failing p r.2.1 cid

theorem Visited.of_extends {s t : Solver D} {p : Lit} {r : Solver D × List Nat × Option Nat}
    (hst : s.Extends t) (hq : t.qhead = s.qhead) (h : t.Visited p r) : s.Visited p r := by
  obtain ⟨hext, hr⟩ := h
  refine ⟨hst.trans hext, ?_⟩
  split at hr
  · exact ⟨hr.1, hr.2.trans hq⟩
  · exact hr

theorem visitWatches_visited (p : Lit) : ∀ (ws kept : List Nat) (s : Solver D),
    s.Visiting p ws kept → s.Visited p (visitWatches p ws kept s) := by
  intro ws
  induction ws with
  | nil =>
    intro kept s h
    exact ⟨Extends.refl s, h, rfl⟩
  | cons cid ws ih =>
    intro kept s h
    have hswap := h.falseSecond
    have hext := Extends.setClause s (falseSecond_lits_perm (s.clauses cid) p.neg)
    have hself := setClause_clauses_self s cid ((s.clauses cid).falseSecond p.neg)
    have hc0 := falseSecond_c0_ne (c := s.clauses cid) (l := p.neg)
    have hq := setClause_qhead s cid ((s.clauses cid).falseSecond p.neg)
    unfold visitWatches
    dsimp only
    generalize (s.clauses cid).falseSecond p.neg = c at hswap hext hself hc0 hq ⊢
    generalize s.setClause cid c = t at hswap hext hself hq ⊢
    subst hself
    split
    · rename_i h1
      refine Visited.of_extends hext hq (ih _ _ (hswap.advance ?_))
      -- Neither watch is the negation of `p`.
      rintro w o (⟨rfl, rfl⟩ | ⟨rfl, rfl⟩) hp
      · exact absurd (Lit.neg_eq_iff.mp hp) (hc0 h1)
      · exact absurd (Lit.neg_eq_iff.mp hp) h1
    · rename_i h1
      have h1 : (t.clauses cid).c1 = p.neg := not_not.mp h1
      split
      · rename_i htrue
        refine Visited.of_extends hext hq (ih _ _ (hswap.advance ?_))
        have hmem := (hswap.core.value _).mp htrue
        rintro w o (⟨rfl, rfl⟩ | ⟨rfl, rfl⟩) hp
        · exact absurd hmem (Lit.neg_eq_iff.mp hp ▸ hswap.neg_not_mem)
        · refine ⟨hmem, ?_⟩
          rw [h1, Lit.var_neg, hswap.current]
          exact hswap.core.level_le hmem
      · rename_i hnt
        split
        · rename_i w rest hw
          have hperm : (Clause.lits ⟨(t.clauses cid).c0, w, rest⟩).Perm (t.clauses cid).lits :=
            (findWatch_some hw).2.cons _
          have hmove := (Extends.setClause t hperm).trans (Extends.addWatch _ w.neg cid)
          exact Visited.of_extends (hext.trans hmove) hq (ih _ _ (hswap.moveWatch h1 hnt hw))
        · rename_i hnone
          have hrest := findWatch_none hnone
          split
          · rename_i hfalse
            exact ⟨hext.trans (Extends.setQhead _ _), hswap.fail h1 hfalse hrest⟩
          · rename_i hnf
            have hval : t.valueLit (t.clauses cid).c0 = none := by
              cases hv : t.valueLit (t.clauses cid).c0 with
              | none => rfl
              | some b => cases b <;> simp_all
            exact Visited.of_extends (hext.trans (Extends.assign _ _ _)) hq
              (ih _ _ (hswap.unit h1 hval hrest))

/-! ## The loop over the trail -/

def Propagated (s : Solver D) (r : Solver D × Option Nat) : Prop :=
  s.Extends r.1 ∧
    match r.2 with
    | none => r.1.Good ∧ r.1.qhead = r.1.trail.length
    | some cid => r.1.Core ∧ r.1.Watched r.1.decisionLevel ∧ r.1.Conflict cid

theorem take_succ_of_getElem? {α : Type} {xs : List α} {i : Nat} {x : α} (h : xs[i]? = some x) :
    xs.take (i + 1) = xs.take i ++ [x] := by
  rw [take_add_one, h]
  rfl

/-- The next literal to propagate is visited with all its watches. -/
theorem Good.visiting {s : Solver D} (h : s.Good) {p : Lit} (hp : s.trail[s.qhead]? = some p) :
    Visiting { s with qhead := s.qhead + 1 } p (s.watches p) [] := by
  obtain ⟨hlt, -⟩ := List.getElem?_eq_some_iff.mp hp
  have htake := take_succ_of_getElem? hp
  have hlev : s.level p.var = s.decisionLevel := by
    rw [h.core.level _ _ hp]
    exact levelAt_eq_decisionLevel h.core.limsLe
  refine ⟨h.core.setQhead (Nat.le_succ _) hlt, ?_, hlev, ?_, h.watched.inRange, ?_, ?_⟩
  · simp [htake]
  · intro cid hcid w o hwo
    have hl := h.watched.listed cid hcid w o hwo
    refine ⟨fun heq => ?_, fun _ => hl⟩
    rw [heq] at hl
    simpa using hl
  · intro cid hcid
    exact h.watched.inRange p cid (by simpa using hcid)
  · intro cid hcid w o hwo hneg
    have hl := h.watched.listed cid hcid w o hwo
    simp only [htake, mem_append, mem_singleton] at hneg
    rcases hneg with hneg | heq
    · refine .inl (h.watched.guarded cid hcid w o hwo hneg ?_)
      have := h.core.level_le ((List.take_prefix _ _).subset hneg)
      rw [Lit.var_neg] at this
      omega
    · exact .inr ⟨heq, heq ▸ hl⟩

theorem propagateLit_spec {s : Solver D} (h : s.Good) {p : Lit} (hp : s.trail[s.qhead]? = some p) :
    s.Extends (s.propagateLit p).1 ∧ match (s.propagateLit p).2 with
      | none => (s.propagateLit p).1.Good ∧ (s.propagateLit p).1.qhead = s.qhead + 1
      | some cid => (s.propagateLit p).1.Core ∧
          (s.propagateLit p).1.Watched (s.propagateLit p).1.decisionLevel ∧
          (s.propagateLit p).1.Conflict cid := by
  have hv := visitWatches_visited p _ _ _ (h.visiting hp)
  unfold propagateLit
  dsimp only
  generalize visitWatches p (s.watches p) [] { s with qhead := s.qhead + 1 } = r at hv ⊢
  obtain ⟨t, kept, confl⟩ := r
  obtain ⟨hext, hr⟩ := hv
  have hwatch : ∀ l, Function.update t.watches p kept l = if l = p then kept else t.watches l := by
    intro l
    exact Function.update_apply _ _ _ _
  have hext' : s.Extends { t with watches := Function.update t.watches p kept } :=
    ((Extends.setQhead s (s.qhead + 1)).trans hext).setWatches _
  have hlisted : (∀ cid < t.numClauses, ∀ w o, t.IsWatch cid w o →
      (w.neg = p → cid ∈ kept) ∧ (w.neg ≠ p → cid ∈ t.watches w.neg)) →
      ∀ cid < t.numClauses, ∀ w o, t.IsWatch cid w o →
        cid ∈ Function.update t.watches p kept w.neg := by
    intro hl cid hcid w o hwo
    rw [hwatch]
    split
    · rename_i heq
      exact (hl cid hcid w o hwo).1 heq
    · rename_i hne
      exact (hl cid hcid w o hwo).2 hne
  have hrange : (∀ l cid, cid ∈ t.watches l → cid < t.numClauses) →
      (∀ cid ∈ kept, cid < t.numClauses) →
      ∀ l cid, cid ∈ Function.update t.watches p kept l → cid < t.numClauses := by
    intro h₁ h₂ l cid hcid
    rw [hwatch] at hcid
    split at hcid
    · exact h₂ cid hcid
    · exact h₁ l cid hcid
  refine ⟨hext', ?_⟩
  cases confl with
  | none =>
    obtain ⟨hvis, hq⟩ := hr
    refine ⟨⟨hvis.core.setWatches _, ?_, hext'.complete h.complete⟩, hq⟩
    refine ⟨hlisted (by simpa using hvis.listed), hrange hvis.inRange (by simpa using hvis.inRange'),
      ?_⟩
    intro cid hcid w o hwo hneg _
    rcases hvis.guarded cid hcid w o hwo hneg with hg | ⟨-, hmem⟩
    · exact hg
    · cases hmem
  | some cid =>
    refine ⟨hr.core.setWatches _, ⟨hlisted hr.listed, hrange hr.inRange hr.inRange', hr.guarded⟩, ?_⟩
    exact ⟨hr.conflict.inRange, hr.conflict.falsified, hr.conflict.current⟩

theorem propagateLoop_spec : ∀ (fuel : Nat) (s : Solver D), s.Good → s.nVars < fuel + s.qhead →
    ∃ r, propagateLoop fuel s = some r ∧ s.Propagated r := by
  intro fuel
  induction fuel with
  | zero =>
    intro s h hf
    have h₁ := h.core.qheadLe
    have h₂ := h.core.length_trail_le
    omega
  | succ fuel ih =>
    intro s h hf
    unfold propagateLoop
    cases hp : s.trail[s.qhead]? with
    | none =>
      have hge := getElem?_eq_none_iff.mp hp
      exact ⟨_, rfl, Extends.refl s, h, Nat.le_antisymm h.core.qheadLe hge⟩
    | some p =>
      obtain ⟨hext, hr⟩ := propagateLit_spec h hp
      dsimp only
      generalize s.propagateLit p = r at hext hr ⊢
      obtain ⟨t, confl⟩ := r
      cases confl with
      | some cid => exact ⟨_, rfl, hext, hr⟩
      | none =>
        obtain ⟨hgood, hq⟩ := hr
        dsimp only at hq
        obtain ⟨r, hrun, hext', hpost⟩ := ih t hgood (by rw [hq, hext.nVars]; omega)
        exact ⟨r, hrun, hext.trans hext', hpost⟩

theorem propagate_spec {s : Solver D} (h : s.Good) : ∃ r, s.propagate = some r ∧ s.Propagated r :=
  propagateLoop_spec _ s h (by omega)

end Solver

end Brass.Verify.Cdcl
