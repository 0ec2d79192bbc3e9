import Brass.Verify.CdclSolve

/-!
# Adding variables and clauses

Both happen at level 0 and keep `Inv`. A clause is added after its false literals and its
repetitions are dropped; what is left decides whether it is stored, assigned at once, or
ends the solver (`addSimplified`).
-/

namespace Brass.Verify.Cdcl

open Brass.Util.Cnf List Option Solver

variable {D : Doubles}

namespace Solver

variable {l : Lit} {ls us : List Lit}

theorem resetToRoot_eq (s : Solver D) : s.resetToRoot = s.backtrack 0 := by
  unfold resetToRoot
  split
  · rfl
  · rw [backtrack_of_le (by omega)]

theorem backtrack_zero_decisionLevel (s : Solver D) : (s.backtrack 0).decisionLevel = 0 := by
  rw [backtrack_decisionLevel]
  omega

/-! ## New variables -/

section NewVar

variable {s : Solver D}

theorem newVar_fst (s : Solver D) : s.newVar.1 = s.nVars := by
  unfold newVar
  rw [resetToRoot_eq]
  simp

@[simp] theorem newVar_nVars (s : Solver D) : s.newVar.2.nVars = s.nVars + 1 := by
  unfold newVar
  rw [resetToRoot_eq]
  simp

@[simp] theorem newVar_added (s : Solver D) : s.newVar.2.added = s.added := by
  unfold newVar
  rw [resetToRoot_eq]
  simp

@[simp] theorem newVar_ok (s : Solver D) : s.newVar.2.ok = s.ok := by
  unfold newVar
  rw [resetToRoot_eq]
  simp

theorem Core.valueLit_fresh (h : s.Core) (hl : s.nVars ≤ l.var) : s.valueLit l = none := by
  cases hv : s.valueLit l with
  | none => rfl
  | some b =>
    cases b with
    | true =>
      have := h.range l ((h.value l).mp hv)
      omega
    | false =>
      have := h.range _ ((h.value_false l).mp hv)
      rw [Lit.var_neg] at this
      omega

def withVar (s : Solver D) : Solver D :=
  { s with
    nVars := s.nVars + 1
    assigns := Function.update s.assigns s.nVars none
    level := Function.update s.level s.nVars 0
    reason := Function.update s.reason s.nVars none
    seen := Function.update s.seen s.nVars false
    activity := Function.update s.activity s.nVars D.zero
    phase := Function.update s.phase s.nVars false
    xorLhs := Function.update s.xorLhs s.nVars none
    xorRhs := Function.update s.xorRhs s.nVars none
    watches := Function.update (Function.update s.watches ⟨s.nVars, false⟩ []) ⟨s.nVars, true⟩ [] }

theorem newVar_snd (s : Solver D) : s.newVar.2 = (s.backtrack 0).withVar := by
  unfold newVar
  rw [resetToRoot_eq]
  rfl

theorem Core.withVar_valueLit (h : s.Core) (l : Lit) : s.withVar.valueLit l = s.valueLit l := by
  by_cases hl : l.var = s.nVars
  · rw [h.valueLit_fresh (Nat.le_of_eq hl.symm)]
    simp [valueLit, withVar, hl]
  · simp [valueLit, withVar, hl]

theorem withVar_level (hl : l.var < s.nVars) : s.withVar.level l.var = s.level l.var := by
  simp [withVar, Nat.ne_of_lt hl]

theorem withVar_reason (hl : l.var < s.nVars) : s.withVar.reason l.var = s.reason l.var := by
  simp [withVar, Nat.ne_of_lt hl]

theorem withVar_watches (hl : l.var < s.nVars) : s.withVar.watches l = s.watches l := by
  have hne : ∀ b, l ≠ ⟨s.nVars, b⟩ := by
    rintro b rfl
    exact Nat.lt_irrefl _ hl
  simp [withVar, hne]

theorem Core.withVar (h : s.Core) : s.withVar.Core := by
  have hrange : ∀ {i : Nat} {l : Lit}, s.trail[i]? = some l → l.var < s.nVars := fun hl =>
    h.range _ (mem_of_getElem? hl)
  exact {
    h with
    value := fun l => by
      rw [h.withVar_valueLit]
      exact h.value l
    range := fun l hl => Nat.lt_succ_of_lt (h.range l hl)
    level := fun i l hl => by
      rw [withVar_level (hrange hl)]
      exact h.level i l hl
    reasonClause := fun i l cid hl hr => by
      rw [withVar_reason (hrange hl)] at hr
      exact h.reasonClause i l cid hl hr
    reasonDecision := fun i l hl hr => by
      rw [withVar_reason (hrange hl)] at hr
      exact h.reasonDecision i l hl hr
    clauseRange := fun cid hcid l hl => Nat.lt_succ_of_lt (h.clauseRange cid hcid l hl)
    unseen := fun v => by
      by_cases hv : v = s.nVars
      · simp [Solver.withVar, hv]
      · simpa [Solver.withVar, hv] using h.unseen v
    activity := fun v => by
      by_cases hv : v = s.nVars
      · simpa [Solver.withVar, hv] using D.nonNeg_zero
      · simpa [Solver.withVar, hv] using h.activity v
    addedRange := fun c hc l hl => Nat.lt_succ_of_lt (h.addedRange c hc l hl) }

theorem Core.watch_range (h : s.Core) {cid : Nat} (hcid : cid < s.numClauses) {w o : Lit}
    (hwo : s.IsWatch cid w o) : w.var < s.nVars ∧ o.var < s.nVars := by
  have h0 := h.clauseRange cid hcid (s.clauses cid).c0 (by simp [Clause.lits])
  have h1 := h.clauseRange cid hcid (s.clauses cid).c1 (by simp [Clause.lits])
  rcases hwo with ⟨rfl, rfl⟩ | ⟨rfl, rfl⟩
  · exact ⟨h0, h1⟩
  · exact ⟨h1, h0⟩

theorem Good.withVar (h : s.Good) : s.withVar.Good := by
  refine ⟨h.core.withVar, ⟨?_, ?_, ?_⟩, h.complete⟩
  · intro cid hcid w o hwo
    rw [withVar_watches (l := w.neg) (h.core.watch_range hcid hwo).1]
    exact h.watched.listed cid hcid w o hwo
  · intro l cid hcid
    refine h.watched.inRange l cid ?_
    unfold Solver.withVar at hcid
    by_cases h₁ : l = ⟨s.nVars, true⟩
    · simp [h₁] at hcid
    · by_cases h₂ : l = ⟨s.nVars, false⟩
      · simp [h₂] at hcid
      · simpa [h₁, h₂] using hcid
  · intro cid hcid w o hwo hneg hlt
    obtain ⟨hw, ho⟩ := h.core.watch_range hcid hwo
    rw [withVar_level hw] at hlt
    obtain ⟨hot, hle⟩ := h.watched.guarded cid hcid w o hwo hneg hlt
    exact ⟨hot, by rw [withVar_level hw, withVar_level ho]; exact hle⟩

theorem Inv.newVar (h : s.Inv) : s.newVar.2.Inv := by
  refine ⟨fun hok => ?_, fun hok => ?_⟩
  · rw [newVar_snd]
    exact ((h.1 (by simpa using hok)).backtrack 0).withVar
  · rw [newVar_added]
    exact h.2 (by simpa using hok)

end NewVar

/-! ## Simplifying a clause -/

theorem dropFalse_none {value : Lit → Option Bool} (h : dropFalse value ls = none) :
    ∃ l ∈ ls, value l = some true := by
  induction ls with
  | nil => cases h
  | cons l ls ih =>
    unfold dropFalse at h
    split at h
    · rename_i hv
      exact ⟨l, by simp, hv⟩
    · obtain ⟨q, hq, hv⟩ := ih h
      exact ⟨q, mem_cons_of_mem _ hq, hv⟩
    · obtain ⟨q, hq, hv⟩ := ih (map_eq_none_iff.mp h)
      exact ⟨q, mem_cons_of_mem _ hq, hv⟩

theorem dropFalse_some {value : Lit → Option Bool} (h : dropFalse value ls = some us) :
    (∀ l ∈ us, l ∈ ls ∧ value l = none) ∧ ∀ l ∈ ls, l ∈ us ∨ value l = some false := by
  induction ls generalizing us with
  | nil =>
    obtain rfl := (some.inj h)
    simp
  | cons l ls ih =>
    unfold dropFalse at h
    split at h
    · cases h
    · rename_i hv
      obtain ⟨h₁, h₂⟩ := ih h
      refine ⟨fun q hq => ⟨mem_cons_of_mem _ (h₁ q hq).1, (h₁ q hq).2⟩, fun q hq => ?_⟩
      rcases mem_cons.mp hq with rfl | hq
      · exact .inr hv
      · exact h₂ q hq
    · rename_i hv
      obtain ⟨rest, hrest, rfl⟩ := map_eq_some_iff.mp h
      obtain ⟨h₁, h₂⟩ := ih hrest
      refine ⟨fun q hq => ?_, fun q hq => ?_⟩
      · rcases mem_cons.mp hq with rfl | hq
        · exact ⟨by simp, hv⟩
        · exact ⟨mem_cons_of_mem _ (h₁ q hq).1, (h₁ q hq).2⟩
      · rcases mem_cons.mp hq with rfl | hq
        · exact .inl (by simp)
        · exact (h₂ q hq).imp_left (mem_cons_of_mem _)

theorem dropRepeated_none {prev : Lit} (h : dropRepeated prev ls = none) :
    ∃ l, l ∈ prev :: ls ∧ l.neg ∈ prev :: ls := by
  induction ls generalizing prev with
  | nil => cases h
  | cons l ls ih =>
    unfold dropRepeated at h
    have hcons : (∃ q, q ∈ l :: ls ∧ q.neg ∈ l :: ls) →
        ∃ q, q ∈ prev :: l :: ls ∧ q.neg ∈ prev :: l :: ls := by
      rintro ⟨q, h₁, h₂⟩
      exact ⟨q, mem_cons_of_mem _ h₁, mem_cons_of_mem _ h₂⟩
    split at h
    · rename_i heq
      exact ⟨prev, by simp, by simp [heq]⟩
    · split at h
      · exact hcons (ih h)
      · exact hcons (ih (map_eq_none_iff.mp h))

/-- Over a list sorted by codes, dropping repetitions leaves larger and larger literals. -/
theorem dropRepeated_some {prev : Lit}
    (hsorted : (prev :: ls).Pairwise (fun a b => a.code ≤ b.code))
    (h : dropRepeated prev ls = some us) :
    (prev :: us).Pairwise (fun a b => a.code < b.code) ∧ ∀ l, l ∈ prev :: us ↔ l ∈ prev :: ls := by
  induction ls generalizing prev us with
  | nil =>
    obtain rfl := some.inj h
    simp
  | cons l ls ih =>
    obtain ⟨hprev, htail⟩ := pairwise_cons.mp hsorted
    unfold dropRepeated at h
    split at h
    · cases h
    · split at h
      · rename_i heq
        subst heq
        obtain ⟨h₁, h₂⟩ := ih htail h
        refine ⟨h₁, fun q => ?_⟩
        rw [h₂]
        simp
      · rename_i hne
        obtain ⟨rest, hrest, rfl⟩ := map_eq_some_iff.mp h
        obtain ⟨h₁, h₂⟩ := ih htail hrest
        refine ⟨pairwise_cons.mpr ⟨fun q hq => ?_, h₁⟩, fun q => ?_⟩
        · have hlt : prev.code < l.code := by
            refine Nat.lt_of_le_of_ne (hprev l (by simp)) (fun hcode => hne ?_)
            exact (Lit.code_inj.mp hcode).symm
          rcases mem_cons.mp hq with rfl | hq
          · exact hlt
          · exact Nat.lt_trans hlt ((pairwise_cons.mp h₁).1 q hq)
        · rw [mem_cons, h₂, mem_cons (a := q) (b := prev)]

theorem sortLits_sorted (ls : List Lit) : (sortLits ls).Pairwise (fun a b => a.code ≤ b.code) := by
  have : Std.Total (fun a b : Lit => a.code ≤ b.code) := ⟨fun a b => Nat.le_total _ _⟩
  have : IsTrans Lit (fun a b => a.code ≤ b.code) := ⟨fun _ _ _ h₁ h₂ => Nat.le_trans h₁ h₂⟩
  exact pairwise_insertionSort _ ls

theorem mem_sortLits : l ∈ sortLits ls ↔ l ∈ ls :=
  mem_insertionSort _

theorem uniqueLits_none (h : uniqueLits ls = none) : ∃ l, l ∈ ls ∧ l.neg ∈ ls := by
  cases ls with
  | nil => cases h
  | cons l ls => exact dropRepeated_none (map_eq_none_iff.mp h)

theorem uniqueLits_some (hsorted : ls.Pairwise (fun a b => a.code ≤ b.code))
    (h : uniqueLits ls = some us) : us.Nodup ∧ ∀ l, l ∈ us ↔ l ∈ ls := by
  cases ls with
  | nil =>
    obtain rfl := some.inj h
    simp
  | cons l ls =>
    obtain ⟨rest, hrest, rfl⟩ := map_eq_some_iff.mp h
    obtain ⟨h₁, h₂⟩ := dropRepeated_some hsorted hrest
    refine ⟨h₁.imp (fun hlt heq => ?_), h₂⟩
    subst heq
    exact Nat.lt_irrefl _ hlt

/-! ## Adding a clause -/

section AddClause

variable {s : Solver D}
variable {lits : List Lit}

/-- A state at level 0 to which the clause `lits` is being added: it is recorded, but the
stored clauses do not imply it yet. -/
structure Adding (s : Solver D) (lits : List Lit) : Prop where
  ok : s.ok = true
  core : s.Core
  watched : s.Watched (s.decisionLevel + 1)
  root : s.decisionLevel = 0
  recorded : lits ∈ s.added
  complete : ∀ α, (∀ cid < s.numClauses, Satisfies α (s.clauses cid).lits) →
    (∀ i l, s.trail[i]? = some l → s.levelAt i = 0 → litTrue α l = true) →
    Satisfies α lits → Models s.added α

theorem Good.adding (h : s.Good) (hok : s.ok = true) (hrange : ∀ l ∈ lits, l.var < s.nVars) :
    Adding (Solver.backtrack { s with added := lits :: s.added } 0) lits := by
  have hcomm : Solver.backtrack { s with added := lits :: s.added } 0 =
      { s.backtrack 0 with added := lits :: s.added } := by
    unfold Solver.backtrack Solver.decisionLevel
    dsimp only
    split <;> rfl
  have hg := h.backtrack 0
  have hweak : ∀ {c : List Lit}, Implies (s.backtrack 0).added c → Implies (lits :: s.added) c := by
    intro c hc
    rw [backtrack_added] at hc
    exact hc.weaken (fun d hd => mem_cons_of_mem _ hd)
  rw [hcomm]
  refine ⟨?_, ?_, { hg.watched with }, backtrack_zero_decisionLevel s, by simp, ?_⟩
  · exact backtrack_ok.trans hok
  · exact {
      hg.core with
      root := fun i l hl h0 => hweak (hg.core.root i l hl h0)
      clauseImplied := fun cid hcid => hweak (hg.core.clauseImplied cid hcid)
      addedRange := by
        intro c hc l hl
        rcases mem_cons.mp hc with rfl | hc
        · show l.var < (s.backtrack 0).nVars
          rw [backtrack_nVars]
          exact hrange l hl
        · exact hg.core.addedRange c (by simpa using hc) l hl }
  · intro α hcl hroot hsat c hc
    rcases mem_cons.mp hc with rfl | hc
    · exact hsat
    · exact hg.complete α hcl hroot c (by simpa using hc)

theorem litTrue_root (h0 : s.decisionLevel = 0) {α : Nat → Bool}
    (hroot : ∀ i l, s.trail[i]? = some l → s.levelAt i = 0 → litTrue α l = true)
    (hl : l ∈ s.trail) : litTrue α l = true := by
  obtain ⟨i, hi⟩ := mem_iff_getElem?.mp hl
  exact hroot i l hi (Nat.le_zero.mp (h0 ▸ s.levelAt_le i))

theorem Adding.good_of_true (h : s.Adding lits) (hl : l ∈ lits) (ht : s.valueLit l = some true) :
    s.Good :=
  ⟨h.core, h.watched, fun α hcl hroot => h.complete α hcl hroot
    ⟨l, hl, litTrue_root h.root hroot ((h.core.value l).mp ht)⟩⟩

theorem Adding.good_of_tautology (h : s.Adding lits) (hl : l ∈ lits) (hn : l.neg ∈ lits) :
    s.Good := by
  refine ⟨h.core, h.watched, fun α hcl hroot => h.complete α hcl hroot ?_⟩
  cases ht : litTrue α l with
  | true => exact ⟨l, hl, ht⟩
  | false => exact ⟨l.neg, hn, by rw [litTrue_neg, ht]; rfl⟩

/-- What is left of a clause after simplification. -/
structure Reduced (s : Solver D) (lits us : List Lit) : Prop where
  nodup : us.Nodup
  free : ∀ l ∈ us, l ∈ lits ∧ s.valueLit l = none
  dropped : ∀ l ∈ lits, l ∈ us ∨ s.valueLit l = some false

theorem Adding.implies_reduced (h : s.Adding lits) (hr : s.Reduced lits us) :
    Implies s.added us := by
  refine (implies_of_mem h.recorded).resolve_false (fun l hl => ?_)
  rcases hr.dropped l hl with hm | hf
  · exact .inl hm
  · exact .inr (h.core.implied_of_root h.root ((h.core.value_false l).mp hf))

theorem Reduced.satisfies (hr : s.Reduced lits us) {α : Nat → Bool} (h : Satisfies α us) :
    Satisfies α lits := h.mono (fun l hl => (hr.free l hl).1)

def Added (s : Solver D) (lits : List Lit) (r : Bool × Solver D) : Prop :=
  Kept { s with added := lits :: s.added } r.2 ∧ r.2.Inv

theorem Adding.inv_unit (h : s.Adding lits) (hr : s.Reduced lits [l]) :
    ∃ r, s.addUnit l = some r ∧ s.Kept r.2 ∧ r.2.Inv := by
  obtain ⟨hmem, hnone⟩ := hr.free l (by simp)
  have himp := h.implies_reduced hr
  have hrange := h.core.addedRange lits h.recorded l hmem
  have hgood : (s.assign l none).Good := by
    refine ⟨h.core.assign hnone hrange (.inl ⟨h.root, himp⟩), h.watched.assign h.core hnone, ?_⟩
    intro α hcl hroot
    refine h.complete α hcl (fun i q hq h0 => hroot i q ((Extends.assign s l none).getElem? hq) h0) ?_
    refine hr.satisfies (satisfies_singleton.mpr (hroot s.trail.length l (by simp) ?_))
    rw [assign_levelAt, h.core.levelAt_end, h.root]
  obtain ⟨⟨t, confl⟩, hrun, hext, hres⟩ := propagate_spec hgood
  have hok : t.ok = true := hext.ok.trans h.ok
  have hkept : s.Kept t := (Extends.assign s l none).kept.trans hext.kept
  unfold addUnit
  rw [hnone]
  dsimp only
  rw [hrun]
  cases confl with
  | some cid =>
    obtain ⟨hcore, -, hconf⟩ := hres
    have h0 : t.decisionLevel = 0 := hext.decisionLevel.trans h.root
    have hans := hcore.answers_conflict h0 hconf l
    exact ⟨_, rfl, hkept.trans hans.1, hans.2.1⟩
  | none => exact ⟨_, rfl, hkept, hres.1.inv hok⟩

theorem Adding.inv_simplified (h : s.Adding lits) (hr : s.Reduced lits us) :
    ∃ r, s.addSimplified us = some r ∧ s.Kept r.2 ∧ r.2.Inv := by
  have himp := h.implies_reduced hr
  unfold addSimplified
  split
  · refine ⟨_, rfl, ⟨rfl, rfl, rfl, rfl, rfl⟩, fun hok => ?_, fun _ α hα => ?_⟩
    · cases hok
    · obtain ⟨l, hl, -⟩ := himp α hα
      cases hl
  · exact h.inv_unit hr
  · rename_i a b rest
    have hfree : ∀ l ∈ a :: b :: rest, l.neg ∉ s.trail := fun l hl =>
      (h.core.value_none (hr.free l hl).2).2
    have htake : ∀ l ∈ a :: b :: rest, l.neg ∉ s.trail.take s.qhead := fun l hl hm =>
      hfree l hl ((List.take_prefix _ _).subset hm)
    have hstore : s.Storable ⟨a, b, rest⟩ := by
      refine ⟨himp, hr.nodup, fun l hl => ?_⟩
      exact h.core.addedRange lits h.recorded l (hr.free l hl).1
    have hgood : (s.pushClause ⟨a, b, rest⟩).Good := by
      refine ⟨h.core.pushClause hstore,
        h.watched.pushClause (htake a (by simp)) (htake b (by simp)), ?_⟩
      intro α hcl hroot
      refine h.complete α (fun cid hcid => ?_) hroot (hr.satisfies ?_)
      · have := hcl cid (Nat.lt_succ_of_lt hcid)
        rwa [pushClause_clauses_of_lt s _ hcid] at this
      · have := hcl s.numClauses (Nat.lt_succ_self _)
        rwa [pushClause_clauses_new] at this
    exact ⟨_, rfl, ⟨rfl, rfl, rfl, rfl, rfl⟩, hgood.inv h.ok⟩

theorem Inv.addClause (h : s.Inv) (hrange : ∀ l ∈ lits, l.var < s.nVars) :
    ∃ r, s.addClause lits = some r ∧ s.Added lits r := by
  unfold Solver.addClause
  dsimp only
  split
  · rename_i hok
    refine ⟨_, rfl, Kept.refl _, fun htrue => ?_, fun _ α hα => ?_⟩
    · rw [hok] at htrue
      cases htrue
    · exact h.2 hok α (fun c hc => hα c (mem_cons_of_mem _ hc))
  · rename_i hok
    have hok' : s.ok = true := by simpa using hok
    have hadd := (h.1 hok').adding hok' hrange
    have hkept := Kept.backtrack { s with added := lits :: s.added } 0
    rw [resetToRoot_eq]
    split
    · rename_i hdrop
      obtain ⟨l, hl, ht⟩ := dropFalse_none hdrop
      exact ⟨_, rfl, hkept, (hadd.good_of_true hl ht).inv hadd.ok⟩
    · rename_i ls hdrop
      obtain ⟨hfree, hdropped⟩ := dropFalse_some hdrop
      split
      · rename_i huniq
        obtain ⟨l, h₁, h₂⟩ := uniqueLits_none huniq
        have hmem : ∀ {q}, q ∈ sortLits ls → q ∈ lits := fun hq =>
          (hfree _ (mem_sortLits.mp hq)).1
        exact ⟨_, rfl, hkept, (hadd.good_of_tautology (hmem h₁) (hmem h₂)).inv hadd.ok⟩
      · rename_i us huniq
        obtain ⟨hnodup, hmem⟩ := uniqueLits_some (sortLits_sorted ls) huniq
        have hr : Reduced (backtrack { s with added := lits :: s.added } 0) lits us := by
          refine ⟨hnodup, fun l hl => ?_, fun l hl => ?_⟩
          · exact hfree l (mem_sortLits.mp ((hmem l).mp hl))
          · exact (hdropped l hl).imp_left (fun hm => (hmem l).mpr (mem_sortLits.mpr hm))
        obtain ⟨r, hrun, hk, hinv⟩ := hadd.inv_simplified hr
        exact ⟨r, hrun, hkept.trans hk, hinv⟩

end AddClause

/-! ## The initial solver -/

theorem init_good (D : Doubles) : (init D).Good := by
  have htrail : (init D).trail = [trueLit] := rfl
  have hget : ∀ {i : Nat} {l : Lit}, (init D).trail[i]? = some l → i = 0 ∧ l = trueLit := by
    intro i l hl
    rw [htrail] at hl
    cases i with
    | zero => exact ⟨rfl, (some.inj hl).symm⟩
    | succ i => simp at hl
  have hnil : (init D).trailLim = [] := rfl
  have hadded : Implies (init D).added [trueLit] := implies_of_mem (mem_singleton.mpr rfl)
  refine ⟨?_, ?_, ?_⟩
  · exact {
      value := by
        rintro ⟨v, b⟩
        rw [htrail, mem_singleton]
        by_cases hv : v = 0
        · subst hv
          cases b <;> simp [valueLit, init, assign, trueLit]
        · simp [valueLit, init, assign, trueLit, newVar, blank, resetToRoot, decisionLevel, hv]
      nodup := by simp [htrail]
      range := by
        intro l hl
        rw [htrail] at hl
        obtain rfl := mem_singleton.mp hl
        exact Nat.one_pos
      lims := by simp [hnil]
      limsLe := by simp [hnil]
      qheadLe := Nat.zero_le _
      level := by
        intro i l hl
        obtain ⟨rfl, rfl⟩ := hget hl
        rfl
      reasonClause := by
        intro i l cid hl hr
        obtain ⟨rfl, rfl⟩ := hget hl
        cases hr
      reasonDecision := fun _ _ _ _ => .inl rfl
      root := by
        intro i l hl _
        obtain ⟨rfl, rfl⟩ := hget hl
        exact hadded
      clauseImplied := fun _ h => absurd h (Nat.not_lt_zero _)
      clauseNodup := fun _ h => absurd h (Nat.not_lt_zero _)
      clauseRange := fun _ h => absurd h (Nat.not_lt_zero _)
      unseen := by
        intro v
        by_cases hv : v = 0 <;>
          simp [init, assign, newVar, blank, resetToRoot, decisionLevel, hv]
      activity := by
        intro v
        have : (init D).activity v = D.zero := by
          by_cases hv : v = 0 <;>
            simp [init, assign, newVar, blank, resetToRoot, decisionLevel, hv]
        rw [this]
        exact D.nonNeg_zero
      varInc := D.nonNeg_one
      zeroRoot := ⟨rfl, rfl⟩
      addedRange := by
        intro c hc l hl
        obtain rfl := mem_singleton.mp hc
        obtain rfl := mem_singleton.mp hl
        exact Nat.one_pos }
  · refine ⟨fun _ h => absurd h (Nat.not_lt_zero _), ?_, fun _ h => absurd h (Nat.not_lt_zero _)⟩
    intro l cid hcid
    have : (init D).watches l = [] := by
      simp [init, assign, newVar, blank, resetToRoot, decisionLevel]
    rw [this] at hcid
    cases hcid
  · intro α _ hroot c hc
    obtain rfl := mem_singleton.mp hc
    exact satisfies_singleton.mpr (hroot 0 trueLit rfl rfl)

theorem init_inv (D : Doubles) : (init D).Inv := (init_good D).inv rfl

end Solver

end Brass.Verify.Cdcl
