import Brass.Verify.CdclAnalyze

/-!
# The search is sound

Every operation of the solver keeps `Inv`: a solver that is still `ok` is `Good`, and one
that is not has added clauses without a model. `solveAssuming` always returns; its answers
are proved from the invariant in `solveAssuming_spec`, and for any sequence of operations
in `answers_sound`.
-/

namespace Brass.Verify.Cdcl

open Brass.Util.Cnf List

variable {D : Doubles}

namespace Solver

/-! ## Storing a clause -/

variable {l : Lit} {base bound cid : Nat} {k : Learnt} {t : Solver D}

section PushClause

variable (s : Solver D) (c : Clause)

@[simp] theorem pushClause_trail : (s.pushClause c).trail = s.trail := rfl
@[simp] theorem pushClause_qhead : (s.pushClause c).qhead = s.qhead := rfl
@[simp] theorem pushClause_trailLim : (s.pushClause c).trailLim = s.trailLim := rfl
@[simp] theorem pushClause_decisionLevel : (s.pushClause c).decisionLevel = s.decisionLevel := rfl
@[simp] theorem pushClause_level : (s.pushClause c).level = s.level := rfl
@[simp] theorem pushClause_valueLit : (s.pushClause c).valueLit = s.valueLit := rfl
@[simp] theorem pushClause_added : (s.pushClause c).added = s.added := rfl
@[simp] theorem pushClause_nVars : (s.pushClause c).nVars = s.nVars := rfl
@[simp] theorem pushClause_numClauses : (s.pushClause c).numClauses = s.numClauses + 1 := rfl

theorem pushClause_clauses (i : Nat) :
    (s.pushClause c).clauses i = if i = s.numClauses then c else s.clauses i := by
  simp [pushClause, addWatch, Function.update_apply]

theorem pushClause_clauses_of_lt {i : Nat} (h : i < s.numClauses) :
    (s.pushClause c).clauses i = s.clauses i := by
  rw [pushClause_clauses, if_neg (by omega)]

theorem pushClause_clauses_new : (s.pushClause c).clauses s.numClauses = c := by
  rw [pushClause_clauses, if_pos rfl]

theorem mem_pushClause_watches {i : Nat} : i ∈ (s.pushClause c).watches l ↔
      i ∈ s.watches l ∨ (i = s.numClauses ∧ (l = c.c0.neg ∨ l = c.c1.neg)) := by
  have h : (s.pushClause c).watches = ((s.addWatch c.c0.neg s.numClauses).addWatch c.c1.neg
      s.numClauses).watches := rfl
  rw [h]
  unfold addWatch
  by_cases h₁ : l = c.c1.neg <;> by_cases h₀ : l = c.c0.neg <;>
    simp [Function.update_apply, h₀, h₁] <;> grind

end PushClause

/-- A clause can be stored when it follows from the added clauses. -/
structure Storable (s : Solver D) (c : Clause) : Prop where
  implied : Implies s.added c.lits
  nodup : c.lits.Nodup
  range : ∀ l ∈ c.lits, l.var < s.nVars

theorem Core.pushClause {s : Solver D} (h : s.Core) {c : Clause} (hc : s.Storable c) :
    (s.pushClause c).Core := by
  have hall : ∀ {P : Clause → Prop}, (∀ i < s.numClauses, P (s.clauses i)) → P c →
      ∀ i < s.numClauses + 1, P ((s.pushClause c).clauses i) := by
    intro P hold hnew i hi
    rw [pushClause_clauses]
    split
    · exact hnew
    · exact hold i (by omega)
  exact {
    h with
    reasonClause := by
      intro i l cid hl hr
      obtain ⟨h₁, h₂, h₃⟩ := h.reasonClause i l cid hl hr
      rw [pushClause_clauses_of_lt s c h₁]
      exact ⟨Nat.lt_succ_of_lt h₁, h₂, h₃⟩
    clauseImplied := hall (P := fun c => Implies s.added c.lits) h.clauseImplied hc.implied
    clauseNodup := hall (P := fun c => c.lits.Nodup) h.clauseNodup hc.nodup
    clauseRange := hall (P := fun c => ∀ l ∈ c.lits, l.var < s.nVars) h.clauseRange hc.range }

theorem Complete.pushClause {s : Solver D} (h : s.Complete) (c : Clause) :
    (s.pushClause c).Complete := by
  intro α hcl hroot
  refine h α (fun i hi => ?_) hroot
  have := hcl i (Nat.lt_succ_of_lt hi)
  rwa [pushClause_clauses_of_lt s c hi] at this

/-- The new clause only needs guards for its own watches. -/
theorem Watched.pushClause {s : Solver D} (h : s.Watched bound) {c : Clause}
    (h₀ : c.c0.neg ∉ s.trail.take s.qhead) (h₁ : c.c1.neg ∉ s.trail.take s.qhead) :
    (s.pushClause c).Watched bound := by
  refine ⟨?_, ?_, ?_⟩
  · intro cid hcid w o hwo
    rw [mem_pushClause_watches]
    unfold IsWatch at hwo
    rw [pushClause_clauses] at hwo
    split at hwo
    · rename_i heq
      rcases hwo with ⟨rfl, -⟩ | ⟨rfl, -⟩
      · exact .inr ⟨heq, .inl rfl⟩
      · exact .inr ⟨heq, .inr rfl⟩
    · rename_i hne
      rw [pushClause_numClauses] at hcid
      exact .inl (h.listed cid (by omega) w o hwo)
  · intro l cid hcid
    rw [pushClause_numClauses]
    rcases (mem_pushClause_watches s c).mp hcid with hm | ⟨rfl, -⟩
    · exact Nat.lt_succ_of_lt (h.inRange l cid hm)
    · exact Nat.lt_succ_self _
  · intro cid hcid w o hwo hneg hlt
    unfold IsWatch at hwo
    rw [pushClause_clauses] at hwo
    split at hwo
    · rcases hwo with ⟨rfl, -⟩ | ⟨rfl, -⟩
      · exact absurd hneg h₀
      · exact absurd hneg h₁
    · rename_i hne
      rw [pushClause_numClauses] at hcid
      exact h.guarded cid (by omega) w o hwo hneg hlt

theorem Watched.assign {s : Solver D} (hc : s.Core) (h : s.Watched bound) {r : Option Nat}
    (hl : s.valueLit l = none) : (s.assign l r).Watched bound := by
  refine ⟨h.listed, h.inRange, ?_⟩
  intro cid hcid w o hwo hneg hlt
  rw [assign_qhead, assign_trail, take_append_of_le_length hc.qheadLe] at hneg
  have hmem := (List.take_prefix _ _).subset hneg
  refine Visiting.guards_assign hc hl hmem (h.guarded cid hcid w o hwo hneg ?_)
  have hne := hc.ne_var_of_none hl hmem
  rw [assign_level, if_neg (by simpa using hne)] at hlt
  exact hlt

theorem Good.assign {s : Solver D} (h : s.Good) {r : Option Nat} (hl : s.valueLit l = none)
    (hv : l.var < s.nVars) (hj : s.Justified l r) :
    (s.assign l r).Good :=
  ⟨h.core.assign hl hv hj, h.watched.assign h.core hl, (Extends.assign s l r).complete h.complete⟩

/-! ## Decisions -/

theorem Good.newDecision {s : Solver D} (h : s.Good) (hq : s.qhead = s.trail.length)
    (hl : s.valueLit l = none) (hv : l.var < s.nVars) : (s.newDecision l).Good := by
  have hlevel : ∀ i, i < s.trail.length →
      levelAt { s with trailLim := s.trailLim ++ [s.trail.length] } i = s.levelAt i := by
    intro i hi
    have hnot : ¬ s.trail.length ≤ i := by omega
    simp [levelAt, filter_append, hnot]
  have hcore : Core { s with trailLim := s.trailLim ++ [s.trail.length] } := by
    exact {
      h.core with
      lims := by
        refine pairwise_append.mpr ⟨h.core.lims, by simp, ?_⟩
        intro n hn m hm
        obtain rfl := mem_singleton.mp hm
        exact Nat.le_trans (h.core.limsLe n hn) h.core.qheadLe
      limsLe := by
        intro n hn
        rcases mem_append.mp hn with hn | hn
        · exact h.core.limsLe n hn
        · obtain rfl := mem_singleton.mp hn
          exact Nat.le_of_eq hq.symm
      level := by
        intro i q hq'
        obtain ⟨hi, -⟩ := List.getElem?_eq_some_iff.mp hq'
        rw [hlevel i hi]
        exact h.core.level i q hq'
      reasonDecision := by
        intro i q hq' hr
        obtain ⟨hi, -⟩ := List.getElem?_eq_some_iff.mp hq'
        rw [hlevel i hi]
        rcases h.core.reasonDecision i q hq' hr with h0 | hm
        · exact .inl h0
        · exact .inr (mem_append_left _ hm)
      root := by
        intro i q hq' h0
        obtain ⟨hi, -⟩ := List.getElem?_eq_some_iff.mp hq'
        rw [hlevel i hi] at h0
        exact h.core.root i q hq' h0
      zeroRoot := by
        obtain ⟨hi, -⟩ := List.getElem?_eq_some_iff.mp h.core.zeroRoot.1
        exact ⟨h.core.zeroRoot.1, by rw [hlevel 0 hi]; exact h.core.zeroRoot.2⟩ }
  have hwatched : Watched { s with trailLim := s.trailLim ++ [s.trail.length] }
      (s.decisionLevel + 1 + 1) := by
    refine ⟨h.watched.listed, h.watched.inRange, fun cid hcid w o hwo hneg _ => ?_⟩
    refine h.watched.guarded cid hcid w o hwo hneg ?_
    have := h.core.level_neg_le ((List.take_prefix _ _).subset hneg)
    omega
  have hcomplete : Complete { s with trailLim := s.trailLim ++ [s.trail.length] } := by
    intro α hcl hroot
    refine h.complete α hcl (fun i q hq' h0 => ?_)
    obtain ⟨hi, -⟩ := List.getElem?_eq_some_iff.mp hq'
    exact hroot i q hq' (by rw [hlevel i hi]; exact h0)
  have hdl : decisionLevel { s with trailLim := s.trailLim ++ [s.trail.length] } =
      s.decisionLevel + 1 := by simp [decisionLevel]
  have hgood : Good { s with trailLim := s.trailLim ++ [s.trail.length] } :=
    ⟨hcore, by rw [hdl]; exact hwatched, hcomplete⟩
  exact hgood.assign hl hv (.inr (by simp))

/-! ## Learning -/

/-- The new clause of `learn`: its first literal is the one that is assigned next, and its
second one is false at the level of the first. -/
theorem Watched.learn {s : Solver D} (hc : s.Core) (h : s.Watched bound) {c : Clause}
    (hfirst : s.valueLit c.c0 = none) (hlast : s.level c.c1.var = s.decisionLevel) :
    ((s.pushClause c).assign c.c0 (some s.numClauses)).Watched bound := by
  have hold := h.assign hc (r := some s.numClauses) hfirst
  have hne : ∀ {l : Lit}, l ∈ s.trail → l.var ≠ c.c0.var := fun hl => hc.ne_var_of_none hfirst hl
  refine ⟨?_, ?_, ?_⟩
  · intro cid hcid w o hwo
    rw [assign_watches, mem_pushClause_watches]
    unfold IsWatch at hwo
    rw [assign_clauses, pushClause_clauses] at hwo
    split at hwo
    · rename_i heq
      rcases hwo with ⟨rfl, -⟩ | ⟨rfl, -⟩
      · exact .inr ⟨heq, .inl rfl⟩
      · exact .inr ⟨heq, .inr rfl⟩
    · rename_i hne
      rw [assign_numClauses, pushClause_numClauses] at hcid
      exact .inl (h.listed cid (by omega) w o hwo)
  · intro l cid hcid
    rw [assign_numClauses, pushClause_numClauses]
    rcases (mem_pushClause_watches s c).mp hcid with hm | ⟨rfl, -⟩
    · exact Nat.lt_succ_of_lt (h.inRange l cid hm)
    · exact Nat.lt_succ_self _
  · intro cid hcid w o hwo hneg hlt
    unfold IsWatch at hwo
    rw [assign_clauses, pushClause_clauses] at hwo
    split at hwo
    · have hmem : w.neg ∈ s.trail := by
        rw [assign_qhead, assign_trail, pushClause_qhead, pushClause_trail,
          take_append_of_le_length hc.qheadLe] at hneg
        exact (List.take_prefix _ _).subset hneg
      rcases hwo with ⟨rfl, -⟩ | ⟨rfl, rfl⟩
      · exact absurd hmem (hc.value_none hfirst).2
      · refine ⟨by simp, ?_⟩
        have := hne hmem
        rw [assign_level, assign_level, if_pos rfl, if_neg (by simpa using this)]
        exact Nat.le_of_eq hlast.symm
    · rename_i hne
      rw [assign_numClauses, pushClause_numClauses] at hcid
      exact hold.guarded cid (by simp; omega) w o hwo hneg hlt

/-- What is known of the state after the backjump, when the learnt clause is stored. -/
structure Learnable (s : Solver D) (k : Learnt) : Prop where
  first : s.valueLit k.first = none
  range : k.first.var < s.nVars
  implied : Implies s.added (k.first :: k.others)
  nodup : (k.first :: k.others).Nodup
  others : ∀ q ∈ k.others, q.neg ∈ s.trail
  unit : k.others = [] → s.decisionLevel = 0
  head : ∀ q qs, k.others = q :: qs → s.level q.var = s.decisionLevel

theorem Learning.backjump {s : Solver D} (hc : s.Core) (h : s.Learning k) :
    (s.backtrack k.btLevel).Learnable k := by
  have hlt := h.btLevel
  have hdl : (s.backtrack k.btLevel).decisionLevel = k.btLevel := by
    rw [backtrack_decisionLevel]
    omega
  have hc' := hc.backtrack k.btLevel
  refine ⟨?_, ?_, by simpa using h.implied, h.nodup, ?_, ?_, ?_⟩
  · have h₁ : k.first ∉ (s.backtrack k.btLevel).trail := by
      intro hm
      exact hc.not_mem_neg ((hc.mem_backtrack hlt).mp hm).1 h.first
    have h₂ : k.first.neg ∉ (s.backtrack k.btLevel).trail := by
      intro hm
      have hle := ((hc.mem_backtrack hlt).mp hm).2
      rw [Lit.var_neg, h.current] at hle
      omega
    cases hv : (s.backtrack k.btLevel).valueLit k.first with
    | none => rfl
    | some b =>
      cases b with
      | true => exact absurd ((hc'.value _).mp hv) h₁
      | false => exact absurd ((hc'.value_false _).mp hv) h₂
  · rw [backtrack_nVars]
    simpa using hc.range _ h.first
  · intro q hq
    obtain ⟨hmem, hle⟩ := h.others q hq
    exact (hc.mem_backtrack hlt).mpr ⟨hmem, by simpa using hle⟩
  · intro hnil
    rw [hdl, h.unit hnil]
  · intro q qs hcons
    rw [backtrack_level, hdl]
    exact h.head q qs hcons

theorem Good.learn {s : Solver D} (h : s.Good) (hk : s.Learnable k) : (s.learn k).Good := by
  obtain ⟨first, others, btLevel⟩ := k
  cases others with
  | nil => exact h.assign hk.first hk.range (.inl ⟨hk.unit rfl, hk.implied⟩)
  | cons q qs =>
    have hstore : s.Storable ⟨first, q, qs⟩ := by
      refine ⟨hk.implied, hk.nodup, fun l hl => ?_⟩
      rcases mem_cons.mp hl with rfl | hl
      · exact hk.range
      · simpa using h.core.range _ (hk.others l hl)
    refine ⟨?_, ?_, ?_⟩
    · refine (h.core.pushClause hstore).assign hk.first hk.range ⟨Nat.lt_succ_self _, ?_, ?_⟩
      · rw [pushClause_clauses_new]
      · rw [pushClause_clauses_new]
        exact hk.others
    · exact h.watched.learn h.core hk.first (hk.head q qs rfl)
    · exact (Extends.assign _ _ _).complete (h.complete.pushClause _)

theorem Good.decayActivities {s : Solver D} (h : s.Good) : s.decayActivities.Good := by
  have hinc : D.NonNeg (D.grow s.varInc) := D.nonNeg_grow h.core.varInc
  unfold Solver.decayActivities
  dsimp only
  split
  · exact ⟨{ h.core with
        activity := fun v => D.nonNeg_rescale (h.core.activity v)
        varInc := D.nonNeg_rescale hinc }, { h.watched with }, h.complete⟩
  · exact ⟨{ h.core with varInc := hinc }, { h.watched with }, h.complete⟩

/-! ## Choosing a variable -/

section Pick

variable (s : Solver D)

/-- One round of the loop of `pickBranchVar`. -/
def pickStep (best : Option Nat × D.carrier) (v : Nat) : Option Nat × D.carrier :=
  if s.assigns v = none ∧ D.gt (s.activity v) best.2 = true then (some v, s.activity v) else best

/-- Either a free variable was found, or all variables so far have a value. -/
def Picked (vs : List Nat) (best : Option Nat × D.carrier) : Prop :=
  match best.1 with
  | some v => v ∈ vs ∧ s.assigns v = none
  | none => best.2 = D.minusOne ∧ ∀ v ∈ vs, s.assigns v ≠ none

variable {s}

theorem Picked.step (hact : ∀ v, D.NonNeg (s.activity v)) {vs : List Nat}
    {best : Option Nat × D.carrier} (h : s.Picked vs best) (v : Nat) :
    s.Picked (vs ++ [v]) (s.pickStep best v) := by
  unfold pickStep
  split
  · rename_i hv
    exact ⟨by simp, hv.1⟩
  · rename_i hv
    obtain ⟨best, act⟩ := best
    cases best with
    | some w => exact ⟨mem_append_left _ h.1, h.2⟩
    | none =>
      refine ⟨h.1, fun w hw => ?_⟩
      rcases mem_append.mp hw with hw | hw
      · exact h.2 w hw
      · obtain rfl := mem_singleton.mp hw
        intro hnone
        refine hv ⟨hnone, ?_⟩
        rw [h.1]
        exact D.gt_minusOne (hact w)

theorem Picked.foldl (hact : ∀ v, D.NonNeg (s.activity v)) : ∀ (vs before : List Nat)
    (best : Option Nat × D.carrier), s.Picked before best →
    s.Picked (before ++ vs) (vs.foldl s.pickStep best) := by
  intro vs
  induction vs with
  | nil => simp
  | cons v vs ih =>
    intro before best h
    have := ih (before ++ [v]) _ (h.step hact v)
    rwa [append_assoc] at this

theorem Core.pickBranchVar_spec (h : s.Core) : match s.pickBranchVar with
    | some v => s.assigns v = none ∧ v < s.nVars
    | none => ∀ v, v < s.nVars → s.assigns v ≠ none := by
  have hp : s.Picked (range' 1 (s.nVars - 1))
      ((range' 1 (s.nVars - 1)).foldl s.pickStep (none, D.minusOne)) :=
    Picked.foldl h.activity _ [] _ ⟨rfl, by simp⟩
  have heq : s.pickBranchVar =
      ((range' 1 (s.nVars - 1)).foldl s.pickStep (none, D.minusOne)).1 := rfl
  rw [heq]
  unfold Picked at hp
  split at hp
  · refine ⟨hp.2, ?_⟩
    have := mem_range'_1.mp hp.1
    omega
  · intro v hlt
    by_cases h0 : v = 0
    · subst h0
      exact (h.assigned_iff 0).mpr ⟨trueLit, mem_of_getElem? h.zeroRoot.1, rfl⟩
    · exact hp.2 v (mem_range'_1.mpr (by omega))

end Pick

/-! ## Answers -/

/-- The assignment of the solver; variables without a value are false. -/
def model (s : Solver D) (v : Nat) : Bool := (s.assigns v).getD false

theorem Core.litTrue_model {s : Solver D} (h : s.Core) (hl : l ∈ s.trail) :
    litTrue s.model l = true := by
  have hv := (h.value l).mpr hl
  unfold valueLit at hv
  cases ha : s.assigns l.var with
  | none =>
    rw [ha] at hv
    cases hv
  | some b =>
    rw [ha] at hv
    unfold litTrue model
    rw [ha]
    simpa using hv

theorem Core.mem_or_neg_mem {s : Solver D} (h : s.Core) (hl : s.assigns l.var ≠ none) :
    l ∈ s.trail ∨ l.neg ∈ s.trail := by
  rw [← h.value, ← h.value_false]
  unfold valueLit
  cases ha : s.assigns l.var with
  | none => exact absurd ha hl
  | some b => cases b <;> cases l.sign <;> simp

/-- A propagated assignment of all variables satisfies every added clause. -/
theorem Good.models {s : Solver D} (h : s.Good) (hq : s.qhead = s.trail.length)
    (hall : ∀ v, v < s.nVars → s.assigns v ≠ none) : Models s.added s.model := by
  refine h.complete s.model (fun cid hcid => ?_) (fun i l hl _ => ?_)
  · have hmem : ∀ l ∈ (s.clauses cid).lits, l ∈ s.trail ∨ l.neg ∈ s.trail := fun l hl =>
      h.core.mem_or_neg_mem (hall _ (h.core.clauseRange cid hcid l hl))
    have h0 : (s.clauses cid).c0 ∈ (s.clauses cid).lits := by simp [Clause.lits]
    have h1 : (s.clauses cid).c1 ∈ (s.clauses cid).lits := by simp [Clause.lits]
    rcases hmem _ h0 with ht | hf
    · exact ⟨_, h0, h.core.litTrue_model ht⟩
    · -- The first watch is false, so its partner is true.
      have hlev := h.core.level_neg_le hf
      obtain ⟨ht, -⟩ := h.watched.guarded cid hcid _ _ (.inl ⟨rfl, rfl⟩)
        (by rw [hq, take_of_length_le (Nat.le_refl _)]; exact hf) (by omega)
      exact ⟨_, h1, h.core.litTrue_model ht⟩
  · exact h.core.litTrue_model (mem_of_getElem? hl)

theorem Core.not_models {s : Solver D} (h : s.Core) (h0 : s.decisionLevel = 0)
    (hconf : s.Conflict cid) (α : Nat → Bool) : ¬ Models s.added α := by
  intro hα
  obtain ⟨q, hq, ht⟩ := h.clauseImplied cid hconf.inRange α hα
  have hneg := satisfies_singleton.mp (h.implied_of_root h0 (hconf.falsified q hq) α hα)
  rw [litTrue_neg, ht] at hneg
  cases hneg

theorem Core.not_models_lit {s : Solver D} (h : s.Core) (h0 : s.decisionLevel = 0)
    (hl : s.valueLit l = some false) (α : Nat → Bool) :
    ¬ (Models s.added α ∧ litTrue α l = true) := by
  rintro ⟨hα, ht⟩
  have hneg := satisfies_singleton.mp (h.implied_of_root h0 ((h.value_false l).mp hl) α hα)
  rw [litTrue_neg, ht] at hneg
  cases hneg

/-! ## The search -/

/-- A solver that is still `ok` is good, and one that is not has no model. -/
def Inv (s : Solver D) : Prop :=
  (s.ok = true → s.Good) ∧ (s.ok = false → ∀ α, ¬ Models s.added α)

structure Kept (s s' : Solver D) : Prop where
  nVars : s'.nVars = s.nVars
  added : s'.added = s.added
  xorLhs : s'.xorLhs = s.xorLhs
  xorRhs : s'.xorRhs = s.xorRhs
  gateCache : s'.gateCache = s.gateCache

namespace Kept

variable {a b c : Solver D}

theorem refl (a : Solver D) : a.Kept a := ⟨rfl, rfl, rfl, rfl, rfl⟩

theorem trans (h₁ : a.Kept b) (h₂ : b.Kept c) : a.Kept c :=
  ⟨h₂.nVars.trans h₁.nVars, h₂.added.trans h₁.added, h₂.xorLhs.trans h₁.xorLhs,
    h₂.xorRhs.trans h₁.xorRhs, h₂.gateCache.trans h₁.gateCache⟩

theorem backtrack (s : Solver D) (lvl : Nat) : s.Kept (s.backtrack lvl) := by
  unfold Solver.backtrack
  split
  · exact refl s
  · exact ⟨rfl, rfl, rfl, rfl, rfl⟩

theorem newDecision (s : Solver D) (l : Lit) : s.Kept (s.newDecision l) :=
  ⟨rfl, rfl, rfl, rfl, rfl⟩

theorem assume (s : Solver D) (l : Lit) : s.Kept (s.assume l) := by
  unfold Solver.assume
  split
  · exact newDecision s l
  · exact refl s

theorem learn (s : Solver D) (k : Learnt) : s.Kept (s.learn k) := by
  unfold Solver.learn
  split <;> exact ⟨rfl, rfl, rfl, rfl, rfl⟩

theorem decayActivities (s : Solver D) : s.Kept s.decayActivities := by
  unfold Solver.decayActivities
  dsimp only
  split <;> exact ⟨rfl, rfl, rfl, rfl, rfl⟩

end Kept

theorem Extends.kept {a b : Solver D} (h : a.Extends b) : a.Kept b :=
  ⟨h.nVars, h.added, h.xorLhs, h.xorRhs, h.gateCache⟩

/-- What an answer of the solver `s` under an assumption says. -/
def Answers (s : Solver D) (assumption : Lit) (r : Status × Solver D) : Prop :=
  s.Kept r.2 ∧ r.2.Inv ∧
    match r.1 with
    | .unsat => ∀ α, ¬ (Models s.added α ∧ litTrue α assumption = true)
    | .sat => Models s.added r.2.model ∧ litTrue r.2.model assumption = true
    | .unknown => True

theorem Answers.of_kept {s : Solver D} {a : Lit} {r : Status × Solver D} (hk : s.Kept t)
    (h : t.Answers a r) : s.Answers a r := by
  obtain ⟨h₁, h₂, h₃⟩ := h
  refine ⟨hk.trans h₁, h₂, ?_⟩
  rw [hk.added] at h₃
  exact h₃

theorem Core.answers_conflict {s : Solver D} (h : s.Core) (h0 : s.decisionLevel = 0)
    (hconf : s.Conflict cid) (a : Lit) : s.Answers a (.unsat, s.failed) := by
  refine ⟨⟨rfl, rfl, rfl, rfl, rfl⟩, ⟨fun hok => ?_, fun _ => h.not_models h0 hconf⟩, ?_⟩
  · cases hok
  · exact fun α hα => h.not_models h0 hconf α hα.1

theorem Good.inv {s : Solver D} (h : s.Good) (hok : s.ok = true) : s.Inv := by
  refine ⟨fun _ => h, fun hf => ?_⟩
  rw [hok] at hf
  cases hf

theorem Good.answers_false {s : Solver D} (h : s.Good) (hok : s.ok = true)
    (h0 : s.decisionLevel = 0) {a : Lit} (ha : s.valueLit a = some false) :
    s.Answers a (.unsat, s) :=
  ⟨Kept.refl s, h.inv hok, h.core.not_models_lit h0 ha⟩

theorem Good.answers_unknown {s : Solver D} (h : s.Good) (hok : s.ok = true) (a : Lit) :
    s.Answers a (.unknown, s.backtrack 0) :=
  ⟨Kept.backtrack s 0, (h.backtrack 0).inv (by rw [backtrack_ok, hok]), trivial⟩

/-- The invariant of the search: the assumption is true, at the level `base` or below. -/
structure Searching (s : Solver D) (assumption : Lit) (base : Nat) : Prop where
  ok : s.ok = true
  good : s.Good
  assumed : assumption ∈ s.trail
  level : s.level assumption.var ≤ base
  reached : base ≤ s.decisionLevel
  first : base ≤ 1

/-- The search starts at level 0 or, when the assumption is decided, at level 1. -/
theorem Good.assume {s : Solver D} (h : s.Good) (hok : s.ok = true) (h0 : s.decisionLevel = 0)
    (hq : s.qhead = s.trail.length) {a : Lit} (hv : a.var < s.nVars)
    (ha : s.valueLit a ≠ some false) : (s.assume a).Searching a (s.assume a).decisionLevel := by
  unfold Solver.assume
  split
  · rename_i hnone
    have hgood := h.newDecision hq hnone hv
    have hmem : a ∈ (s.newDecision a).trail := by simp [Solver.newDecision]
    have hdl : (s.newDecision a).decisionLevel = 1 := by
      have : s.trailLim = [] := length_eq_zero_iff.mp h0
      simp [Solver.newDecision, Solver.decisionLevel, this]
    exact ⟨hok, hgood, hmem, hgood.core.level_le hmem, Nat.le_refl _, Nat.le_of_eq hdl⟩
  · rename_i hsome
    have htrue : s.valueLit a = some true := by
      cases hval : s.valueLit a with
      | none => exact absurd hval hsome
      | some b =>
        cases b with
        | true => rfl
        | false => exact absurd hval ha
    have hmem := (h.core.value a).mp htrue
    exact ⟨hok, h, hmem, h.core.level_le hmem, Nat.le_refl _, by omega⟩

theorem Searching.of_extends {s : Solver D} {a : Lit} (h : s.Searching a base) (he : s.Extends t)
    (hg : t.Good) : t.Searching a base := by
  refine ⟨he.ok.trans h.ok, hg, he.trail.subset h.assumed, ?_, ?_, h.first⟩
  · rw [he.level h.good.core hg.core h.assumed]
    exact h.level
  · rw [he.decisionLevel]
    exact h.reached

theorem Searching.newDecision {s : Solver D} {a : Lit} (h : s.Searching a base)
    (hq : s.qhead = s.trail.length) (hl : s.valueLit l = none) (hv : l.var < s.nVars) :
    (s.newDecision l).Searching a base := by
  have hgood := h.good.newDecision hq hl hv
  refine ⟨h.ok, hgood, ?_, ?_, ?_, h.first⟩
  · exact mem_append_left _ h.assumed
  · have hne := h.good.core.ne_var_of_none hl h.assumed
    have : (s.newDecision l).level a.var = s.level a.var := by
      unfold Solver.newDecision
      rw [assign_level, if_neg hne]
    rw [this]
    exact h.level
  · have : (s.newDecision l).decisionLevel = s.decisionLevel + 1 := by
      simp [Solver.newDecision, Solver.decisionLevel]
    have := h.reached
    omega

/-! ### A conflict -/

/-- The state after a conflict has been analysed, its clause learnt and the activities
decayed. -/
def afterConflict (s : Solver D) (k : Learnt) : Solver D :=
  ((s.backtrack k.btLevel).learn k).decayActivities

section

variable (s : Solver D)
include s

theorem learn_ok (k : Learnt) : (s.learn k).ok = s.ok := by
  unfold Solver.learn
  split <;> rfl

theorem decayActivities_ok : s.decayActivities.ok = s.ok := by
  unfold Solver.decayActivities
  dsimp only
  split <;> rfl

theorem learn_trail (k : Learnt) : (s.learn k).trail = s.trail ++ [k.first] := by
  unfold Solver.learn
  split <;> rfl

theorem decayActivities_trail : s.decayActivities.trail = s.trail := by
  unfold Solver.decayActivities
  dsimp only
  split <;> rfl

theorem learn_decisionLevel (k : Learnt) : (s.learn k).decisionLevel = s.decisionLevel := by
  unfold Solver.learn
  split <;> rfl

theorem decayActivities_decisionLevel : s.decayActivities.decisionLevel = s.decisionLevel := by
  unfold Solver.decayActivities
  dsimp only
  split <;> rfl

theorem Kept.afterConflict (k : Learnt) : s.Kept (s.afterConflict k) :=
  ((Kept.backtrack s k.btLevel).trans (Kept.learn _ k)).trans (Kept.decayActivities _)

theorem afterConflict_ok (k : Learnt) : (s.afterConflict k).ok = s.ok := by
  unfold afterConflict
  rw [decayActivities_ok, learn_ok, backtrack_ok]

end

theorem afterConflict_good {s : Solver D} (hc : s.Core) (hw : s.Watched s.decisionLevel)
    (hcomp : s.Complete) (hk : s.Learning k) : (s.afterConflict k).Good := by
  have hlt := hk.btLevel
  have hback : (s.backtrack k.btLevel).Good := by
    refine ⟨hc.backtrack _, ?_, hcomp.backtrack hc _⟩
    rw [backtrack_decisionLevel]
    exact hw.backtrack hc (by omega)
  exact (hback.learn (hk.backjump hc)).decayActivities

theorem afterConflict_decisionLevel {s : Solver D} (hk : s.Learning k) :
    (s.afterConflict k).decisionLevel = k.btLevel := by
  have := hk.btLevel
  unfold afterConflict
  rw [decayActivities_decisionLevel, learn_decisionLevel, backtrack_decisionLevel]
  omega

/-- A backjump to the level of the assumption or above keeps the assumption. -/
theorem afterConflict_searching {s : Solver D} (hok : s.ok = true) (hc : s.Core)
    (hw : s.Watched s.decisionLevel) (hcomp : s.Complete) (hk : s.Learning k) {a : Lit}
    (ha : a ∈ s.trail) (hlevel : s.level a.var ≤ base) (hfirst : base ≤ 1)
    (hbt : base ≤ k.btLevel) : (s.afterConflict k).Searching a base := by
  have hgood := afterConflict_good hc hw hcomp hk
  have hback : a ∈ (s.backtrack k.btLevel).trail :=
    (hc.mem_backtrack hk.btLevel).mpr ⟨ha, by omega⟩
  have hmem : a ∈ (s.afterConflict k).trail := by
    unfold afterConflict
    rw [decayActivities_trail, learn_trail]
    exact mem_append_left _ hback
  refine ⟨by rw [afterConflict_ok, hok], hgood, hmem, ?_, ?_, hfirst⟩
  · have hne := (hc.backtrack k.btLevel).ne_var_of_none (hk.backjump hc).first hback
    have : (s.afterConflict k).level a.var = s.level a.var := by
      unfold afterConflict Solver.decayActivities Solver.learn
      dsimp only
      split <;> split <;> simp [assign_level, hne]
    rw [this]
    exact hlevel
  · rw [afterConflict_decisionLevel hk]
    exact hbt

theorem Core.analyze {s : Solver D} (hc : s.Core) (hw : s.Watched s.decisionLevel)
    (hlev : 0 < s.decisionLevel) (hconf : s.Conflict cid) :
    ∃ t k, s.analyze cid = some (t, k) ∧ s.Extends t ∧ t.Core ∧ t.Watched t.decisionLevel ∧
      t.Learning k ∧ t.level = s.level := by
  obtain ⟨act, k, hrun, hact, hk⟩ := analyze_spec hc hlev hconf
  exact ⟨_, k, hrun, { Extends.refl s with }, { hc with activity := hact }, { hw with },
    { hk with }, rfl⟩

/-- The fuel that the search needs: a bound on the rounds until the next conflict, for
each conflict that is still allowed. -/
def searchBound (s : Solver D) (maxConflicts conflicts : Nat) : Nat :=
  (maxConflicts - conflicts) * (s.nVars + 2) + (s.nVars + 1 - s.trail.length)

theorem searchBound_conflict {s : Solver D} (hs : s.Core) (hk : t.nVars = s.nVars)
    {maxConflicts conflicts fuel : Nat} (hfuel : s.searchBound maxConflicts conflicts < fuel + 1)
    (hlimit : ¬ conflicts + 1 ≥ maxConflicts) :
    t.searchBound maxConflicts (conflicts + 1) < fuel := by
  have hlen := hs.length_trail_le
  unfold searchBound at hfuel ⊢
  have hm : maxConflicts - conflicts = (maxConflicts - (conflicts + 1)) + 1 := by omega
  rw [hm, Nat.add_mul] at hfuel
  rw [hk]
  omega

theorem conflictLimit_spec {s : Solver D} (hg : s.Good) (hok : s.ok = true) {a : Lit}
    {maxConflicts conflicts : Nat} (go : Solver D → Option (Status × Solver D))
    (hgo : ¬ conflicts ≥ maxConflicts → ∃ r, go s = some r ∧ s.Answers a r) :
    ∃ r, conflictLimit maxConflicts conflicts s go = some r ∧ s.Answers a r := by
  unfold conflictLimit
  split
  · exact ⟨_, rfl, hg.answers_unknown hok a⟩
  · rename_i hlt
    exact hgo hlt

/-- The assumption is lost in a backjump to level 0: it is decided again, or the search
ends. -/
theorem reassume_spec {s : Solver D} (hg : s.Good) (hok : s.ok = true) (h0 : s.decisionLevel = 0)
    {a : Lit} (hv : a.var < s.nVars) (go : Solver D → Option (Status × Solver D))
    (hgo : ∀ t : Solver D, s.Kept t → t.Searching a t.decisionLevel →
      ∃ r, go t = some r ∧ t.Answers a r) :
    ∃ r, (match s.propagate with
      | none => none
      | some (t, some _) => some (Status.unsat, t.failed)
      | some (t, none) =>
        if t.valueLit a = some false then some (Status.unsat, t.backtrack 0)
        else go (t.assume a)) = some r ∧ s.Answers a r := by
  obtain ⟨⟨t, confl⟩, hrun, hext, hres⟩ := propagate_spec hg
  have hok' : t.ok = true := hext.ok.trans hok
  have h0' : t.decisionLevel = 0 := hext.decisionLevel.trans h0
  rw [hrun]
  cases confl with
  | some cid =>
    obtain ⟨hcore, -, hconf⟩ := hres
    exact ⟨_, rfl, (hcore.answers_conflict h0' hconf a).of_kept hext.kept⟩
  | none =>
    obtain ⟨hgood, hq⟩ := hres
    dsimp only
    split
    · rename_i hfalse
      refine ⟨_, rfl, ?_⟩
      rw [backtrack_of_le (Nat.le_of_eq h0')]
      exact (hgood.answers_false hok' h0' hfalse).of_kept hext.kept
    · rename_i hne
      have hv' : a.var < t.nVars := by
        rw [hext.nVars]
        exact hv
      obtain ⟨r, hr, hans⟩ := hgo (t.assume a) (hext.kept.trans (Kept.assume t a))
        (hgood.assume hok' h0' hq hv' hne)
      exact ⟨r, hr, hans.of_kept (hext.kept.trans (Kept.assume t a))⟩

/-- With enough fuel the search returns, and its answer is right. -/
theorem solveLoop_spec (a : Lit) (maxConflicts : Nat) : ∀ (fuel base conflicts : Nat)
    (s : Solver D), s.Searching a base → s.searchBound maxConflicts conflicts < fuel →
    ∃ r, solveLoop a maxConflicts fuel base conflicts s = some r ∧ s.Answers a r := by
  intro fuel
  induction fuel with
  | zero =>
    intro base conflicts s _ hfuel
    omega
  | succ fuel ih =>
    intro base conflicts s hs hfuel
    obtain ⟨⟨t, confl⟩, hrun, hext, hres⟩ := propagate_spec hs.good
    have hokt : t.ok = true := hext.ok.trans hs.ok
    unfold solveLoop
    rw [hrun]
    cases confl with
    | none =>
      obtain ⟨hgood, hq⟩ := hres
      have ht : t.Searching a base := hs.of_extends hext hgood
      have hpick := hgood.core.pickBranchVar_spec
      dsimp only
      cases hv : t.pickBranchVar with
      | none =>
        rw [hv] at hpick
        refine ⟨_, rfl, hext.kept, hgood.inv hokt, ?_, hgood.core.litTrue_model ht.assumed⟩
        rw [← hext.added]
        exact hgood.models hq hpick
      | some v =>
        rw [hv] at hpick
        have hnone : t.assigns v = none := hpick.1
        have hlt : v < t.nVars := hpick.2
        have hval : t.valueLit ⟨v, !t.phase v⟩ = none := by simp [valueLit, hnone]
        have hdec := ht.newDecision hq hval hlt
        have hbound : (t.newDecision ⟨v, !t.phase v⟩).searchBound maxConflicts conflicts < fuel := by
          have h₁ : s.trail.length ≤ t.trail.length := hext.trail.length_le
          have h₂ : (t.newDecision ⟨v, !t.phase v⟩).trail.length = t.trail.length + 1 := by
            simp [Solver.newDecision]
          have h₃ : (t.newDecision ⟨v, !t.phase v⟩).nVars = s.nVars := hext.nVars
          have h₄ := hdec.good.core.length_trail_le
          unfold searchBound at hfuel ⊢
          rw [h₃] at h₄ ⊢
          rw [h₂] at h₄ ⊢
          omega
        obtain ⟨r, hr, hans⟩ := ih base conflicts _ hdec hbound
        exact ⟨r, hr, hans.of_kept (hext.kept.trans (Kept.newDecision _ _))⟩
    | some cid =>
      obtain ⟨hcore, hwatched, hconf⟩ := hres
      have hcomp := hext.complete hs.good.complete
      have hassumed : a ∈ t.trail := hext.trail.subset hs.assumed
      have hlevel : t.level a.var ≤ base := by
        rw [hext.level hs.good.core hcore hs.assumed]
        exact hs.level
      dsimp only
      split
      · rename_i h0
        exact ⟨_, rfl, (hcore.answers_conflict h0 hconf a).of_kept hext.kept⟩
      · rename_i hpos
        obtain ⟨u, k, hanalyze, hext', hcore', hwatched', hk, hlev⟩ :=
          hcore.analyze hwatched (Nat.pos_of_ne_zero hpos) hconf
        have hcomp' := hext'.complete hcomp
        have hoku : u.ok = true := hext'.ok.trans hokt
        have hkept : s.Kept (u.afterConflict k) :=
          (hext.kept.trans hext'.kept).trans (Kept.afterConflict u k)
        have hgood := afterConflict_good hcore' hwatched' hcomp' hk
        have hok' : (u.afterConflict k).ok = true := by rw [afterConflict_ok, hoku]
        rw [hanalyze]
        dsimp only
        split
        · -- The assumption was decided, so the backjump is to level 0.
          rename_i hlt
          have h0 : (u.afterConflict k).decisionLevel = 0 := by
            rw [afterConflict_decisionLevel hk]
            have := hs.first
            omega
          have hv : a.var < (u.afterConflict k).nVars := by
            rw [hkept.nVars]
            exact hs.good.core.range a hs.assumed
          obtain ⟨r, hr, hans⟩ := reassume_spec hgood hok' h0 hv
            (fun t => conflictLimit maxConflicts (conflicts + 1) t
              (solveLoop a maxConflicts fuel t.decisionLevel (conflicts + 1)))
            (fun t hkt ht => conflictLimit_spec ht.good ht.ok _ fun hlimit =>
              ih _ _ t ht (searchBound_conflict hs.good.core (hkt.nVars.trans hkept.nVars)
                hfuel hlimit))
          exact ⟨r, hr, hans.of_kept hkept⟩
        · rename_i hge
          have hsearch := afterConflict_searching hoku hcore' hwatched' hcomp' hk
            (hext'.trail.subset hassumed) (hlev ▸ hlevel) hs.first (Nat.le_of_not_lt hge)
          obtain ⟨r, hr, hans⟩ := conflictLimit_spec hgood hok'
            (solveLoop a maxConflicts fuel base (conflicts + 1)) (fun hlimit =>
              ih base (conflicts + 1) _ hsearch
                (searchBound_conflict hs.good.core hkept.nVars hfuel hlimit))
          exact ⟨r, hr, hans.of_kept hkept⟩

theorem solveAssuming_spec {s : Solver D} (h : s.Inv) {a : Lit} (ha : a.var < s.nVars)
    (maxConflicts : Nat) :
    ∃ r, s.solveAssuming a maxConflicts = some r ∧ s.Answers a r := by
  unfold solveAssuming
  split
  · rename_i hok
    exact ⟨_, rfl, Kept.refl s, h, fun α hα => h.2 hok α hα.1⟩
  · rename_i hok
    have hok' : s.ok = true := by simpa using hok
    have hgood := (h.1 hok').backtrack 0
    have h0 : (s.backtrack 0).decisionLevel = 0 := by
      rw [backtrack_decisionLevel]
      omega
    have hokb : (s.backtrack 0).ok = true := by rw [backtrack_ok, hok']
    obtain ⟨⟨t, confl⟩, hrun, hext, hres⟩ := propagate_spec hgood
    have hkept : s.Kept t := (Kept.backtrack s 0).trans hext.kept
    have hokt : t.ok = true := hext.ok.trans hokb
    have h0t : t.decisionLevel = 0 := hext.decisionLevel.trans h0
    rw [hrun]
    cases confl with
    | some cid =>
      obtain ⟨hcore, -, hconf⟩ := hres
      exact ⟨_, rfl, (hcore.answers_conflict h0t hconf a).of_kept hkept⟩
    | none =>
      obtain ⟨hgoodt, hq⟩ := hres
      dsimp only
      split
      · rename_i hfalse
        exact ⟨_, rfl, (hgoodt.answers_false hokt h0t hfalse).of_kept hkept⟩
      · rename_i hne
        have hsearch := hgoodt.assume hokt h0t hq (hkept.nVars ▸ ha) hne
        have hbound : (t.assume a).searchBound maxConflicts 0 <
            (t.assume a).solveFuel maxConflicts := by
          unfold searchBound solveFuel
          rw [Nat.add_mul, Nat.sub_zero]
          omega
        obtain ⟨r, hr, hans⟩ := solveLoop_spec a maxConflicts _ _ 0 _ hsearch hbound
        exact ⟨r, hr, hans.of_kept (hkept.trans (Kept.assume t a))⟩

end Solver

end Brass.Verify.Cdcl
