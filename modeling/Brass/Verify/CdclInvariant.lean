import Mathlib.Data.List.Perm.Subperm
import Brass.Verify.CdclSolver

/-!
# The invariant of the solver

`Core` is about the trail: which literals have a value, at which level and for which
reason, and what the clauses and the level-0 literals say about the clauses that were
added. `Watched` is about the two watched literals: a watched literal that is false and
propagated has a true partner of a level that is not higher, so backtracking never leaves a
clause without a usable watch. After a conflict it is only known below the current level,
which is all that is left after the backjump.
-/

namespace Brass.Verify.Cdcl

open Brass.Util.Cnf List

variable {D : Doubles}

namespace Solver

/-! ## Levels of positions -/

/-- The decision level of the position `i` of the trail. -/
def levelAt (s : Solver D) (i : Nat) : Nat := (s.trailLim.filter (fun n => decide (n ≤ i))).length

theorem levelAt_le (s : Solver D) (i : Nat) : s.levelAt i ≤ s.decisionLevel :=
  length_filter_le _ _

theorem levelAt_mono (s : Solver D) {i j : Nat} (h : i ≤ j) : s.levelAt i ≤ s.levelAt j := by
  unfold levelAt
  rw [← countP_eq_length_filter, ← countP_eq_length_filter]
  refine countP_mono_left (fun n _ hn => ?_)
  simp only [decide_eq_true_eq] at hn ⊢
  omega

theorem levelAt_eq_decisionLevel {s : Solver D} {i : Nat} (h : ∀ n ∈ s.trailLim, n ≤ i) :
    s.levelAt i = s.decisionLevel := by
  unfold levelAt decisionLevel
  rw [filter_eq_self.mpr (fun n hn => by simpa using h n hn)]

structure Core (s : Solver D) : Prop where
  value : ∀ l, s.valueLit l = some true ↔ l ∈ s.trail
  nodup : s.trail.Nodup
  range : ∀ l ∈ s.trail, l.var < s.nVars
  lims : s.trailLim.Pairwise (· ≤ ·)
  limsLe : ∀ n ∈ s.trailLim, n ≤ s.qhead
  qheadLe : s.qhead ≤ s.trail.length
  level : ∀ i l, s.trail[i]? = some l → s.level l.var = s.levelAt i
  reasonClause : ∀ i l cid, s.trail[i]? = some l → s.reason l.var = some cid →
    cid < s.numClauses ∧ (s.clauses cid).c0 = l ∧
      ∀ q ∈ (s.clauses cid).c1 :: (s.clauses cid).rest, q.neg ∈ s.trail.take i
  reasonDecision : ∀ i l, s.trail[i]? = some l → s.reason l.var = none →
    s.levelAt i = 0 ∨ i ∈ s.trailLim
  root : ∀ i l, s.trail[i]? = some l → s.levelAt i = 0 → Implies s.added [l]
  clauseImplied : ∀ cid < s.numClauses, Implies s.added (s.clauses cid).lits
  clauseNodup : ∀ cid < s.numClauses, (s.clauses cid).lits.Nodup
  clauseRange : ∀ cid < s.numClauses, ∀ l ∈ (s.clauses cid).lits, l.var < s.nVars
  unseen : ∀ v, s.seen v = false
  activity : ∀ v, D.NonNeg (s.activity v)
  varInc : D.NonNeg s.varInc
  zeroRoot : s.trail[0]? = some trueLit ∧ s.levelAt 0 = 0
  addedRange : ∀ c ∈ s.added, ∀ l ∈ c, l.var < s.nVars

/-- The watched literals of the clause `cid`, each with its partner. -/
def IsWatch (s : Solver D) (cid : Nat) (w o : Lit) : Prop :=
  (w = (s.clauses cid).c0 ∧ o = (s.clauses cid).c1) ∨
    (w = (s.clauses cid).c1 ∧ o = (s.clauses cid).c0)

/-- The partner of a false watch is true and of a level that is not higher. -/
def Guards (s : Solver D) (w o : Lit) : Prop := o ∈ s.trail ∧ s.level o.var ≤ s.level w.var

/-- The watch lists are complete, and every watch of a level below `bound` that is false
and propagated has a true partner. -/
structure Watched (s : Solver D) (bound : Nat) : Prop where
  listed : ∀ cid < s.numClauses, ∀ w o, s.IsWatch cid w o → cid ∈ s.watches w.neg
  inRange : ∀ l cid, cid ∈ s.watches l → cid < s.numClauses
  guarded : ∀ cid < s.numClauses, ∀ w o, s.IsWatch cid w o → w.neg ∈ s.trail.take s.qhead →
    s.level w.var < bound → s.Guards w o

/-- The stored clauses and the literals of level 0 say all that the added clauses say. -/
def Complete (s : Solver D) : Prop :=
  ∀ α, (∀ cid < s.numClauses, Satisfies α (s.clauses cid).lits) →
    (∀ i l, s.trail[i]? = some l → s.levelAt i = 0 → litTrue α l = true) → Models s.added α

/-- The invariant between the rounds of the search. -/
structure Good (s : Solver D) : Prop where
  core : s.Core
  watched : s.Watched (s.decisionLevel + 1)
  complete : s.Complete

/-! ## Values -/

theorem valueLit_neg (s : Solver D) (l : Lit) : s.valueLit l.neg = (s.valueLit l).map (!·) := by
  unfold valueLit
  rw [Lit.var_neg]
  cases s.assigns l.var <;> simp

namespace Core

variable {s : Solver D}

section

variable (h : s.Core)
include h

theorem value_false (l : Lit) : s.valueLit l = some false ↔ l.neg ∈ s.trail := by
  rw [← h.value, valueLit_neg]
  cases s.valueLit l with
  | none => simp
  | some b => cases b <;> simp

theorem not_mem_neg {l : Lit} (hl : l ∈ s.trail) : l.neg ∉ s.trail := by
  intro hn
  have h₁ := (h.value l).mpr hl
  have h₂ := (h.value_false l).mpr hn
  rw [h₁] at h₂
  cases h₂

theorem value_none {l : Lit} (hl : s.valueLit l = none) : l ∉ s.trail ∧ l.neg ∉ s.trail := by
  refine ⟨fun hm => ?_, fun hm => ?_⟩
  · rw [(h.value l).mpr hm] at hl
    cases hl
  · rw [(h.value_false l).mpr hm] at hl
    cases hl

theorem assigned_iff (v : Nat) : s.assigns v ≠ none ↔ ∃ l ∈ s.trail, l.var = v := by
  constructor
  · intro hne
    obtain ⟨b, hb⟩ := Option.ne_none_iff_exists'.mp hne
    refine ⟨⟨v, !b⟩, (h.value _).mp ?_, rfl⟩
    simp [valueLit, hb]
  · rintro ⟨l, hl, rfl⟩ hnone
    have := (h.value l).mpr hl
    simp [valueLit, hnone] at this

theorem eq_of_var {a b : Lit} (ha : a ∈ s.trail) (hb : b ∈ s.trail)
    (hv : a.var = b.var) : a = b := by
  rcases Lit.eq_or_eq_neg hv with rfl | rfl
  · rfl
  · exact absurd ha (h.not_mem_neg hb)

theorem vars_nodup : (s.trail.map Lit.var).Nodup := by
  refine List.Nodup.map_on ?_ h.nodup
  intro a ha b hb hv
  exact h.eq_of_var ha hb hv

theorem length_trail_le : s.trail.length ≤ s.nVars := by
  have hsub : (s.trail.map Lit.var) ⊆ List.range s.nVars := by
    intro v hv
    obtain ⟨l, hl, rfl⟩ := mem_map.mp hv
    exact mem_range.mpr (h.range l hl)
  have := (subperm_of_subset h.vars_nodup hsub).length_le
  simpa using this

theorem level_le {l : Lit} (hl : l ∈ s.trail) : s.level l.var ≤ s.decisionLevel := by
  obtain ⟨i, hi⟩ := mem_iff_getElem?.mp hl
  rw [h.level i l hi]
  exact s.levelAt_le i

theorem level_neg_le {l : Lit} (hl : l.neg ∈ s.trail) :
    s.level l.var ≤ s.decisionLevel := by simpa using h.level_le hl

theorem root_implied {l : Lit} (hl : l ∈ s.trail) (h0 : s.level l.var = 0) :
    Implies s.added [l] := by
  obtain ⟨i, hi⟩ := mem_iff_getElem?.mp hl
  exact h.root i l hi ((h.level i l hi) ▸ h0)

theorem implied_of_root (h0 : s.decisionLevel = 0) {l : Lit} (hl : l ∈ s.trail) :
    Implies s.added [l] :=
  h.root_implied hl (Nat.le_zero.mp (h0 ▸ h.level_le hl))

end

end Core

/-! ## Assigning a literal -/

/-- Why a literal may be put on the trail: it is a decision or a fact of level 0, or it is
the first literal of a clause whose other literals are false. -/
def Justified (s : Solver D) (l : Lit) : Option Nat → Prop
  | none => (s.decisionLevel = 0 ∧ Implies s.added [l]) ∨ s.trail.length ∈ s.trailLim
  | some cid => cid < s.numClauses ∧ (s.clauses cid).c0 = l ∧
      ∀ q ∈ (s.clauses cid).c1 :: (s.clauses cid).rest, q.neg ∈ s.trail

section Assign

variable (s : Solver D) (l : Lit) (r : Option Nat)

@[simp] theorem assign_trail : (s.assign l r).trail = s.trail ++ [l] := rfl
@[simp] theorem assign_trailLim : (s.assign l r).trailLim = s.trailLim := rfl
@[simp] theorem assign_levelAt (i : Nat) : (s.assign l r).levelAt i = s.levelAt i := rfl
@[simp] theorem assign_qhead : (s.assign l r).qhead = s.qhead := rfl
@[simp] theorem assign_numClauses : (s.assign l r).numClauses = s.numClauses := rfl
@[simp] theorem assign_clauses : (s.assign l r).clauses = s.clauses := rfl
@[simp] theorem assign_watches : (s.assign l r).watches = s.watches := rfl

theorem assign_level (v : Nat) :
    (s.assign l r).level v = if v = l.var then s.decisionLevel else s.level v := by
  simp [assign, Function.update_apply]

theorem assign_reason (v : Nat) :
    (s.assign l r).reason v = if v = l.var then r else s.reason v := by
  simp [assign, Function.update_apply]

theorem assign_valueLit (q : Lit) :
    (s.assign l r).valueLit q = if q.var = l.var then some (!l.sign ^^ q.sign) else s.valueLit q := by
  unfold valueLit assign
  by_cases h : q.var = l.var <;> simp [h]

end Assign

theorem getElem?_append_singleton {α : Type} {xs : List α} {x y : α} {i : Nat}
    (h : (xs ++ [x])[i]? = some y) : xs[i]? = some y ∨ (i = xs.length ∧ y = x) := by
  rcases Nat.lt_or_ge i xs.length with hlt | hge
  · rw [getElem?_append_left hlt] at h
    exact .inl h
  · rw [getElem?_append_right hge] at h
    refine .inr ?_
    obtain ⟨hlen, heq⟩ := List.getElem?_eq_some_iff.mp h
    simp only [List.length_singleton] at hlen
    refine ⟨by omega, ?_⟩
    have hz : i - xs.length = 0 := by omega
    simpa [hz] using heq.symm

namespace Core

variable {s : Solver D} {l : Lit} {r : Option Nat}

theorem ne_var_of_none (h : s.Core) (hl : s.valueLit l = none) {q : Lit} (hq : q ∈ s.trail) :
    q.var ≠ l.var := by
  intro hv
  obtain ⟨h₁, h₂⟩ := h.value_none hl
  rcases Lit.eq_or_eq_neg hv with rfl | rfl
  · exact h₁ hq
  · exact h₂ hq

theorem levelAt_end (h : s.Core) : s.levelAt s.trail.length = s.decisionLevel :=
  levelAt_eq_decisionLevel fun n hn => Nat.le_trans (h.limsLe n hn) h.qheadLe

theorem justified_root (h : s.Core) (hj : s.Justified l r) (h0 : s.decisionLevel = 0) :
    Implies s.added [l] := by
  cases r with
  | none =>
    rcases hj with ⟨-, himp⟩ | hlim
    · exact himp
    · have hnil : s.trailLim = [] := length_eq_zero_iff.mp h0
      rw [hnil] at hlim
      cases hlim
  | some cid =>
    obtain ⟨hcid, hc0, hothers⟩ := hj
    refine (h.clauseImplied cid hcid).resolve_false ?_
    intro q hq
    rcases mem_cons.mp hq with rfl | hq
    · exact .inl (by simp [hc0])
    · exact .inr (h.implied_of_root h0 (hothers q hq))

theorem assign (h : s.Core) (hl : s.valueLit l = none) (hv : l.var < s.nVars)
    (hj : s.Justified l r) : (s.assign l r).Core where
  value := by
    intro q
    rw [assign_valueLit, assign_trail, mem_append, mem_singleton]
    by_cases hq : q.var = l.var
    · have hnot : q ∉ s.trail := fun hm => h.ne_var_of_none hl hm hq
      rw [if_pos hq]
      constructor
      · intro hs
        refine .inr (Lit.ext' hq ?_)
        cases hqs : q.sign <;> cases hls : l.sign <;> simp_all
      · rintro (hm | rfl)
        · exact absurd hm hnot
        · simp
    · rw [if_neg hq, h.value]
      constructor
      · exact .inl
      · rintro (hm | rfl)
        · exact hm
        · exact absurd rfl hq
  nodup := by
    rw [assign_trail, nodup_append]
    refine ⟨h.nodup, by simp, ?_⟩
    rintro a ha b hb rfl
    obtain rfl := mem_singleton.mp hb
    exact (h.value_none hl).1 ha
  range := by
    intro q hq
    rcases mem_append.mp hq with hq | hq
    · exact h.range q hq
    · obtain rfl := mem_singleton.mp hq
      exact hv
  lims := h.lims
  limsLe := h.limsLe
  qheadLe := by
    have := h.qheadLe
    simp only [assign_qhead, assign_trail, length_append]
    omega
  level := by
    intro i q hq
    rw [assign_level, assign_levelAt]
    rcases getElem?_append_singleton hq with hq | ⟨rfl, rfl⟩
    · rw [if_neg (h.ne_var_of_none hl (mem_of_getElem? hq))]
      exact h.level i q hq
    · rw [if_pos rfl, h.levelAt_end]
  reasonClause := by
    intro i q cid hq hr
    rw [assign_reason] at hr
    rcases getElem?_append_singleton hq with hq | ⟨rfl, rfl⟩
    · rw [if_neg (h.ne_var_of_none hl (mem_of_getElem? hq))] at hr
      obtain ⟨h₁, h₂, h₃⟩ := h.reasonClause i q cid hq hr
      refine ⟨h₁, h₂, fun x hx => ?_⟩
      obtain ⟨hi, -⟩ := List.getElem?_eq_some_iff.mp hq
      rw [assign_trail, List.take_append_of_le_length (Nat.le_of_lt hi)]
      exact h₃ x hx
    · rw [if_pos rfl] at hr
      subst hr
      obtain ⟨h₁, h₂, h₃⟩ := hj
      refine ⟨h₁, h₂, fun x hx => ?_⟩
      rw [assign_trail, take_left]
      exact h₃ x hx
  reasonDecision := by
    intro i q hq hr
    rw [assign_reason] at hr
    rw [assign_levelAt, assign_trailLim]
    rcases getElem?_append_singleton hq with hq | ⟨rfl, rfl⟩
    · rw [if_neg (h.ne_var_of_none hl (mem_of_getElem? hq))] at hr
      exact h.reasonDecision i q hq hr
    · rw [if_pos rfl] at hr
      subst hr
      rcases hj with ⟨h0, -⟩ | hlim
      · exact .inl (by rw [h.levelAt_end, h0])
      · exact .inr hlim
  root := by
    intro i q hq h0
    rcases getElem?_append_singleton hq with hq | ⟨rfl, rfl⟩
    · exact h.root i q hq h0
    · refine h.justified_root hj ?_
      rw [← h.levelAt_end]
      exact h0
  clauseImplied := h.clauseImplied
  clauseNodup := h.clauseNodup
  clauseRange := h.clauseRange
  unseen := h.unseen
  activity := h.activity
  varInc := h.varInc
  zeroRoot := by
    obtain ⟨hi, -⟩ := List.getElem?_eq_some_iff.mp h.zeroRoot.1
    rw [assign_trail, List.getElem?_append_left hi]
    exact h.zeroRoot
  addedRange := h.addedRange

end Core

/-! ## Backtracking -/

theorem unassign_apply (assigns : Nat → Option Bool) (dropped : List Lit) (v : Nat) :
    unassign assigns dropped v = if v ∈ dropped.map Lit.var then none else assigns v := by
  induction dropped with
  | nil => simp [unassign]
  | cons l ls ih =>
    have hcons : unassign assigns (l :: ls) = Function.update (unassign assigns ls) l.var none := rfl
    rw [hcons, Function.update_apply, ih]
    by_cases h : v = l.var
    · simp [h]
    · simp [h]

/-- The trail length at the start of the level `lvl + 1`. -/
def target (s : Solver D) (lvl : Nat) : Nat := s.trailLim.getD lvl 0

section Backtrack

variable {s : Solver D} {lvl : Nat}

theorem backtrack_of_le (h : s.decisionLevel ≤ lvl) : s.backtrack lvl = s := by
  simp [backtrack, h]

theorem backtrack_of_lt (h : lvl < s.decisionLevel) : s.backtrack lvl = { s with
        assigns := unassign s.assigns (s.trail.drop (s.target lvl))
        trail := s.trail.take (s.target lvl)
        trailLim := s.trailLim.take lvl
        qhead := s.target lvl } := by
  simp only [backtrack, Nat.not_le.mpr h, if_false]
  rfl

theorem target_mem (h : lvl < s.decisionLevel) : s.trailLim[lvl]? = some (s.target lvl) := by
  have hlt : lvl < s.trailLim.length := h
  simp [target, hlt]

section

variable (hc : s.Core) (h : lvl < s.decisionLevel)
include hc h

theorem Core.target_le : s.target lvl ≤ s.trail.length :=
  Nat.le_trans (hc.limsLe _ (mem_of_getElem? (target_mem h))) hc.qheadLe

theorem Core.lims_split : (∀ n ∈ s.trailLim.take lvl, n ≤ s.target lvl) ∧
      ∀ n ∈ s.trailLim.drop lvl, s.target lvl ≤ n := by
  have hlt : lvl < s.trailLim.length := h
  have hdrop : s.trailLim.drop lvl = s.target lvl :: s.trailLim.drop (lvl + 1) := by
    rw [drop_eq_getElem_cons hlt]
    simp [target, hlt]
  have hp := hc.lims
  rw [← take_append_drop lvl s.trailLim] at hp
  obtain ⟨-, htail, hcross⟩ := pairwise_append.mp hp
  rw [hdrop] at htail hcross
  refine ⟨fun n hn => hcross n hn _ (by simp), fun n hn => ?_⟩
  rw [hdrop] at hn
  rcases mem_cons.mp hn with rfl | hn
  · exact Nat.le_refl _
  · exact (pairwise_cons.mp htail).1 n hn

theorem Core.levelAt_take {i : Nat} (hi : i < s.target lvl) :
    ((s.trailLim.take lvl).filter (fun n => decide (n ≤ i))).length = s.levelAt i := by
  have hdrop : (s.trailLim.drop lvl).filter (fun n => decide (n ≤ i)) = [] := by
    refine filter_eq_nil_iff.mpr (fun n hn => ?_)
    have := (hc.lims_split h).2 n hn
    simp only [decide_eq_true_eq]
    omega
  unfold levelAt
  conv_rhs => rw [← take_append_drop lvl s.trailLim, filter_append, hdrop]
  simp

/-- The positions before the target are those of the levels that are kept. -/
theorem Core.levelAt_le_iff {i : Nat} : s.levelAt i ≤ lvl ↔ i < s.target lvl := by
  constructor
  · intro hle
    by_contra hge
    have hall : ∀ n ∈ s.trailLim.take (lvl + 1), n ≤ i := by
      intro n hn
      rw [take_add_one, target_mem h] at hn
      rcases mem_append.mp hn with hn | hn
      · have := (hc.lims_split h).1 n hn
        omega
      · have : n = s.target lvl := by simpa using hn
        omega
    have hcount : lvl + 1 ≤ s.levelAt i := by
      have hlen : (s.trailLim.take (lvl + 1)).length = lvl + 1 := by
        rw [length_take]
        exact Nat.min_eq_left h
      have hsub : ((s.trailLim.take (lvl + 1)).filter (fun n => decide (n ≤ i))).length
          ≤ s.levelAt i :=
        ((take_sublist _ _).filter _).length_le
      rw [filter_eq_self.mpr (fun n hn => by simpa using hall n hn), hlen] at hsub
      exact hsub
    omega
  · intro hi
    rw [← hc.levelAt_take h hi]
    exact Nat.le_trans (length_filter_le _ _) (by rw [length_take]; omega)

end

@[simp] theorem backtrack_added : (s.backtrack lvl).added = s.added := by
  unfold backtrack; split <;> rfl
@[simp] theorem backtrack_ok : (s.backtrack lvl).ok = s.ok := by
  unfold backtrack; split <;> rfl
@[simp] theorem backtrack_nVars : (s.backtrack lvl).nVars = s.nVars := by
  unfold backtrack; split <;> rfl
@[simp] theorem backtrack_numClauses : (s.backtrack lvl).numClauses = s.numClauses := by
  unfold backtrack; split <;> rfl
@[simp] theorem backtrack_clauses : (s.backtrack lvl).clauses = s.clauses := by
  unfold backtrack; split <;> rfl
@[simp] theorem backtrack_watches : (s.backtrack lvl).watches = s.watches := by
  unfold backtrack; split <;> rfl
@[simp] theorem backtrack_level : (s.backtrack lvl).level = s.level := by
  unfold backtrack; split <;> rfl
@[simp] theorem backtrack_reason : (s.backtrack lvl).reason = s.reason := by
  unfold backtrack; split <;> rfl

theorem backtrack_trail (h : lvl < s.decisionLevel) :
    (s.backtrack lvl).trail = s.trail.take (s.target lvl) := by rw [backtrack_of_lt h]

theorem backtrack_trailLim (h : lvl < s.decisionLevel) :
    (s.backtrack lvl).trailLim = s.trailLim.take lvl := by rw [backtrack_of_lt h]

theorem backtrack_qhead (h : lvl < s.decisionLevel) :
    (s.backtrack lvl).qhead = s.target lvl := by rw [backtrack_of_lt h]

theorem backtrack_decisionLevel (s : Solver D) (lvl : Nat) :
    (s.backtrack lvl).decisionLevel = min lvl s.decisionLevel := by
  rcases Nat.lt_or_ge lvl s.decisionLevel with h | h
  · unfold decisionLevel
    rw [backtrack_trailLim h, length_take]
  · rw [backtrack_of_le h]
    omega

theorem backtrack_valueLit (h : lvl < s.decisionLevel) (l : Lit) : (s.backtrack lvl).valueLit l =
      if l.var ∈ (s.trail.drop (s.target lvl)).map Lit.var then none else s.valueLit l := by
  rw [backtrack_of_lt h]
  unfold valueLit
  simp only [unassign_apply]
  split <;> rfl

theorem backtrack_getElem? (h : lvl < s.decisionLevel) {i : Nat} {l : Lit} :
    (s.backtrack lvl).trail[i]? = some l ↔ i < s.target lvl ∧ s.trail[i]? = some l := by
  rw [backtrack_trail h, getElem?_take]
  by_cases hi : i < s.target lvl <;> simp [hi]

theorem Core.backtrack_levelAt (hc : s.Core) (h : lvl < s.decisionLevel) {i : Nat}
    (hi : i < s.target lvl) : (s.backtrack lvl).levelAt i = s.levelAt i := by
  rw [← hc.levelAt_take h hi]
  unfold levelAt
  rw [backtrack_trailLim h]

theorem Core.mem_backtrack (hc : s.Core) (h : lvl < s.decisionLevel) {l : Lit} :
    l ∈ (s.backtrack lvl).trail ↔ l ∈ s.trail ∧ s.level l.var ≤ lvl := by
  constructor
  · intro hl
    obtain ⟨i, hi⟩ := mem_iff_getElem?.mp hl
    obtain ⟨hlt, hi⟩ := (backtrack_getElem? h).mp hi
    refine ⟨mem_of_getElem? hi, ?_⟩
    rw [hc.level i l hi]
    exact (hc.levelAt_le_iff h).mpr hlt
  · rintro ⟨hl, hle⟩
    obtain ⟨i, hi⟩ := mem_iff_getElem?.mp hl
    rw [hc.level i l hi] at hle
    exact mem_of_getElem? ((backtrack_getElem? h).mpr ⟨(hc.levelAt_le_iff h).mp hle, hi⟩)

theorem Core.backtrack_value (hc : s.Core) (h : lvl < s.decisionLevel) (l : Lit) :
    (s.backtrack lvl).valueLit l = some true ↔ l ∈ (s.backtrack lvl).trail := by
  rw [backtrack_valueLit h, backtrack_trail h]
  have hsplit : l ∈ s.trail ↔
      l ∈ s.trail.take (s.target lvl) ∨ l ∈ s.trail.drop (s.target lvl) := by
    rw [← mem_append, take_append_drop]
  have hdis := disjoint_take_drop hc.vars_nodup (Nat.le_refl (s.target lvl))
  rw [← map_take, ← map_drop] at hdis
  split
  · rename_i hin
    constructor
    · intro hn
      cases hn
    · intro hm
      exact absurd hin (hdis (mem_map_of_mem hm))
  · rename_i hout
    rw [hc.value, hsplit]
    constructor
    · rintro (hm | hm)
      · exact hm
      · exact absurd (mem_map_of_mem hm) hout
    · exact .inl

theorem Core.backtrack (hc : s.Core) (lvl : Nat) : (s.backtrack lvl).Core := by
  rcases Nat.lt_or_ge lvl s.decisionLevel with h | h
  swap
  · rw [backtrack_of_le h]
    exact hc
  have htarget := hc.target_le h
  exact {
    value := hc.backtrack_value h
    nodup := by
      rw [backtrack_trail h]
      exact hc.nodup.sublist (take_sublist _ _)
    range := by
      intro l hl
      rw [backtrack_nVars]
      exact hc.range l ((hc.mem_backtrack h).mp hl).1
    lims := by
      rw [backtrack_trailLim h]
      exact hc.lims.sublist (take_sublist _ _)
    limsLe := by
      intro n hn
      rw [backtrack_trailLim h] at hn
      rw [backtrack_qhead h]
      exact (hc.lims_split h).1 n hn
    qheadLe := by
      rw [backtrack_qhead h, backtrack_trail h, length_take]
      omega
    level := by
      intro i l hl
      obtain ⟨hi, hl⟩ := (backtrack_getElem? h).mp hl
      rw [backtrack_level, hc.backtrack_levelAt h hi]
      exact hc.level i l hl
    reasonClause := by
      intro i l cid hl hr
      obtain ⟨hi, hl⟩ := (backtrack_getElem? h).mp hl
      rw [backtrack_reason] at hr
      obtain ⟨h₁, h₂, h₃⟩ := hc.reasonClause i l cid hl hr
      rw [backtrack_numClauses, backtrack_clauses, backtrack_trail h, take_take,
        Nat.min_eq_left (Nat.le_of_lt hi)]
      exact ⟨h₁, h₂, h₃⟩
    reasonDecision := by
      intro i l hl hr
      obtain ⟨hi, hl⟩ := (backtrack_getElem? h).mp hl
      rw [backtrack_reason] at hr
      rw [hc.backtrack_levelAt h hi, backtrack_trailLim h]
      rcases hc.reasonDecision i l hl hr with h0 | hlim
      · exact .inl h0
      · -- A decision before the target is one of the levels that are kept.
        rw [← take_append_drop lvl s.trailLim] at hlim
        rcases mem_append.mp hlim with hm | hm
        · exact .inr hm
        · have := (hc.lims_split h).2 i hm
          omega
    root := by
      intro i l hl h0
      obtain ⟨hi, hl⟩ := (backtrack_getElem? h).mp hl
      rw [hc.backtrack_levelAt h hi] at h0
      rw [backtrack_added]
      exact hc.root i l hl h0
    clauseImplied := by simpa using hc.clauseImplied
    clauseNodup := by simpa using hc.clauseNodup
    clauseRange := by simpa using hc.clauseRange
    unseen := by
      rw [backtrack_of_lt h]
      exact hc.unseen
    activity := by
      rw [backtrack_of_lt h]
      exact hc.activity
    varInc := by
      rw [backtrack_of_lt h]
      exact hc.varInc
    zeroRoot := by
      have hi : 0 < s.target lvl :=
        (hc.levelAt_le_iff h).mp (by rw [hc.zeroRoot.2]; exact Nat.zero_le _)
      exact ⟨(backtrack_getElem? h).mpr ⟨hi, hc.zeroRoot.1⟩,
        by rw [hc.backtrack_levelAt h hi]; exact hc.zeroRoot.2⟩
    addedRange := by simpa using hc.addedRange }

theorem backtrack_isWatch {cid : Nat} {w o : Lit} :
    (s.backtrack lvl).IsWatch cid w o ↔ s.IsWatch cid w o := by
  unfold IsWatch
  rw [backtrack_clauses]

/-- Going back to `lvl` only needs the guards of the levels up to `lvl`. -/
theorem Watched.backtrack {bound : Nat} (hw : s.Watched bound) (hc : s.Core)
    (hb : min lvl s.decisionLevel < bound) : (s.backtrack lvl).Watched (min lvl s.decisionLevel + 1) := by
  rcases Nat.lt_or_ge lvl s.decisionLevel with h | h
  swap
  · rw [backtrack_of_le h]
    refine ⟨hw.listed, hw.inRange, fun cid hcid w o hwo hneg hlt => ?_⟩
    exact hw.guarded cid hcid w o hwo hneg (by omega)
  rw [Nat.min_eq_left (Nat.le_of_lt h)] at hb ⊢
  refine ⟨?_, ?_, ?_⟩
  · intro cid hcid w o hwo
    rw [backtrack_watches]
    exact hw.listed cid (by simpa using hcid) w o (backtrack_isWatch.mp hwo)
  · intro l cid hcid
    rw [backtrack_numClauses]
    rw [backtrack_watches] at hcid
    exact hw.inRange l cid hcid
  · intro cid hcid w o hwo hneg hlt
    rw [backtrack_level] at hlt
    have hmem : w.neg ∈ s.trail.take s.qhead := by
      rw [backtrack_trail h, backtrack_qhead h, take_take, Nat.min_self] at hneg
      have hq : s.target lvl ≤ s.qhead := hc.limsLe _ (mem_of_getElem? (target_mem h))
      exact (take_prefix_take_left hq).subset hneg
    obtain ⟨hot, hle⟩ := hw.guarded cid (by simpa using hcid) w o (backtrack_isWatch.mp hwo) hmem
      (by omega)
    refine ⟨(hc.mem_backtrack h).mpr ⟨hot, by omega⟩, ?_⟩
    rw [backtrack_level]
    exact hle

theorem Complete.backtrack (h : s.Complete) (hc : s.Core) (lvl : Nat) :
    (s.backtrack lvl).Complete := by
  rcases Nat.lt_or_ge lvl s.decisionLevel with hlt | hge
  · intro α hcl hroot
    rw [backtrack_added]
    refine h α (by simpa using hcl) (fun i l hl h0 => ?_)
    have hi : i < s.target lvl := (hc.levelAt_le_iff hlt).mp (by omega)
    exact hroot i l ((backtrack_getElem? hlt).mpr ⟨hi, hl⟩)
      (by rw [hc.backtrack_levelAt hlt hi]; exact h0)
  · rw [backtrack_of_le hge]
    exact h

theorem Good.backtrack (hg : s.Good) (lvl : Nat) : (s.backtrack lvl).Good := by
  refine ⟨hg.core.backtrack lvl, ?_, hg.complete.backtrack hg.core lvl⟩
  rw [backtrack_decisionLevel]
  exact hg.watched.backtrack hg.core (by omega)

end Backtrack

end Solver

end Brass.Verify.Cdcl
