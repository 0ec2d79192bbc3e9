import Mathlib.Tactic.NormNum
import Mathlib.Tactic.Positivity
import Brass.Verify.CdclGates

/-!
# Incremental use of the solver

Variables, clauses and gates are added before and between the calls of `solveAssuming`.
Every operation keeps `Gates`, so the answers are right in every state that a sequence of
operations reaches (`run_answers`).
-/

namespace Brass.Verify.Cdcl

open Brass.Util.Cnf

variable {D : Doubles}

inductive Op where
  | newVar
  | addClause (lits : List Lit)
  | mkAnd (a b : Lit)
  | mkOr (a b : Lit)
  | mkXor (a b : Lit)
  | mkIte (c t f : Lit)
  | solveAssuming (assumption : Lit) (maxConflicts : Nat)
  deriving DecidableEq, Repr

namespace Op

def lits : Op → List Lit
  | newVar => []
  | addClause lits => lits
  | mkAnd a b => [a, b]
  | mkOr a b => [a, b]
  | mkXor a b => [a, b]
  | mkIte c t f => [c, t, f]
  | solveAssuming a _ => [a]

def run (s : Solver D) : Op → Option (Solver D)
  | newVar => some s.newVar.2
  | addClause lits => (s.addClause lits).map Prod.snd
  | mkAnd a b => (s.mkAnd a b).map Prod.snd
  | mkOr a b => (s.mkOr a b).map Prod.snd
  | mkXor a b => (s.mkXor a b).map Prod.snd
  | mkIte c t f => (s.mkIte c t f).map Prod.snd
  | solveAssuming a m => (s.solveAssuming a m).map Prod.snd

end Op

namespace Solver

def run (s : Solver D) : List Op → Option (Solver D)
  | [] => some s
  | op :: ops =>
    match op.run s with
    | none => none
    | some t => run t ops

/-- Every literal that is passed to the solver is one of a variable that exists. -/
def Legal (s : Solver D) : List Op → Prop
  | [] => True
  | op :: ops => (∀ l ∈ op.lits, l.var < s.nVars) ∧
    match op.run s with
    | none => True
    | some t => Legal t ops

instance decidableLegal (s : Solver D) : ∀ ops : List Op, Decidable (s.Legal ops)
  | [] => isTrue trivial
  | op :: ops =>
    have : Decidable (match op.run s with
        | none => True
        | some t => Legal t ops) :=
      match op.run s with
      | none => isTrue trivial
      | some t => decidableLegal t ops
    inferInstanceAs (Decidable (_ ∧ _))

/-! ## Every operation keeps the invariant -/

section Steps

variable {s : Solver D}

theorem init_gates (D : Doubles) : (init D).Gates := by
  refine ⟨init_inv D, Nat.one_pos, fun key l hl => ?_, fun v l r hl _ => ?_⟩
  · cases hl
  · have : (init D).xorLhs v = none := by
      by_cases hv : v = 0 <;>
        simp [init, Solver.assign, Solver.newVar, blank, resetToRoot, Solver.decisionLevel, hv]
    rw [this] at hl
    cases hl

theorem Gates.of_kept {t : Solver D} (h : s.Gates) (hinv : t.Inv) (hnVars : t.nVars = s.nVars)
    (hadded : ∀ c ∈ s.added, c ∈ t.added) (hcache : t.gateCache = s.gateCache)
    (hxl : t.xorLhs = s.xorLhs) (hxr : t.xorRhs = s.xorRhs) : t.Gates := by
  refine h.grow hinv ⟨Nat.le_of_eq hnVars.symm, hadded⟩ (fun key l hl => ?_) (fun v l r hl hr => ?_)
  · rw [hcache] at hl
    exact Or.inl hl
  · rw [hxl] at hl
    rw [hxr] at hr
    exact Or.inl ⟨hl, hr⟩

theorem Gates.newVar (h : s.Gates) : s.newVar.2.Gates := by
  refine h.grow h.inv.newVar ⟨by simp, by simp⟩ (fun key l hl => ?_) (fun v l r hl hr => ?_)
  · rw [newVar_gateCache] at hl
    exact Or.inl hl
  · exact Or.inl (newVar_xors hl hr)

theorem Gates.addClause (h : s.Gates) {lits : List Lit} (hrange : ∀ l ∈ lits, l.var < s.nVars) :
    ∃ r, s.addClause lits = some r ∧ r.2.Gates ∧ r.2.added = lits :: s.added ∧
      r.2.nVars = s.nVars := by
  obtain ⟨r, hrun, hkept, hinv⟩ := h.inv.addClause hrange
  refine ⟨r, hrun, ?_, hkept.added, hkept.nVars⟩
  refine h.of_kept hinv hkept.nVars (fun c hc => ?_) hkept.gateCache hkept.xorLhs hkept.xorRhs
  rw [hkept.added]
  exact List.mem_cons_of_mem _ hc

theorem Gates.solveAssuming (h : s.Gates) {a : Lit} (ha : a.var < s.nVars) (maxConflicts : Nat) :
    ∃ r, s.solveAssuming a maxConflicts = some r ∧ r.2.Gates ∧ s.Answers a r := by
  obtain ⟨r, hrun, hans⟩ := solveAssuming_spec h.inv ha maxConflicts
  obtain ⟨hkept, hinv, -⟩ := id hans
  refine ⟨r, hrun, ?_, hans⟩
  refine h.of_kept hinv hkept.nVars (fun c hc => ?_) hkept.gateCache hkept.xorLhs hkept.xorRhs
  rw [hkept.added]
  exact hc

/-- One operation: it returns, keeps the invariant, and forgets no clause. -/
theorem Gates.op (h : s.Gates) (op : Op) (hlegal : ∀ l ∈ op.lits, l.var < s.nVars) :
    ∃ t, op.run s = some t ∧ t.Gates ∧ (∀ c ∈ s.added, c ∈ t.added) ∧
      ∀ lits, op = .addClause lits → lits ∈ t.added := by
  have hbuilt : ∀ {f : (Nat → Bool) → Bool} {x : Option (Lit × Solver D)},
      (∃ r, x = some r ∧ s.Built f r) →
      ∃ t, x.map Prod.snd = some t ∧ t.Gates ∧ ∀ c ∈ s.added, c ∈ t.added := by
    rintro f x ⟨r, rfl, hb⟩
    exact ⟨r.2, rfl, hb.gates, hb.conservative.added⟩
  cases op with
  | newVar => exact ⟨_, rfl, h.newVar, by simp, by simp⟩
  | addClause lits =>
    obtain ⟨r, hrun, hg, hadded, -⟩ := h.addClause (show ∀ l ∈ lits, l.var < s.nVars from hlegal)
    refine ⟨r.2, ?_, hg, ?_, ?_⟩
    · show (s.addClause lits).map Prod.snd = some r.2
      rw [hrun]
      rfl
    · intro c hc
      rw [hadded]
      exact List.mem_cons_of_mem _ hc
    · intro ls hls
      cases hls
      rw [hadded]
      simp
  | mkAnd a b =>
    obtain ⟨t, h₁, h₂, h₃⟩ := hbuilt (h.mkAnd (hlegal a (by simp [Op.lits])) (hlegal b (by simp [Op.lits])))
    exact ⟨t, h₁, h₂, h₃, by simp⟩
  | mkOr a b =>
    obtain ⟨t, h₁, h₂, h₃⟩ := hbuilt (h.mkOr (hlegal a (by simp [Op.lits])) (hlegal b (by simp [Op.lits])))
    exact ⟨t, h₁, h₂, h₃, by simp⟩
  | mkXor a b =>
    obtain ⟨t, h₁, h₂, h₃⟩ := hbuilt (h.mkXor (hlegal a (by simp [Op.lits])) (hlegal b (by simp [Op.lits])))
    exact ⟨t, h₁, h₂, h₃, by simp⟩
  | mkIte c t f =>
    obtain ⟨u, h₁, h₂, h₃⟩ := hbuilt (h.mkIte (hlegal c (by simp [Op.lits]))
      (hlegal t (by simp [Op.lits])) (hlegal f (by simp [Op.lits])))
    exact ⟨u, h₁, h₂, h₃, by simp⟩
  | solveAssuming a m =>
    obtain ⟨r, hrun, hg, hkept, -⟩ := h.solveAssuming (hlegal a (by simp [Op.lits])) m
    refine ⟨r.2, ?_, hg, ?_, by simp⟩
    · show (s.solveAssuming a m).map Prod.snd = some r.2
      rw [hrun]
      rfl
    · intro c hc
      rw [hkept.added]
      exact hc

theorem Gates.run (ops : List Op) : ∀ {s : Solver D}, s.Gates → s.Legal ops →
    ∃ t, s.run ops = some t ∧ t.Gates ∧ (∀ c ∈ s.added, c ∈ t.added) ∧
      ∀ lits, Op.addClause lits ∈ ops → lits ∈ t.added := by
  induction ops with
  | nil =>
    intro s h _
    exact ⟨s, rfl, h, fun _ hc => hc, by simp⟩
  | cons op ops ih =>
    intro s h hlegal
    obtain ⟨hlits, hrest⟩ := hlegal
    obtain ⟨t, hrun, hg, hadded, hclause⟩ := h.op op hlits
    rw [hrun] at hrest
    obtain ⟨u, hrun', hg', hadded', hclause'⟩ := ih hg hrest
    refine ⟨u, ?_, hg', fun c hc => hadded' c (hadded c hc), fun lits hl => ?_⟩
    · unfold Solver.run
      rw [hrun]
      exact hrun'
    · rcases List.mem_cons.mp hl with heq | hmem
      · exact hadded' _ (hclause lits heq.symm)
      · exact hclause' lits hmem

/-- What a solver has learnt, as clauses or as literals of level 0, follows from the added
clauses. -/
theorem Inv.learnt_implied (h : s.Inv) :
    (∀ cid < s.numClauses, Implies s.added (s.clauses cid).lits) ∧
      ∀ l ∈ s.trail, s.level l.var = 0 → Implies s.added [l] := by
  cases hok : s.ok with
  | true =>
    have hc := (h.1 hok).core
    exact ⟨hc.clauseImplied, fun l hl h0 => hc.root_implied hl h0⟩
  | false => exact ⟨fun _ _ α hα => absurd hα (h.2 hok α), fun _ _ _ α hα => absurd hα (h.2 hok α)⟩

end Steps

end Solver

open Solver

/-- After any sequence of operations a call of `solveAssuming` returns. `Unsat` means that
no assignment satisfies the added clauses and the assumption; after `Sat` the assignment of
the solver satisfies them; and every clause and every fact of level 0 that the solver
holds, before and after the call, follows from the added clauses. -/
theorem run_answers (D : Doubles) (ops : List Op) (hops : (init D).Legal ops) :
    ∃ s, (init D).run ops = some s ∧
      (∀ lits, Op.addClause lits ∈ ops → lits ∈ s.added) ∧
      ∀ (assumption : Lit) (maxConflicts : Nat), assumption.var < s.nVars →
        ∃ st t, s.solveAssuming assumption maxConflicts = some (st, t) ∧ t.added = s.added ∧
          (∀ cid < t.numClauses, Implies s.added (t.clauses cid).lits) ∧
          (∀ l ∈ t.trail, t.level l.var = 0 → Implies s.added [l]) ∧
          (st = .unsat → ∀ α, ¬ (Models s.added α ∧ litTrue α assumption = true)) ∧
          (st = .sat → Models s.added t.model ∧ litTrue t.model assumption = true) := by
  obtain ⟨s, hrun, hg, -, hclauses⟩ := (init_gates D).run ops hops
  refine ⟨s, hrun, hclauses, fun a m ha => ?_⟩
  obtain ⟨⟨st, t⟩, hsolve, hgt, hkept, -, hans⟩ := hg.solveAssuming ha m
  have hadded : t.added = s.added := hkept.added
  obtain ⟨hcl, hroot⟩ := hgt.inv.learnt_implied
  rw [show ((st, t) : Status × Solver D).2.added = s.added from hadded] at hcl hroot
  refine ⟨st, t, hsolve, hadded, hcl, hroot, ?_, ?_⟩
  · rintro rfl
    exact hans
  · rintro rfl
    exact hans

/-- The activities as rational numbers. -/
def ratDoubles : Doubles where
  carrier := ℚ
  zero := 0
  one := 1
  minusOne := -1
  add := (· + ·)
  grow := fun x => x * (21 / 20)
  rescale := fun x => x / 10 ^ 100
  huge := fun x => decide (x > 10 ^ 100)
  gt := fun x y => decide (x > y)
  NonNeg := fun x => 0 ≤ x
  nonNeg_zero := le_refl 0
  nonNeg_one := zero_le_one
  nonNeg_add := add_nonneg
  nonNeg_grow := fun h => mul_nonneg h (by norm_num)
  nonNeg_rescale := fun h => div_nonneg h (by norm_num)
  gt_minusOne := fun h => decide_eq_true (lt_of_lt_of_le (by norm_num) h)

/-- Two variables and a gate; the clauses leave one assignment of the variables, found after
a conflict, and the second call contradicts it. -/
def sampleOps : List Op :=
  [.newVar, .newVar, .addClause [⟨1, false⟩, ⟨2, false⟩], .mkXor ⟨1, false⟩ ⟨2, false⟩,
    .addClause [⟨1, true⟩, ⟨2, false⟩], .solveAssuming ⟨2, true⟩ 10,
    .addClause [⟨1, false⟩, ⟨2, true⟩], .solveAssuming ⟨3, true⟩ 10]

theorem run_answers_sampleOps :
    (init ratDoubles).Legal sampleOps ∧
      ∃ s, (init ratDoubles).run sampleOps = some s ∧
        ∃ st t, s.solveAssuming ⟨3, false⟩ 10 = some (st, t) ∧
          (st = .unsat → ∀ α, ¬ (Models s.added α ∧ litTrue α ⟨3, false⟩ = true)) := by
  have hlegal : (init ratDoubles).Legal sampleOps := by decide +kernel
  have hvars : ∀ s, (init ratDoubles).run sampleOps = some s → 3 < s.nVars := by
    have : ((init ratDoubles).run sampleOps).all (fun s => decide (3 < s.nVars)) = true := by
      decide +kernel
    intro s hs
    simpa [hs] using this
  obtain ⟨s, hrun, -, hans⟩ := run_answers ratDoubles sampleOps hlegal
  obtain ⟨st, t, hsolve, -, -, -, hunsat, -⟩ := hans ⟨3, false⟩ 10 (hvars s hrun)
  exact ⟨hlegal, s, hrun, st, t, hsolve, hunsat⟩

/-! ## What propagation leaves behind -/

namespace Solver

/-- The rounds of the search, and the returns to a lower level. -/
inductive SearchStep : Solver D → Solver D → Prop
  | propagated {s t : Solver D} (h : s.propagate = some (t, none)) : SearchStep s t
  | decided {s t : Solver D} {l : Lit} (h : s.propagate = some (t, none))
      (hl : t.valueLit l = none) (hv : l.var < t.nVars) : SearchStep s (t.newDecision l)
  | learnt {s t u : Solver D} {cid : Nat} {k : Learnt} (h : s.propagate = some (t, some cid))
      (h0 : 0 < t.decisionLevel) (hk : t.analyze cid = some (u, k)) :
      SearchStep s (u.afterConflict k)
  | backtracked (s : Solver D) (lvl : Nat) : SearchStep s (s.backtrack lvl)

theorem Good.propagated {s : Solver D} (h : s.Good) {r : Solver D × Option Nat}
    (hr : s.propagate = some r) : s.Propagated r := by
  obtain ⟨r', hr', hspec⟩ := propagate_spec h
  cases hr.symm.trans hr'
  exact hspec

theorem Good.searchStep {s t : Solver D} (h : s.Good) (hstep : SearchStep s t) : t.Good := by
  cases hstep with
  | propagated hr => exact (h.propagated hr).2.1
  | decided hr hl hv =>
    obtain ⟨-, hgood, hq⟩ := h.propagated hr
    exact hgood.newDecision hq hl hv
  | learnt hr h0 hk =>
    obtain ⟨hext, hcore, hwatched, hconf⟩ := h.propagated hr
    obtain ⟨u, k, hk', hext', hcore', hwatched', hlearn, -⟩ := hcore.analyze hwatched h0 hconf
    cases hk.symm.trans hk'
    exact afterConflict_good hcore' hwatched' (hext'.complete (hext.complete h.complete)) hlearn
  | backtracked lvl => exact h.backtrack lvl

/-- The clause is true, or neither of its two watched literals has a value. -/
def Settled (s : Solver D) (c : Clause) : Prop :=
  (∃ l ∈ c.lits, s.valueLit l = some true) ∨
    (c.c0 ≠ c.c1 ∧ s.valueLit c.c0 = none ∧ s.valueLit c.c1 = none)

theorem Good.settled {s : Solver D} (h : s.Good) (hq : s.qhead = s.trail.length) {cid : Nat}
    (hcid : cid < s.numClauses) : s.Settled (s.clauses cid) := by
  have hguard : ∀ {w o}, s.IsWatch cid w o → s.valueLit w = some false →
      s.valueLit o = some true := by
    intro w o hwo hw
    have hneg := (h.core.value_false w).mp hw
    have hlev := h.core.level_neg_le hneg
    have htrue := h.watched.guarded cid hcid w o hwo
      (by rwa [hq, List.take_of_length_le le_rfl]) (by omega)
    exact (h.core.value o).mpr htrue.1
  have hnodup := h.core.clauseNodup cid hcid
  generalize hc : s.clauses cid = c at hnodup
  have h01 := hguard (.inl ⟨rfl, rfl⟩)
  have h10 := hguard (.inr ⟨rfl, rfl⟩)
  rw [hc] at h01 h10
  have hne : c.c0 ≠ c.c1 := fun heq => (List.nodup_cons.mp hnodup).1 (heq ▸ List.mem_cons_self)
  rcases hv0 : s.valueLit c.c0 with _ | _ | _
  · rcases hv1 : s.valueLit c.c1 with _ | _ | _
    · exact .inr ⟨hne, hv0, hv1⟩
    · exact absurd (h10 hv1) (by simp [hv0])
    · exact .inl ⟨c.c1, by simp [Clause.lits], hv1⟩
  · exact .inl ⟨c.c1, by simp [Clause.lits], h01 hv0⟩
  · exact .inl ⟨c.c0, by simp [Clause.lits], hv0⟩

end Solver

/-- However far a search has come, propagation returns; it reports a clause that is false, or
leaves no clause false and none with a single literal to go. -/
theorem propagate_complete (D : Doubles) (ops : List Op) (hops : (init D).Legal ops) :
    ∃ s, (init D).run ops = some s ∧
      (s.ok = true → ∀ t, Relation.ReflTransGen SearchStep s t → ∃ u confl,
        t.propagate = some (u, confl) ∧
          match confl with
          | some cid => ∀ l ∈ (u.clauses cid).lits, u.valueLit l = some false
          | none => ∀ cid < u.numClauses, u.Settled (u.clauses cid)) := by
  obtain ⟨s, hrun, hgates, -⟩ := (init_gates D).run ops hops
  refine ⟨s, hrun, fun hok t hsearch => ?_⟩
  have hgood : t.Good := by
    induction hsearch with
    | refl => exact hgates.inv.1 hok
    | tail _ hstep ih => exact ih.searchStep hstep
  obtain ⟨⟨u, confl⟩, hrun', -, hspec⟩ := propagate_spec hgood
  refine ⟨u, confl, hrun', ?_⟩
  cases confl with
  | some cid =>
    obtain ⟨hcore, -, hconf⟩ := hspec
    exact fun l hl => (hcore.value_false l).mpr (hconf.falsified l hl)
  | none => exact fun cid hcid => hspec.1.settled hspec.2 hcid

theorem propagate_complete_sampleOps : ∃ s, (init ratDoubles).run sampleOps = some s ∧
    (s.ok = true → ∃ u confl, s.propagate = some (u, confl)) := by
  obtain ⟨s, hrun, hprop⟩ := propagate_complete ratDoubles sampleOps (by decide +kernel)
  refine ⟨s, hrun, fun hok => ?_⟩
  obtain ⟨u, confl, hr, -⟩ := hprop hok s .refl
  exact ⟨u, confl, hr⟩

end Brass.Verify.Cdcl
