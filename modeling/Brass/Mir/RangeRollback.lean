import Brass.Mir.RangeScopes

/-!
# What a block sets is undone

Everything in a block goes through `Scope.set`, so what it does to a scope is a list of `set`s
(`Sets`). Undoing its list of changes gives the ranges it has started from, and the walk of a
subtree leaves the ranges in scope as it found them (`walks_restores`).
-/

namespace Brass.Mir

open Brass.Util

variable {F : RangeFunction} {globalRanges ranges : Ranges} {s s' s'' : Scope} {v w : Nat}
  {r : ValueRange} {blockRanges : Nat → List (Nat × ValueRange)}

namespace Scope

/-- `s'` comes from `s` by a number of `set`s. -/
def Sets (s s' : Scope) : Prop :=
  ∃ ws : List (Nat × ValueRange), s' = ws.foldl (fun s w => s.set w.1 w.2) s

theorem Sets.refl (s : Scope) : Sets s s := ⟨[], rfl⟩

theorem Sets.trans (h : Sets s s') (h' : Sets s' s'') : Sets s s'' := by
  obtain ⟨ws, rfl⟩ := h
  obtain ⟨ws', rfl⟩ := h'
  exact ⟨ws ++ ws', List.foldl_append.symm⟩

theorem sets_set (s : Scope) (v : Nat) (r : ValueRange) : Sets s (s.set v r) := ⟨[(v, r)], rfl⟩

theorem sets_foldl {β : Type} {f : Scope → β → Scope} (hf : ∀ s b, Sets s (f s b)) (bs : List β)
    (s : Scope) : Sets s (bs.foldl f s) := by
  induction bs generalizing s with
  | nil => exact .refl s
  | cons b bs ih => exact (hf s b).trans (ih (f s b))

theorem Sets.induct {P : Scope → Prop} (h : Sets s s') (hset : ∀ s v r, P s → P (s.set v r))
    (hs : P s) : P s' := by
  obtain ⟨ws, rfl⟩ := h
  induction ws generalizing s with
  | nil => exact hs
  | cons w ws ih => exact ih (hset s w.1 w.2 hs)

theorem undo_set (s : Scope) (v : Nat) (r : ValueRange) :
    undo (s.set v r).ranges (s.set v r).rollback = undo s.ranges s.rollback := by
  simp only [undo, set, List.reverse_append, List.reverse_cons, List.reverse_nil, List.nil_append,
    List.singleton_append, List.foldl_cons, Function.update_idem, Function.update_eq_self]

theorem undo_of_sets (h : Sets { ranges, rollback := [] } s) : undo s.ranges s.rollback = ranges :=
  h.induct (P := fun s => undo s.ranges s.rollback = ranges)
    (fun s v r hs => (undo_set s v r).trans hs) rfl

theorem ranges_of_sets (h : Sets { ranges, rollback := [] } s) (v : Nat) :
    (s.rollback.any (·.1 == v) = true → (s.ranges v).isSome) ∧
      (s.rollback.any (·.1 == v) = false → s.ranges v = ranges v) := by
  refine h.induct (P := fun s => (s.rollback.any (·.1 == v) = true → (s.ranges v).isSome) ∧
    (s.rollback.any (·.1 == v) = false → s.ranges v = ranges v)) (fun s w r hs => ?_) ?_
  · simp only [set, List.any_append, List.any_cons, List.any_nil, Bool.or_false]
    by_cases hwv : w = v
    · subst hwv
      simp
    · rw [Function.update_of_ne (Ne.symm hwv)]
      simpa [hwv] using hs
  · exact ⟨fun h => absurd h (by simp), fun _ => rfl⟩

end Scope

/-! ## Blocks -/

namespace RangeFunction

open Scope

theorem sets_setValRange (s : Scope) (v : Nat) (r : ValueRange) : Sets s (F.setValRange s v r) := by
  unfold setValRange
  split
  · exact .refl s
  · exact sets_set s v r

theorem sets_applyComparison (c : Comparison) (operands : List Nat) (s : Scope) :
    Sets s (F.applyComparison globalRanges c operands s) := by
  unfold applyComparison
  dsimp only
  split
  · exact sets_foldl (fun s (w : Side × ValueRange) => sets_setValRange s _ w.2) _ s
  · exact .refl s

theorem sets_applyBranchCondition (isTrueEdge : Bool) (depth cond : Nat) (s : Scope) :
    Sets s (F.applyBranchCondition globalRanges isTrueEdge depth cond s) := by
  induction depth generalizing cond s with
  | zero => exact .refl s
  | succ depth ih =>
    unfold applyBranchCondition
    split
    · exact .refl s
    · split
      · split
        · exact (ih _ s).trans (ih _ _)
        · exact .refl s
      · split
        · exact .refl s
        · exact (ih _ s).trans (ih _ _)
      · exact (sets_setValRange s cond _).trans (sets_applyComparison _ _ _)
      · exact .refl s

theorem sets_applyBranchInto (bb : Nat) (s : Scope) :
    Sets s (F.applyBranchInto globalRanges bb s) := by
  unfold applyBranchInto
  split
  · split
    · dsimp only
      split
      · exact sets_applyBranchCondition _ _ _ s
      · exact .refl s
    · exact .refl s
  · exact .refl s

theorem sets_evaluateInst (s : Scope × Ranges) (inst : RangeInst) :
    Sets s.1 (F.evaluateInst s inst).1 := by
  unfold evaluateInst
  split
  · exact .refl s.1
  · exact sets_set s.1 _ _

theorem sets_evaluateInsts (insts : List RangeInst) (s : Scope × Ranges) :
    Sets s.1 (insts.foldl F.evaluateInst s).1 := by
  induction insts generalizing s with
  | nil => exact .refl s.1
  | cons inst insts ih => exact (sets_evaluateInst s inst).trans (ih _)

theorem sets_enterDominatorBlock (bb : Nat) : Sets { ranges, rollback := [] }
      (F.enterDominatorBlock blockRanges globalRanges bb ranges).1 := by
  refine .trans ?_ (sets_evaluateInsts _ _)
  exact (sets_foldl (fun s (p : Nat × ValueRange) => sets_set s p.1 _) _ _).trans
    (sets_applyBranchInto bb _)

end RangeFunction

/-! ## Subtrees -/

namespace Pass3

/-- The log is not among the other parts of the state. -/
structure SameScopes (s s' : Pass3) : Prop where
  currentRanges : s'.currentRanges = s.currentRanges
  globalRanges : s'.globalRanges = s.globalRanges
  rollbacks : s'.rollbacks = s.rollbacks
  visit : s'.visit = s.visit
  subtreeEnd : s'.subtreeEnd = s.subtreeEnd

theorem SameScopes.refl (s : Pass3) : SameScopes s s := ⟨rfl, rfl, rfl, rfl, rfl⟩

theorem SameScopes.trans {s s' s'' : Pass3} (h : SameScopes s s') (h' : SameScopes s' s'') :
    SameScopes s s'' :=
  ⟨h'.1.trans h.1, h'.2.trans h.2, h'.3.trans h.3, h'.4.trans h.4, h'.5.trans h.5⟩

theorem stageWrite_sameScopes (s : Pass3) (v block : Nat) (r : ValueRange) :
    SameScopes s (s.stageWrite v block r) := by
  unfold stageWrite
  split
  · split
    · split
      · exact ⟨rfl, rfl, rfl, rfl, rfl⟩
      · exact ⟨rfl, rfl, rfl, rfl, rfl⟩
    · exact .refl s
  · exact ⟨rfl, rfl, rfl, rfl, rfl⟩

theorem stageScope_sameScopes (s : Pass3) (scope : Scope) (block : Nat) :
    SameScopes s (s.stageScope scope block) := by
  unfold stageScope
  induction scope.rollback generalizing s with
  | nil => exact .refl s
  | cons e es ih =>
    rw [List.foldl_cons]
    refine .trans ?_ (ih _)
    split
    · exact stageWrite_sameScopes s _ _ _
    · exact .refl s

variable {s t r : Pass3} {vs : List Nat} {bb : Nat}

theorem enter_scopes (F : RangeFunction) (blockRanges : Nat → List (Nat × ValueRange)) (s : Pass3)
    (bb : Nat) :
    let p := F.enterDominatorBlock blockRanges s.globalRanges bb s.currentRanges
    SameScopes { s with
        currentRanges := p.1.ranges
        globalRanges := p.2
        rollbacks := p.1.rollback :: s.rollbacks
        visit := Function.update s.visit bb (some s.subtreeEnd.length)
        subtreeEnd := s.subtreeEnd ++ [none] } (s.enter F blockRanges bb) :=
  stageScope_sameScopes _ _ _

theorem walks_scopes (h : TreeWalk.Walks F.dom.children (enter F blockRanges) leave vs s r) :
    r.currentRanges = s.currentRanges ∧ r.rollbacks = s.rollbacks := by
  induction h with
  | nil s => exact ⟨rfl, rfl⟩
  | @cons v vs s t r _ _ ih₁ ih₂ =>
    have henter := enter_scopes F blockRanges s v
    have hsets : Scope.Sets { ranges := s.currentRanges, rollback := [] }
        (F.enterDominatorBlock blockRanges s.globalRanges v s.currentRanges).1 :=
      RangeFunction.sets_enterDominatorBlock v
    rw [ih₂.1, ih₂.2]
    constructor
    · rw [leave, ih₁.1, ih₁.2, henter.currentRanges, henter.rollbacks]
      exact Scope.undo_of_sets hsets
    · rw [leave, ih₁.2, henter.rollbacks]
      rfl

theorem walks_restores
    (h : TreeWalk.Walks F.dom.children (enter F blockRanges) leave (F.dom.children bb)
      (s.enter F blockRanges bb) t) : (t.leave bb).currentRanges = s.currentRanges :=
  (walks_scopes (h.cons (.nil _))).1

end Pass3

end Brass.Mir
