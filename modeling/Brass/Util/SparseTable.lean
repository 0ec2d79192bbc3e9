import Mathlib.Data.Nat.Log
import Mathlib.Tactic.Ring

/-!
# Sparse tables

Level `k` of a sparse table over an associative operation combines the `2 ^ k` leaves from an
index on. What the operation keeps of both sides holds of a level if it holds of all its
leaves (`sparse_iff`). An operation that returns one of its arguments makes a level one of
its leaves, and a query of a range, which combines two levels that may overlap, a leaf of
the range (`sparseQuery_mem`).
-/

namespace Brass.Util

variable {α : Type} {op : α → α → α} {leaf : Nat → α}

def sparse (op : α → α → α) (leaf : Nat → α) : Nat → Nat → α
  | 0, i => leaf i
  | k + 1, i => op (sparse op leaf k i) (sparse op leaf k (i + 2 ^ k))

/-- The leaves of `[a, b)`, which is not empty. -/
def sparseQuery (op : α → α → α) (leaf : Nat → α) (a b : Nat) : α :=
  let k := Nat.log2 (b - a)
  op (sparse op leaf k a) (sparse op leaf k (b - 2 ^ k))

theorem sparse_iff {P : α → Prop} (hop : ∀ x y, P (op x y) ↔ P x ∧ P y) (k i : Nat) :
    P (sparse op leaf k i) ↔ ∀ j, i ≤ j → j < i + 2 ^ k → P (leaf j) := by
  induction k generalizing i with
  | zero =>
    constructor
    · intro h j h₁ h₂
      obtain rfl : j = i := by simp only [Nat.pow_zero] at h₂; omega
      exact h
    · intro h
      exact h i (Nat.le_refl i) (by simp)
  | succ k ih =>
    rw [sparse, hop, ih, ih]
    constructor
    · rintro ⟨hlow, hhigh⟩ j h₁ h₂
      by_cases hj : j < i + 2 ^ k
      · exact hlow j h₁ hj
      · exact hhigh j (by omega) (by omega)
    · intro h
      exact ⟨fun j h₁ h₂ => h j h₁ (by omega), fun j h₁ h₂ => h j (by omega) (by omega)⟩

section Selective

variable (hop : ∀ x y, op x y = x ∨ op x y = y)

include hop

theorem sparse_mem (k i : Nat) : ∃ j, i ≤ j ∧ j < i + 2 ^ k ∧ sparse op leaf k i = leaf j := by
  induction k generalizing i with
  | zero => exact ⟨i, Nat.le_refl i, by simp, rfl⟩
  | succ k ih =>
    rw [sparse]
    rcases hop (sparse op leaf k i) (sparse op leaf k (i + 2 ^ k)) with h | h
    · obtain ⟨j, h₁, h₂, hj⟩ := ih i
      exact ⟨j, h₁, by omega, h.trans hj⟩
    · obtain ⟨j, h₁, h₂, hj⟩ := ih (i + 2 ^ k)
      exact ⟨j, by omega, by omega, h.trans hj⟩

theorem sparseQuery_mem {a b : Nat} (hab : a < b) :
    ∃ j, a ≤ j ∧ j < b ∧ sparseQuery op leaf a b = leaf j := by
  have hk : 2 ^ Nat.log2 (b - a) ≤ b - a := Nat.log2_self_le (by omega)
  rw [sparseQuery]
  rcases hop (sparse op leaf (Nat.log2 (b - a)) a)
    (sparse op leaf (Nat.log2 (b - a)) (b - 2 ^ Nat.log2 (b - a))) with h | h
  · obtain ⟨j, h₁, h₂, hj⟩ := @sparse_mem _ _ leaf hop (Nat.log2 (b - a)) a
    exact ⟨j, h₁, by omega, h.trans hj⟩
  · obtain ⟨j, h₁, h₂, hj⟩ :=
      @sparse_mem _ _ leaf hop (Nat.log2 (b - a)) (b - 2 ^ Nat.log2 (b - a))
    exact ⟨j, by omega, by omega, h.trans hj⟩

end Selective

end Brass.Util
