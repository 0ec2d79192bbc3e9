import Mathlib.Data.List.Induction
import Mathlib.Data.List.Perm.Basic
import Mathlib.Order.Lattice

/-!
# Reduction kinds of a parallel loop

Partial results are combined with `combineReductionI64`, starting from the kind's identity. The
integer kinds are associative and commutative, so that the order in which partial results arrive
does not matter; a floating-point kind leaves the integer accumulator as it is.
-/

namespace Brass.Runtime

inductive ReductionKind
  | none | sumI64 | sumF64 | prodI64 | prodF64 | minI64 | minF64 | maxI64 | maxF64
  deriving DecidableEq

namespace ReductionKind

def isReduction (k : ReductionKind) : Bool := k != .none

def isFpReduction : ReductionKind → Bool
  | .sumF64 | .prodF64 | .minF64 | .maxF64 => true
  | _ => false

def isInteger (k : ReductionKind) : Bool := k.isReduction && !k.isFpReduction

end ReductionKind

def combineReductionI64 (k : ReductionKind) (acc val : BitVec 64) : BitVec 64 :=
  match k with
  | .sumI64 => acc + val
  | .prodI64 => acc * val
  | .minI64 => if val.slt acc then val else acc
  | .maxI64 => if acc.slt val then val else acc
  | _ => acc

def initialReductionI64 : ReductionKind → BitVec 64
  | .sumI64 => 0
  | .prodI64 => 1
  | .minI64 => BitVec.intMax 64
  | .maxI64 => BitVec.intMin 64
  | _ => 0

/-- What a call of kind `k` makes of its partial results. -/
def foldReduction (k : ReductionKind) (vals : List (BitVec 64)) : BitVec 64 :=
  vals.foldl (combineReductionI64 k) (initialReductionI64 k)

section Laws

variable {k : ReductionKind} {a b c : BitVec 64}

theorem toInt_combine_min : (combineReductionI64 .minI64 a b).toInt = min a.toInt b.toInt := by
  simp only [combineReductionI64, BitVec.slt, decide_eq_true_eq]
  split <;> omega

theorem toInt_combine_max : (combineReductionI64 .maxI64 a b).toInt = max a.toInt b.toInt := by
  simp only [combineReductionI64, BitVec.slt, decide_eq_true_eq]
  split <;> omega

theorem combine_assoc : combineReductionI64 k (combineReductionI64 k a b) c =
      combineReductionI64 k a (combineReductionI64 k b c) := by
  cases k with
  | sumI64 => exact BitVec.add_assoc a b c
  | prodI64 => exact BitVec.mul_assoc a b c
  | minI64 =>
    apply BitVec.eq_of_toInt_eq
    simp only [toInt_combine_min]
    exact min_assoc _ _ _
  | maxI64 =>
    apply BitVec.eq_of_toInt_eq
    simp only [toInt_combine_max]
    exact max_assoc _ _ _
  | _ => rfl

theorem combine_comm (hk : k.isInteger = true) :
    combineReductionI64 k a b = combineReductionI64 k b a := by
  cases k with
  | sumI64 => exact BitVec.add_comm a b
  | prodI64 => exact BitVec.mul_comm a b
  | minI64 =>
    apply BitVec.eq_of_toInt_eq
    simp only [toInt_combine_min]
    exact min_comm _ _
  | maxI64 =>
    apply BitVec.eq_of_toInt_eq
    simp only [toInt_combine_max]
    exact max_comm _ _
  | _ => cases hk

theorem combine_initial (hk : k.isInteger = true) :
    combineReductionI64 k (initialReductionI64 k) a = a := by
  cases k with
  | sumI64 => exact BitVec.zero_add a
  | prodI64 => exact BitVec.one_mul a
  | minI64 =>
    apply BitVec.eq_of_toInt_eq
    rw [toInt_combine_min]
    have hlt := BitVec.toInt_lt (x := a)
    have hmax : (initialReductionI64 .minI64).toInt = 2 ^ 63 - 1 := by decide
    omega
  | maxI64 =>
    apply BitVec.eq_of_toInt_eq
    rw [toInt_combine_max]
    have hle := BitVec.le_toInt (x := a)
    have hmin : (initialReductionI64 .maxI64).toInt = -2 ^ 63 := by decide
    omega
  | _ => cases hk

end Laws

section Fold

variable {k : ReductionKind} {us vs : List (BitVec 64)} {v : BitVec 64}

@[simp] theorem foldReduction_nil : foldReduction k [] = initialReductionI64 k := rfl

theorem foldReduction_snoc :
    foldReduction k (vs ++ [v]) = combineReductionI64 k (foldReduction k vs) v :=
  List.foldl_concat ..

theorem foldReduction_append (hk : k.isInteger = true) :
    foldReduction k (us ++ vs) = combineReductionI64 k (foldReduction k us) (foldReduction k vs) := by
  induction vs using List.reverseRecOn with
  | nil =>
    rw [List.append_nil, foldReduction_nil, combine_comm hk, combine_initial hk]
  | append_singleton vs v ih =>
    rw [← List.append_assoc, foldReduction_snoc, ih, foldReduction_snoc, combine_assoc]

theorem foldReduction_perm (hk : k.isInteger = true) (h : us.Perm vs) :
    foldReduction k us = foldReduction k vs := by
  have : RightCommutative (combineReductionI64 k) := ⟨fun a b c => by
    rw [combine_assoc, combine_comm hk (a := b), ← combine_assoc]⟩
  exact h.foldl_eq _

theorem foldl_workers (hk : k.isInteger = true) (recorded : Nat → List (BitVec 64))
    (red : Nat → BitVec 64) (workers : List Nat)
    (hred : ∀ w ∈ workers, red w = foldReduction k (recorded w)) (vs : List (BitVec 64)) :
    workers.foldl (fun total w => combineReductionI64 k total (red w)) (foldReduction k vs) =
      foldReduction k (vs ++ workers.flatMap recorded) := by
  induction workers generalizing vs with
  | nil => rw [List.flatMap_nil, List.append_nil]; rfl
  | cons w workers ih =>
    rw [List.foldl_cons, hred w List.mem_cons_self, ← foldReduction_append hk,
      ih (fun x hx => hred x (List.mem_cons_of_mem _ hx)), List.flatMap_cons, List.append_assoc]

end Fold

end Brass.Runtime
