import Mathlib.Data.List.Basic
import Mathlib.Data.List.TakeWhile

/-!
# Partition points

`std::lower_bound` and `std::upper_bound` are both searches for the partition point of a
range: the position of the first element on which a predicate fails, when the predicate
holds on a prefix and fails on the rest. `partitionPoint` is the halving loop of the
standard library. On a partitioned list it is the length of the longest prefix on which
the predicate holds (`partitionPoint_eq_takeWhile`).
-/

namespace Brass.Util

open List

variable {α : Type}
variable {p : α → Bool} {v : List α}

/-- One search in the window of `len` elements that starts at `first`. The fuel is the
length of the first window; every round makes the window strictly shorter. -/
def partitionLoop (p : α → Bool) (v : List α) : Nat → Nat → Nat → Nat
  | 0, first, _ => first
  | fuel + 1, first, len =>
    if len = 0 then first
    else
      match v[first + len / 2]? with
      | none => first
      | some x =>
        if p x then partitionLoop p v fuel (first + len / 2 + 1) (len - len / 2 - 1)
        else partitionLoop p v fuel first (len / 2)

def partitionPoint (v : List α) (p : α → Bool) : Nat :=
  partitionLoop p v v.length 0 v.length

theorem partitionLoop_le (p : α → Bool) (v : List α) (fuel first len : Nat) :
    partitionLoop p v fuel first len ≤ first + len := by
  induction fuel generalizing first len with
  | zero => exact Nat.le_add_right first len
  | succ fuel ih =>
    simp only [partitionLoop]
    split
    · exact Nat.le_add_right first len
    · split
      · exact Nat.le_add_right first len
      · split
        · exact (ih _ _).trans (by omega)
        · exact (ih _ _).trans (by omega)

theorem partitionPoint_le (v : List α) (p : α → Bool) : partitionPoint v p ≤ v.length := by
  simpa [partitionPoint] using partitionLoop_le p v v.length 0 v.length

/-- `p` holds exactly on the first `k` elements. -/
def PartitionedAt (p : α → Bool) (v : List α) (k : Nat) : Prop :=
  ∀ (i : Nat) (x : α), v[i]? = some x → (p x = true ↔ i < k)

theorem partitionLoop_eq {k : Nat} (hk : PartitionedAt p v k) :
    ∀ (fuel first len : Nat), len ≤ fuel → first ≤ k → k ≤ first + len →
      first + len ≤ v.length → partitionLoop p v fuel first len = k := by
  intro fuel
  induction fuel with
  | zero =>
    intro first len hlen h₁ h₂ _
    simp only [partitionLoop]
    omega
  | succ fuel ih =>
    intro first len hlen h₁ h₂ hv
    simp only [partitionLoop]
    by_cases h0 : len = 0
    · simp only [h0, if_true]
      omega
    · have hmid : first + len / 2 < v.length := by omega
      simp only [h0, if_false, getElem?_eq_getElem hmid]
      have hpart := hk _ _ (getElem?_eq_getElem hmid)
      split
      · rename_i hp
        have := hpart.mp hp
        exact ih _ _ (by omega) (by omega) (by omega) (by omega)
      · rename_i hp
        have : ¬ first + len / 2 < k := fun h => hp (hpart.mpr h)
        exact ih _ _ (by omega) (by omega) (by omega) (by omega)

theorem partitionPoint_eq {k : Nat} (hk : PartitionedAt p v k) (hle : k ≤ v.length) :
    partitionPoint v p = k :=
  partitionLoop_eq hk _ _ _ le_rfl (Nat.zero_le _) (by omega) (by omega)

section

variable (hmono : v.Pairwise (fun a b => p b = true → p a = true))
include hmono

/-- A predicate that is inherited by every earlier element partitions the list. -/
theorem partitionedAt_takeWhile : PartitionedAt p v (v.takeWhile p).length := by
  induction v with
  | nil =>
    intro i x hx
    simp at hx
  | cons a v ih =>
    obtain ⟨ha, hv⟩ := pairwise_cons.mp hmono
    intro i x hx
    cases hpa : p a with
    | false =>
      simp only [takeWhile_cons, hpa]
      have hx' : x ∈ a :: v := mem_of_getElem? hx
      have hnot : ¬ p x = true := by
        rcases mem_cons.mp hx' with rfl | hmem
        · simp [hpa]
        · intro hpx
          simpa [hpa] using ha x hmem hpx
      simp [hnot]
    | true =>
      simp only [takeWhile_cons, hpa, if_true, length_cons]
      cases i with
      | zero =>
        obtain rfl : a = x := by simpa using hx
        simp [hpa]
      | succ i =>
        have hxi : v[i]? = some x := by simpa using hx
        rw [ih hv i x hxi]
        omega

theorem partitionPoint_eq_takeWhile : partitionPoint v p = (v.takeWhile p).length :=
  partitionPoint_eq (partitionedAt_takeWhile hmono) (List.takeWhile_prefix p).length_le

theorem take_partitionPoint : v.take (partitionPoint v p) = v.takeWhile p := by
  rw [partitionPoint_eq_takeWhile hmono]
  exact (prefix_iff_eq_take.mp (List.takeWhile_prefix p)).symm

theorem drop_partitionPoint : v.drop (partitionPoint v p) = v.dropWhile p := by
  have hall := take_append_drop (partitionPoint v p) v
  rw [take_partitionPoint hmono] at hall
  exact append_cancel_left (hall.trans takeWhile_append_dropWhile.symm)

theorem not_of_mem_dropWhile {x : α} (hx : x ∈ v.dropWhile p) : ¬ p x = true := by
  induction v with
  | nil => simp at hx
  | cons a v ih =>
    obtain ⟨ha, hv⟩ := pairwise_cons.mp hmono
    rw [dropWhile_cons] at hx
    split at hx
    · exact ih hv hx
    · rename_i hpa
      rcases mem_cons.mp hx with rfl | hx
      · exact hpa
      · exact fun hpx => hpa (ha x hx hpx)

/-- In a partitioned list the elements that satisfy the predicate are those before the
partition point. -/
theorem mem_takeWhile_iff {x : α} : x ∈ v.takeWhile p ↔ x ∈ v ∧ p x = true := by
  constructor
  · intro h
    exact ⟨(List.takeWhile_prefix p).subset h, mem_takeWhile_imp h⟩
  · rintro ⟨hmem, hp⟩
    obtain ⟨i, hi⟩ := mem_iff_getElem?.mp hmem
    have hlt := (partitionedAt_takeWhile hmono i x hi).mp hp
    rw [← takeWhile_append_dropWhile (p := p) (l := v), getElem?_append_left hlt] at hi
    exact mem_of_getElem? hi

end

end Brass.Util
