import Mathlib.Data.Int.ModEq
import Mathlib.Tactic.Linarith

/-!
# Words by their signed reading

A machine word is given by its signed reading. `Fits` says that a number is the signed reading
of a word of the width, `wrap` is the reading that a result is cut to, and `unsigned` the
unsigned reading of the same word. The order of unsigned readings does not depend on the width
(`compare_unsigned`).
-/

namespace Brass.Util

variable {w : Nat} {a b : Int}

/-- The number is the signed reading of a word. -/
def Fits (w : Nat) (a : Int) : Prop := -2 ^ w ≤ 2 * a ∧ 2 * a < 2 ^ w

instance : Decidable (Fits w a) := inferInstanceAs (Decidable (_ ∧ _))

/-- The signed reading of the low bits. -/
def wrap (w : Nat) (a : Int) : Int := a.bmod (2 ^ w)

def unsigned (w : Nat) (a : Int) : Int := a % 2 ^ w

/-- The order of unsigned readings: negative numbers stand above the others. -/
def compareUnsigned (a b : Int) : Ordering :=
  if 0 ≤ a ∧ b < 0 then .lt
  else if a < 0 ∧ 0 ≤ b then .gt
  else compare a b

theorem two_pow_pos (w : Nat) : (0 : Int) < 2 ^ w := pow_pos (by decide) w

theorem Fits.unsigned_of_nonneg (h : Fits w a) (ha : 0 ≤ a) : unsigned w a = a := by
  have := h.2
  exact Int.emod_eq_of_lt ha (by linarith)

theorem Fits.unsigned_of_neg (h : Fits w a) (ha : a < 0) : unsigned w a = a + 2 ^ w := by
  have h1 := h.1
  rw [unsigned, ← Int.add_emod_right]
  exact Int.emod_eq_of_lt (by linarith) (by linarith)

theorem Fits.compare_unsigned (ha : Fits w a) (hb : Fits w b) :
    compare (unsigned w a) (unsigned w b) = compareUnsigned a b := by
  obtain ⟨ha1, ha2⟩ := ha
  obtain ⟨hb1, hb2⟩ := hb
  unfold compareUnsigned
  rcases lt_or_ge a 0 with hna | hna <;> rcases lt_or_ge b 0 with hnb | hnb
  · rw [Fits.unsigned_of_neg ⟨ha1, ha2⟩ hna, Fits.unsigned_of_neg ⟨hb1, hb2⟩ hnb,
      if_neg (by omega), if_neg (by omega)]
    rcases lt_trichotomy a b with h | h | h
    · rw [compare_lt_iff_lt.2 h, compare_lt_iff_lt]
      linarith
    · rw [h, compare_eq_iff_eq.2 rfl, compare_eq_iff_eq.2 rfl]
    · rw [compare_gt_iff_gt.2 h, compare_gt_iff_gt]
      linarith
  · rw [Fits.unsigned_of_neg ⟨ha1, ha2⟩ hna, Fits.unsigned_of_nonneg ⟨hb1, hb2⟩ hnb,
      if_neg (by omega), if_pos ⟨hna, hnb⟩, compare_gt_iff_gt]
    linarith
  · rw [Fits.unsigned_of_nonneg ⟨ha1, ha2⟩ hna, Fits.unsigned_of_neg ⟨hb1, hb2⟩ hnb,
      if_pos ⟨hna, hnb⟩, compare_lt_iff_lt]
    linarith
  · rw [Fits.unsigned_of_nonneg ⟨ha1, ha2⟩ hna, Fits.unsigned_of_nonneg ⟨hb1, hb2⟩ hnb,
      if_neg (by omega), if_neg (by omega)]

theorem compareUnsigned_of_nonneg (ha : 0 ≤ a) (hb : 0 ≤ b) :
    compareUnsigned a b = compare a b := by
  rw [compareUnsigned, if_neg (by omega), if_neg (by omega)]

theorem compareUnsigned_self (a : Int) : compareUnsigned a a = .eq := by
  rw [compareUnsigned, if_neg (by omega), if_neg (by omega)]
  exact compare_eq_iff_eq.2 rfl

theorem compareUnsigned_eq_iff : compareUnsigned a b = .eq ↔ a = b := by
  constructor
  · intro h
    unfold compareUnsigned at h
    split at h
    · cases h
    · split at h
      · cases h
      · exact compare_eq_iff_eq.1 h
  · rintro rfl
    exact compareUnsigned_self a

theorem compareUnsigned_swap : compareUnsigned b a = (compareUnsigned a b).swap := by
  unfold compareUnsigned
  rcases lt_or_ge a 0 with ha | ha <;> rcases lt_or_ge b 0 with hb | hb
  · rw [if_neg (by omega), if_neg (by omega), if_neg (by omega), if_neg (by omega)]
    exact Std.OrientedCmp.eq_swap
  · rw [if_pos ⟨hb, ha⟩, if_neg (by omega), if_pos ⟨ha, hb⟩]
    rfl
  · rw [if_neg (by omega), if_pos ⟨hb, ha⟩, if_pos ⟨ha, hb⟩]
    rfl
  · rw [if_neg (by omega), if_neg (by omega), if_neg (by omega), if_neg (by omega)]
    exact Std.OrientedCmp.eq_swap

theorem compareUnsigned_ne_gt_iff :
    compareUnsigned a b ≠ .gt ↔ (0 ≤ a ∧ b < 0) ∨ ((a < 0 ↔ b < 0) ∧ a ≤ b) := by
  unfold compareUnsigned
  split
  · rename_i h
    simp [h]
  · split
    · rename_i h h'
      simp only [ne_eq, not_true_eq_false, false_iff]
      omega
    · rename_i h h'
      rw [ne_eq, compare_gt_iff_gt]
      omega

theorem compareUnsigned_lt_iff :
    compareUnsigned a b = .lt ↔ (0 ≤ a ∧ b < 0) ∨ ((a < 0 ↔ b < 0) ∧ a < b) := by
  unfold compareUnsigned
  split
  · rename_i h
    simp [h]
  · split
    · rename_i h h'
      simp only [reduceCtorEq, false_iff]
      omega
    · rename_i h h'
      rw [compare_lt_iff_lt]
      omega

/-! ## Results cut to the width -/

theorem wrap_of_fits (h : Fits w a) (hw : 0 < w) : wrap w a = a := by
  obtain ⟨n, rfl⟩ : ∃ n, w = n + 1 := ⟨w - 1, by omega⟩
  obtain ⟨h1, h2⟩ := h
  rw [pow_succ] at h1 h2
  rw [wrap]
  refine Int.bmod_eq_of_le ?_ ?_
  · push_cast
    rw [pow_succ]
    omega
  · push_cast
    rw [pow_succ]
    omega

end Brass.Util
