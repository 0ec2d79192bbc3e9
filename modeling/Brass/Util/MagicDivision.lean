import Mathlib.Data.Nat.Log
import Mathlib.Tactic.Linarith
import Mathlib.Tactic.Ring

/-!
# Division by multiplication

The quotient of `x` by a constant `d` is `x * m / P`, where `m * d` exceeds `P` by a small
`δ`. It is exact for all `x ≤ xmax` as soon as it is for the largest `x` whose remainder is
`d - 1` (`mul_div_eq_div`).
-/

namespace Brass.Util.Magic

variable {d m P δ xmax : Nat}

theorem mul_div_eq_of_lt {x : Nat} (hd : 0 < d) (hm : m * d = P + δ)
    (hx : x * δ < (d - x % d) * P) : x * m / P = x / d := by
  have hr : x % d < d := Nat.mod_lt x hd
  have hdiv := Nat.div_add_mod x d
  -- Both bounds are multiplied by `d`.
  have hlow : d * (x / d * P) ≤ d * (x * m) := by
    calc d * (x / d * P) = d * (x / d) * P := by ring
      _ ≤ x * P := Nat.mul_le_mul_right P (by omega)
      _ ≤ x * (m * d) := Nat.mul_le_mul_left x (by omega)
      _ = d * (x * m) := by ring
  have hhigh : d * (x * m) < d * ((x / d + 1) * P) := by
    have hsplit : (d - x % d) + x = d * (x / d) + d := by omega
    calc d * (x * m) = x * (m * d) := by ring
      _ = x * P + x * δ := by rw [hm]; ring
      _ < x * P + (d - x % d) * P := by omega
      _ = (d - x % d + x) * P := by ring
      _ = d * ((x / d + 1) * P) := by rw [hsplit]; ring
  have h₁ : x / d * P ≤ x * m := Nat.le_of_mul_le_mul_left hlow hd
  have h₂ : x * m < (x / d + 1) * P := Nat.lt_of_mul_lt_mul_left hhigh
  exact Nat.div_eq_of_lt_le h₁ h₂

/-- The last `x ≤ xmax` with remainder `d - 1` is the hardest. -/
theorem mul_div_eq_div {x : Nat} (hd : 0 < d) (hm : m * d = P + δ)
    (hdx : d ≤ xmax + 1) (hnc : (xmax - (xmax + 1) % d) * δ < P) (hx : x ≤ xmax) :
    x * m / P = x / d := by
  apply mul_div_eq_of_lt hd hm
  have hr : x % d < d := Nat.mod_lt x hd
  have hR : (xmax + 1) % d < d := Nat.mod_lt _ hd
  by_cases hle : x ≤ xmax - (xmax + 1) % d
  · calc x * δ ≤ (xmax - (xmax + 1) % d) * δ := Nat.mul_le_mul_right δ hle
      _ < P := hnc
      _ ≤ (d - x % d) * P := Nat.le_mul_of_pos_left P (by omega)
  · -- Beyond it the remainder of `x` is the distance, less one, and is below `d - 1`.
    have hxr : x = xmax - (xmax + 1) % d + 1 + (x - (xmax - (xmax + 1) % d + 1)) := by omega
    have hmul : d * ((xmax + 1) / d) = xmax - (xmax + 1) % d + 1 := by
      have h₁ := Nat.div_add_mod (xmax + 1) d
      omega
    have hsmall : x - (xmax - (xmax + 1) % d + 1) < d := by omega
    have hxmod : x % d = x - (xmax - (xmax + 1) % d + 1) := by
      conv_lhs => rw [hxr, ← hmul]
      rw [Nat.mul_add_mod, hmul, Nat.mod_eq_of_lt hsmall]
    have hlt : x % d + 1 < d := by omega
    have hnc' : d - 1 ≤ xmax - (xmax + 1) % d := by
      have h₂ : d ≤ d * ((xmax + 1) / d) :=
        Nat.le_mul_of_pos_right d (Nat.div_pos hdx hd)
      omega
    have hδ : (x % d + 1) * δ < P :=
      Nat.lt_of_le_of_lt (Nat.mul_le_mul_right δ (by omega)) hnc
    have hsum : x * δ = (xmax - (xmax + 1) % d) * δ + (x % d + 1) * δ := by
      rw [← Nat.add_mul]
      congr 1
      omega
    calc x * δ < P + P := by omega
      _ = 2 * P := by ring
      _ ≤ (d - x % d) * P := Nat.mul_le_mul_right P (by omega)

theorem half_add {x h : Nat} (hle : h ≤ x) : (x - h) / 2 + h = (x + h) / 2 := by omega

theorem add_div {x m' B s : Nat} (hB : 0 < B) (hs : 0 < s) :
    (x + x * m' / B) / 2 / 2 ^ (s - 1) = x * (B + m') / (B * 2 ^ s) := by
  have hsum : x * (B + m') / B = x + x * m' / B := by
    rw [Nat.mul_add, Nat.mul_comm x B, Nat.mul_add_div hB]
  rw [← hsum, Nat.div_div_eq_div_mul, Nat.div_div_eq_div_mul]
  congr 1
  obtain ⟨k, rfl⟩ : ∃ k, s = k + 1 := ⟨s - 1, by omega⟩
  rw [Nat.add_sub_cancel, pow_succ]
  ring

/-- When the shift is not above the logarithm of `d`, the multiplier is below `2 * B`. -/
theorem multiplier_lt {B s : Nat} (hd : 1 < d) (hs : s ≤ Nat.clog 2 d)
    (hclog : 2 ^ Nat.clog 2 d ≤ 2 * B) (hm : m * d = B * 2 ^ s + δ) (hδ : δ < d) : m < 2 * B := by
  have hlow : 2 ^ (Nat.clog 2 d - 1) < d := Nat.pow_pred_clog_lt_self (by norm_num) hd
  have hpos : 0 < Nat.clog 2 d := Nat.clog_pos (by norm_num) hd
  have hpow : 2 ^ Nat.clog 2 d = 2 * 2 ^ (Nat.clog 2 d - 1) := by
    rw [← pow_succ']
    congr 1
    omega
  have hs' : 2 ^ s ≤ 2 * 2 ^ (Nat.clog 2 d - 1) := by
    rw [← hpow]
    exact Nat.pow_le_pow_right (by norm_num) hs
  by_contra hge
  have h₁ : 2 * B * d ≤ m * d := Nat.mul_le_mul_right d (by omega)
  have h₂ : B * 2 ^ s ≤ B * (2 * 2 ^ (Nat.clog 2 d - 1)) := Nat.mul_le_mul_left B hs'
  have h₃ : B * (2 * 2 ^ (Nat.clog 2 d - 1)) + 2 * B ≤ 2 * B * d := by nlinarith
  -- `2 * B * d` lies between `B * 2 ^ s + 2 * B` and `B * 2 ^ s + δ`.
  have h₄ : d ≤ 2 ^ Nat.clog 2 d := Nat.le_pow_clog (by norm_num) d
  omega

end Brass.Util.Magic
