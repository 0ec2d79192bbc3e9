import Mathlib.Tactic.Ring
import Mathlib.Tactic.Linarith

/-!
# Division by a power of two with shifts

On words of `w` bits. A signed number is made to round towards zero by a bias: `2 ^ k - 1` for a
negative number and 0 else, which two shifts take from the sign (`bias`).
-/

namespace Brass.Util.ShiftDivision

open BitVec

variable {w k : Nat} {x : BitVec w}

def bias (x : BitVec w) (k : Nat) : BitVec w := (x.sshiftRight (w - 1)) >>> (w - k)

theorem toNat_sshiftRight_sign (hw : 0 < w) :
    (x.sshiftRight (w - 1)).toNat = if x.msb then 2 ^ w - 1 else 0 := by
  have hlt := x.isLt
  have hpow : 2 ^ w = 2 * 2 ^ (w - 1) := by
    rw [← pow_succ']
    congr 1
    omega
  rw [toNat_sshiftRight, Nat.shiftRight_eq_div_pow, Nat.shiftRight_eq_div_pow]
  split
  · rename_i hmsb
    have hge := toNat_ge_of_msb_true hmsb
    rw [Nat.div_eq_of_lt (by omega), Nat.sub_zero]
  · rename_i hmsb
    exact Nat.div_eq_of_lt (toNat_lt_of_msb_false (by simpa using hmsb))

theorem toNat_bias (hk : k < w) : (bias x k).toNat = if x.msb then 2 ^ k - 1 else 0 := by
  have hw : 0 < w := by omega
  have hpow : 2 ^ w = 2 ^ k * 2 ^ (w - k) := by
    rw [← pow_add]
    congr 1
    omega
  rw [bias, toNat_ushiftRight, toNat_sshiftRight_sign hw, Nat.shiftRight_eq_div_pow]
  split
  · have hpos := Nat.two_pow_pos (w - k)
    have hpos' := Nat.two_pow_pos k
    apply Nat.div_eq_of_lt_le
    · rw [hpow, Nat.sub_mul]
      omega
    · rw [Nat.add_mul, hpow, Nat.sub_mul]
      have : 2 ^ (w - k) ≤ 2 ^ k * 2 ^ (w - k) := Nat.le_mul_of_pos_left _ hpos'
      omega
  · exact Nat.zero_div _

theorem bias_one (hw : 1 < w) : x >>> (w - 1) = bias x 1 := by
  apply eq_of_toNat_eq
  have hpow : 2 ^ w = 2 * 2 ^ (w - 1) := by
    rw [← pow_succ']
    congr 1
    omega
  have hlt := x.isLt
  rw [toNat_bias hw, toNat_ushiftRight, Nat.shiftRight_eq_div_pow]
  split
  · rename_i hmsb
    have hge := toNat_ge_of_msb_true hmsb
    exact Nat.div_eq_of_lt_le (by omega) (by omega)
  · rename_i hmsb
    exact Nat.div_eq_of_lt (toNat_lt_of_msb_false (by simpa using hmsb))

theorem toInt_bias (hk : k + 1 < w) : (bias x k).toInt = if x.toInt < 0 then 2 ^ k - 1 else 0 := by
  have hlt : 2 ^ (k + 1) < 2 ^ w := Nat.pow_lt_pow_right (by omega) hk
  have hpos := Nat.two_pow_pos k
  have hmsb : x.msb = true ↔ x.toInt < 0 := by
    rw [toInt_neg_iff, msb_eq_true_iff_two_mul_ge]
  rw [toInt_eq_toNat_of_lt, toNat_bias (by omega)]
  · simp only [hmsb]
    split
    · push_cast [Nat.one_le_two_pow]
      rfl
    · rfl
  · rw [toNat_bias (by omega), pow_succ] at *
    split <;> omega

theorem biased_ediv (n : Int) (k : Nat) :
    (n + if n < 0 then 2 ^ k - 1 else 0) / 2 ^ k = n.tdiv (2 ^ k) := by
  have hpos : (0 : Int) < 2 ^ k := by positivity
  generalize (2 : Int) ^ k = d at hpos
  rw [Int.tdiv_eq_ediv, Int.sign_eq_one_of_pos hpos]
  split
  · rename_i hneg
    have hlow := Int.emod_nonneg n hpos.ne'
    have hhigh := Int.emod_lt_of_pos n hpos
    have hsum : n + (d - 1) = n % d + d - 1 + d * (n / d) := by
      have := Int.emod_add_mul_ediv n d
      omega
    rw [hsum, Int.add_mul_ediv_left _ _ hpos.ne', Int.add_comm]
    congr 1
    by_cases hdvd : d ∣ n
    · rw [if_pos (Or.inr hdvd), Int.emod_eq_zero_of_dvd hdvd]
      exact Int.ediv_eq_zero_of_lt (by omega) (by omega)
    · have hne : n % d ≠ 0 := fun h => hdvd (Int.dvd_of_emod_eq_zero h)
      rw [if_neg (by omega), show n % d + d - 1 = n % d - 1 + d * 1 by ring,
        Int.add_mul_ediv_left _ _ hpos.ne', Int.ediv_eq_zero_of_lt (by omega) (by omega)]
      rfl
  · rename_i hnn
    rw [if_pos (Or.inl (by omega)), Int.add_zero, Int.add_zero]

theorem toInt_twoPow (hk : k + 1 < w) : (BitVec.twoPow w k).toInt = 2 ^ k := by
  rw [BitVec.toInt_twoPow, if_neg (by omega), if_neg (by omega)]

theorem toNat_lowMask (hk : k < w) : (twoPow w k - 1).toNat = 2 ^ k - 1 := by
  have hlt : 2 ^ k < 2 ^ w := Nat.pow_lt_pow_right (by omega) hk
  have hpos := Nat.two_pow_pos k
  have hone : (1#w).toNat = 1 := by
    rw [toNat_ofNat]
    exact Nat.mod_eq_of_lt (by omega)
  rw [toNat_sub, toNat_twoPow, Nat.mod_eq_of_lt hlt]
  show (2 ^ w - (1#w).toNat + 2 ^ k) % 2 ^ w = 2 ^ k - 1
  rw [hone, show 2 ^ w - 1 + 2 ^ k = 2 ^ k - 1 + 2 ^ w by omega, Nat.add_mod_right,
    Nat.mod_eq_of_lt (by omega)]

theorem twoPow_ne_neg_one (hk : k + 1 < w) : twoPow w k ≠ -1#w := by
  intro h
  have hD := toInt_twoPow (w := w) hk
  have hpos : (0 : Int) < 2 ^ k := by positivity
  rw [h, neg_one_eq_allOnes, toInt_allOnes, if_pos (by omega)] at hD
  omega

theorem sdiv_twoPow (hk : k + 1 < w) : (x + bias x k).sshiftRight k = x.sdiv (twoPow w k) := by
  apply eq_of_toInt_eq
  have hD := toInt_twoPow (w := w) hk
  have hpos : (0 : Int) < 2 ^ k := by positivity
  have hle : (2 : Int) ^ k * 2 ≤ 2 ^ (w - 1) := by
    rw [← pow_succ]
    exact pow_le_pow_right₀ (by norm_num) (by omega)
  have hlow := le_toInt x
  have hhigh := toInt_lt (x := x)
  have hw : ((2 ^ w : Nat) : Int) = 2 * 2 ^ (w - 1) := by
    push_cast
    rw [← pow_succ']
    congr 1
    omega
  have hsum : (x + bias x k).toInt = x.toInt + if x.toInt < 0 then 2 ^ k - 1 else 0 := by
    rw [toInt_add, toInt_bias hk, Int.bmod_eq_of_le_mul_two]
    · rw [hw]
      split <;> omega
    · rw [hw]
      split <;> omega
  have hone : twoPow w k ≠ -1#w := twoPow_ne_neg_one hk
  rw [toInt_sshiftRight, hsum, toInt_sdiv_of_ne_or_ne _ _ (Or.inr hone), hD,
    Int.shiftRight_eq_div_pow]
  push_cast
  exact biased_ediv x.toInt k

/-- The multiple of `2 ^ k` below a number, by clearing the low bits. -/
theorem and_not_lowMask (hk : k < w) (y : BitVec w) :
    y &&& ~~~(twoPow w k - 1) = (y.sshiftRight k) * twoPow w k := by
  rw [mul_twoPow_eq_shiftLeft]
  apply eq_of_getLsbD_eq
  intro i hi
  have hmask : (twoPow w k - 1).getLsbD i = decide (i < k) := by
    rw [getLsbD, toNat_lowMask hk, Nat.testBit_two_pow_sub_one]
  rw [getLsbD_and, getLsbD_not, hmask, getLsbD_shiftLeft, getLsbD_sshiftRight]
  by_cases hlow : i < k
  · simp [hlow]
  · simp [hlow, hi, show k + (i - k) = i by omega, show ¬ w ≤ i - k by omega]

theorem sub_sdiv_mul {d : BitVec w} (hone : d ≠ -1#w) : x - x.sdiv d * d = x.srem d := by
  -- Both sides are the word of one number.
  have hquot : x.sdiv d = BitVec.ofInt w (x.toInt.tdiv d.toInt) := by
    rw [← BitVec.toInt_sdiv_of_ne_or_ne _ _ (Or.inr hone), BitVec.ofInt_toInt]
  have hrem : x.srem d = BitVec.ofInt w (x.toInt.tmod d.toInt) := by
    rw [← BitVec.toInt_srem, BitVec.ofInt_toInt]
  have hnum : x = BitVec.ofInt w (x.toInt.tmod d.toInt + x.toInt.tdiv d.toInt * d.toInt) := by
    rw [Int.mul_comm, Int.tmod_add_mul_tdiv, BitVec.ofInt_toInt]
  rw [hrem, BitVec.sub_eq_iff_eq_add, hquot]
  conv_lhs => rw [hnum]
  rw [BitVec.ofInt_add, BitVec.ofInt_mul, BitVec.ofInt_toInt]

theorem srem_twoPow (hk : k + 1 < w) :
    x - ((x + bias x k) &&& ~~~(twoPow w k - 1)) = x.srem (twoPow w k) := by
  rw [and_not_lowMask (by omega), sdiv_twoPow hk, sub_sdiv_mul (twoPow_ne_neg_one hk)]

theorem udiv_twoPow (hk : k < w) : x >>> k = x / twoPow w k := by
  apply eq_of_toNat_eq
  have hlt : 2 ^ k < 2 ^ w := Nat.pow_lt_pow_right (by omega) hk
  rw [toNat_ushiftRight, toNat_udiv, toNat_twoPow, Nat.mod_eq_of_lt hlt, Nat.shiftRight_eq_div_pow]

theorem umod_twoPow (hk : k < w) : x &&& (twoPow w k - 1) = x % twoPow w k := by
  apply eq_of_toNat_eq
  have hlt : 2 ^ k < 2 ^ w := Nat.pow_lt_pow_right (by omega) hk
  rw [toNat_and, toNat_lowMask hk, Nat.and_two_pow_sub_one_eq_mod, toNat_umod,
    toNat_twoPow, Nat.mod_eq_of_lt hlt]

end Brass.Util.ShiftDivision
