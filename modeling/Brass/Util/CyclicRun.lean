import Mathlib.Data.Nat.Bits
import Mathlib.Tactic.Ring

/-!
# Cyclic runs of ones

`run e c r` is the bit pattern whose elements of `e` bits are `c` ones rotated right by `r`. A
run that is neither empty nor full has one rising edge in every element, so half an element is
never a period of it (`run_half_ne`).
-/

namespace Brass.Util.CyclicRun

variable {e c r i : Nat}

def run (e c r i : Nat) : Bool := decide ((i + r) % e < c)

theorem run_mod (e c r i : Nat) : run e c r (i % e) = run e c r i := by
  simp only [run, Nat.mod_add_mod]

theorem run_add_mul (e c r i k : Nat) : run e c r (i + e * k) = run e c r i := by
  simp only [run]
  rw [show i + e * k + r = i + r + e * k by omega, Nat.add_mul_mod_self_left]

theorem run_half_ne {h : Nat} (hc : 0 < c) (hlt : c < 2 * h) :
    ∃ i < h, run (2 * h) c r (i + h) ≠ run (2 * h) c r i := by
  by_contra hall
  push Not at hall
  have hper : ∀ i, run (2 * h) c r (i + h) = run (2 * h) c r i := by
    intro i
    have hm : i % (2 * h) < 2 * h := Nat.mod_lt i (by omega)
    have hleft : run (2 * h) c r (i + h) = run (2 * h) c r (i % (2 * h) + h) := by
      simp only [run, Nat.add_assoc, Nat.mod_add_mod]
    rw [hleft, ← run_mod (2 * h) c r i]
    by_cases hlow : i % (2 * h) < h
    · exact hall _ hlow
    · have hprev := hall (i % (2 * h) - h) (by omega)
      rw [show i % (2 * h) - h + h = i % (2 * h) by omega] at hprev
      rw [hprev, show i % (2 * h) + h = i % (2 * h) - h + 2 * h * 1 by omega, run_add_mul]
  have hr : r % (2 * h) < 2 * h := Nat.mod_lt r (by omega)
  -- The place `k` of an element, for `k` below a half, and the place half an element further.
  have hat : ∀ k < h, run (2 * h) c r (2 * h - r % (2 * h) + k) = decide (k < c) ∧
      run (2 * h) c r (2 * h - r % (2 * h) + k + h) = decide (k + h < c) := by
    intro k hk
    have hsplit := Nat.mod_add_div r (2 * h)
    constructor
    · rw [run, show 2 * h - r % (2 * h) + k + r = k + 2 * h * (r / (2 * h) + 1) by
        rw [Nat.mul_add]; omega, Nat.add_mul_mod_self_left, Nat.mod_eq_of_lt (by omega)]
    · rw [run, show 2 * h - r % (2 * h) + k + h + r = k + h + 2 * h * (r / (2 * h) + 1) by
        rw [Nat.mul_add]; omega, Nat.add_mul_mod_self_left, Nat.mod_eq_of_lt (by omega)]
  have hfirst := hper (2 * h - r % (2 * h) + 0)
  rw [(hat 0 (by omega)).1, (hat 0 (by omega)).2, decide_eq_decide] at hfirst
  have hlast := hper (2 * h - r % (2 * h) + (h - 1))
  rw [(hat (h - 1) (by omega)).1, (hat (h - 1) (by omega)).2, decide_eq_decide] at hlast
  omega

/-! ## Words -/

/-- `c` ones in a word of `e` bits, rotated right by `r`. -/
def element (e c r : Nat) : BitVec e := (BitVec.ofNat e (2 ^ c - 1)).rotateRight r

theorem getLsbD_ones (hi : i < e) : (BitVec.ofNat e (2 ^ c - 1)).getLsbD i = decide (i < c) := by
  rw [BitVec.getLsbD_ofNat, Nat.testBit_two_pow_sub_one]
  simp [hi]

theorem getLsbD_element (hr : r < e) (hi : i < e) : (element e c r).getLsbD i = run e c r i := by
  rw [element, BitVec.getLsbD_rotateRight_of_lt hr, run]
  by_cases hlow : i < e - r
  · rw [decide_eq_true hlow, cond_true, getLsbD_ones (by omega), Nat.add_comm r i,
      Nat.mod_eq_of_lt (by omega)]
  · rw [decide_eq_false hlow, cond_false, getLsbD_ones (by omega),
      Nat.mod_eq_sub_mod (by omega), Nat.mod_eq_of_lt (by omega)]
    simp only [hi, decide_true, Bool.true_and]
    congr 2
    omega

theorem getLsbD_replicate_element {n : Nat} (hr : r < e) (hi : i < e * n) :
    ((element e c r).replicate n).getLsbD i = run e c r i := by
  have he : 0 < e := by omega
  rw [BitVec.getLsbD_replicate, decide_eq_true hi, Bool.true_and,
    getLsbD_element hr (Nat.mod_lt i he), run_mod]

theorem and_succ_eq_zero_iff {x : Nat} : x &&& (x + 1) = 0 ↔ ∃ k, x = 2 ^ k - 1 := by
  have hpow := Nat.and_sub_one_eq_zero_iff_isPowerOfTwo (n := x + 1) (by omega)
  rw [Nat.add_sub_cancel, Nat.and_comm] at hpow
  rw [hpow]
  constructor
  · rintro ⟨k, hk⟩
    exact ⟨k, by omega⟩
  · rintro ⟨k, rfl⟩
    have := Nat.two_pow_pos k
    exact ⟨k, by omega⟩

end Brass.Util.CyclicRun
