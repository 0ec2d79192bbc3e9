import Brass.Util.MagicDivision
import Brass.Verify.BvMake
import Brass.Verify.BvWord

/-!
# Magic constants

What `compute_magic_const_u32` finds: a multiplier and shifts that divide every 32-bit value
by the constant. The search only tries shifts below 32, and for some odd divisors above
`2 ^ 31` it finds nothing; the constants are right when it does (`magicFound`).
-/

namespace Brass.Verify.Bv

open Brass.Util

variable {d s : Nat}

theorem magicDelta_lt (hd : 0 < d) : magicDelta d s < d := by
  unfold magicDelta
  split <;> omega

theorem magicMultiplier_mul (hd : 0 < d) :
    magicMultiplier d s * d = 2 ^ (32 + s) + magicDelta d s := by
  have hmod := Nat.mod_lt (2 ^ (32 + s)) hd
  have hdiv := Nat.div_add_mod (2 ^ (32 + s)) d
  refine Nat.div_mul_cancel (Nat.dvd_of_mod_eq_zero ?_)
  unfold magicDelta
  split
  · rename_i h
    exact h
  · have hsum : 2 ^ (32 + s) + (d - 2 ^ (32 + s) % d) = d * (2 ^ (32 + s) / d + 1) := by
      rw [Nat.mul_add]
      omega
    rw [hsum, Nat.mul_mod_right]

theorem magicShift_spec {xmax : Nat} (h : magicShift d xmax = some s) :
    s < 32 ∧ (xmax - (xmax + 1) % d) * magicDelta d s < 2 ^ (32 + s) ∧
      ∀ j < s, ¬(xmax - (xmax + 1) % d) * magicDelta d j < 2 ^ (32 + j) := by
  unfold magicShift at h
  obtain ⟨hp, hmem, hfirst⟩ := List.find?_range_eq_some.mp h
  refine ⟨List.mem_range.mp hmem, of_decide_eq_true hp, fun j hj => ?_⟩
  have := hfirst j hj
  simpa using this

theorem magic_exact {xmax x : Nat} (hd : 0 < d) (hdx : d ≤ xmax + 1)
    (h : magicShift d xmax = some s) (hx : x ≤ xmax) :
    x * magicMultiplier d s / 2 ^ 32 / 2 ^ s = x / d := by
  obtain ⟨-, hcond, -⟩ := magicShift_spec h
  rw [Nat.div_div_eq_div_mul, ← Nat.pow_add]
  exact Magic.mul_div_eq_div hd (magicMultiplier_mul hd) hdx hcond hx

theorem magic_cond_clog (hd : 0 < d) :
    (2 ^ 32 - 1 - (2 ^ 32 - 1 + 1) % d) * magicDelta d (Nat.clog 2 d) < 2 ^ (32 + Nat.clog 2 d) := by
  have hδ := magicDelta_lt (s := Nat.clog 2 d) hd
  have hle : d ≤ 2 ^ Nat.clog 2 d := Nat.le_pow_clog (by norm_num) d
  calc (2 ^ 32 - 1 - (2 ^ 32 - 1 + 1) % d) * magicDelta d (Nat.clog 2 d)
      ≤ (2 ^ 32 - 1) * magicDelta d (Nat.clog 2 d) := Nat.mul_le_mul_right _ (by omega)
    _ ≤ (2 ^ 32 - 1) * 2 ^ Nat.clog 2 d := Nat.mul_le_mul_left _ (by omega)
    _ < 2 ^ 32 * 2 ^ Nat.clog 2 d :=
        Nat.mul_lt_mul_of_pos_right (by norm_num) (Nat.two_pow_pos _)
    _ = 2 ^ (32 + Nat.clog 2 d) := (Nat.pow_add 2 32 _).symm

theorem magicShift_le_clog (hd : 0 < d) (h : magicShift d (2 ^ 32 - 1) = some s) :
    s ≤ Nat.clog 2 d := by
  obtain ⟨-, -, hfirst⟩ := magicShift_spec h
  by_contra hgt
  exact hfirst (Nat.clog 2 d) (by omega) (magic_cond_clog hd)

theorem magicMultiplier_lt (hd : 1 < d) (hd' : d < 2 ^ 32)
    (h : magicShift d (2 ^ 32 - 1) = some s) : magicMultiplier d s < 2 ^ 33 := by
  have hclog : Nat.clog 2 d ≤ 32 := Nat.clog_le_of_le_pow (by omega)
  have hpow : 2 ^ Nat.clog 2 d ≤ 2 ^ 32 := Nat.pow_le_pow_right (by norm_num) hclog
  have hmul := magicMultiplier_mul (s := s) (show 0 < d by omega)
  rw [Nat.pow_add] at hmul
  exact Magic.multiplier_lt (B := 2 ^ 32) hd (magicShift_le_clog (by omega) h) (by omega) hmul
    (magicDelta_lt (by omega))

theorem pow_countrZero_dvd {x : U64} : 2 ^ countrZero x ∣ x.toNat := by
  refine Nat.dvd_of_mod_eq_zero (Nat.eq_of_testBit_eq fun i => ?_)
  rw [Nat.testBit_mod_two_pow, Nat.zero_testBit]
  by_cases hi : i < countrZero x
  · obtain ⟨hzero, -⟩ := findIdx_range_spec (fun i => x.getLsbD i) 64
    have := hzero i hi
    rw [BitVec.getLsbD] at this
    rw [this, Bool.and_false]
  · rw [decide_eq_false hi, Bool.false_and]

/-! ## The constants -/

/-- The search finds a shift for the divisor or, with a multiplier that fits, for its odd part. -/
def magicFound (d : Nat) : Bool :=
  (magicShift d (2 ^ 32 - 1)).isSome ||
    (decide (countrZero (BitVec.ofNat 64 d) > 0) && magicFits d (countrZero (BitVec.ofNat 64 d)))

theorem magicFound_of_le (hd : 0 < d) (hd' : d ≤ 2 ^ 31) : magicFound d = true := by
  have hclog : Nat.clog 2 d < 32 := Nat.lt_succ_of_le (Nat.clog_le_of_le_pow hd')
  have hsome : (magicShift d (2 ^ 32 - 1)).isSome = true := by
    unfold magicShift
    rw [List.find?_isSome]
    exact ⟨Nat.clog 2 d, List.mem_range.mpr hclog, decide_eq_true (magic_cond_clog hd)⟩
  unfold magicFound
  rw [hsome, Bool.true_or]

/-- The constants divide every 32-bit value by `d`. -/
structure MagicConstU32.Divides (mag : MagicConstU32) (d : Nat) : Prop where
  preLt : mag.preShift < 32
  postLt : mag.postShift < 32
  multiplierLt : mag.multiplier < 2 ^ 32
  direct : mag.needsAdd = false → ∀ x < 2 ^ 32,
    x / 2 ^ mag.preShift * mag.multiplier / 2 ^ 32 / 2 ^ mag.postShift = x / d
  added : mag.needsAdd = true → mag.preShift = 0 ∧ 0 < mag.postShift ∧ ∀ x < 2 ^ 32,
    (x + x * mag.multiplier / 2 ^ 32) / 2 / 2 ^ (mag.postShift - 1) = x / d

theorem magicFits_spec {preSh : Nat} (h : magicFits d preSh = true) :
    ∃ s, magicShift (d / 2 ^ preSh) ((2 ^ 32 - 1) / 2 ^ preSh) = some s ∧
      magicSearch d preSh = (magicMultiplier (d / 2 ^ preSh) s, s) ∧
      magicMultiplier (d / 2 ^ preSh) s < 2 ^ 32 := by
  unfold magicFits at h
  unfold magicSearch
  split at h
  · cases h
  · rename_i s hs
    have := of_decide_eq_true h
    rw [hs]
    exact ⟨s, rfl, rfl, by omega⟩

theorem divides_of_magicFits {preSh : Nat} (hd : 0 < d) (hd' : d < 2 ^ 32) (hpre : preSh < 32)
    (hdvd : 2 ^ preSh ∣ d) (h : magicFits d preSh = true) :
    MagicConstU32.Divides ⟨(magicSearch d preSh).1, preSh, (magicSearch d preSh).2, false⟩ d := by
  obtain ⟨s, hs, hsearch, hfits⟩ := magicFits_spec h
  obtain ⟨hs32, -, -⟩ := magicShift_spec hs
  obtain ⟨e, rfl⟩ := hdvd
  have hpos : 0 < 2 ^ preSh := Nat.two_pow_pos preSh
  have he : 0 < e := Nat.pos_of_mul_pos_left hd
  rw [Nat.mul_div_cancel_left _ hpos] at hs hfits hsearch
  rw [hsearch]
  refine ⟨hpre, hs32, hfits, fun _ x hx => ?_, nofun⟩
  have hle : e ≤ (2 ^ 32 - 1) / 2 ^ preSh := by
    rw [Nat.le_div_iff_mul_le hpos, Nat.mul_comm]
    omega
  have hx' : x / 2 ^ preSh ≤ (2 ^ 32 - 1) / 2 ^ preSh := Nat.div_le_div_right (by omega)
  show x / 2 ^ preSh * magicMultiplier e s / 2 ^ 32 / 2 ^ s = x / (2 ^ preSh * e)
  rw [magic_exact he (by omega) hs hx', Nat.div_div_eq_div_mul]

/-- A multiplier of 33 bits. -/
theorem divides_of_not_magicFits (hd : 1 < d) (hd' : d < 2 ^ 32)
    (hs : magicShift d (2 ^ 32 - 1) = some s) (hfits : magicFits d 0 = false) :
    MagicConstU32.Divides ⟨((magicSearch d 0).1 + (2 ^ 64 - 2 ^ 32)) % 2 ^ 64 % 2 ^ 32, 0,
      (magicSearch d 0).2, true⟩ d := by
  have hs' : magicShift (d / 2 ^ 0) ((2 ^ 32 - 1) / 2 ^ 0) = some s := by simpa using hs
  have hsearch : magicSearch d 0 = (magicMultiplier d s, s) := by
    unfold magicSearch
    rw [hs']
    simp
  have hge : 2 ^ 32 ≤ magicMultiplier d s := by
    unfold magicFits at hfits
    rw [hs'] at hfits
    simp at hfits
    omega
  obtain ⟨hs32, -, -⟩ := magicShift_spec hs
  have hlt := magicMultiplier_lt hd hd' hs
  have hmul := magicMultiplier_mul (s := s) (show 0 < d by omega)
  have hδ := magicDelta_lt (s := s) (show 0 < d by omega)
  -- With shift 0 a multiplier of 33 bits would be too large.
  have hpos : 0 < s := by
    by_contra hzero
    obtain rfl : s = 0 := by omega
    have : 2 ^ 32 * d ≤ magicMultiplier d 0 * d := Nat.mul_le_mul_right d hge
    omega
  have hval : (magicMultiplier d s + (2 ^ 64 - 2 ^ 32)) % 2 ^ 64 % 2 ^ 32 =
      magicMultiplier d s - 2 ^ 32 := by omega
  rw [hsearch]
  refine ⟨by norm_num, hs32, Nat.mod_lt _ (by norm_num), nofun, fun _ => ⟨rfl, hpos, fun x hx => ?_⟩⟩
  dsimp only
  rw [hval, Magic.add_div (by norm_num) hpos, ← Nat.pow_add,
    show 2 ^ 32 + (magicMultiplier d s - 2 ^ 32) = magicMultiplier d s by omega, Nat.pow_add,
    ← Nat.div_div_eq_div_mul]
  exact magic_exact (by omega) (by omega) hs (by omega)

theorem computeMagicConstU32_divides (hd : 1 < d) (hd' : d < 2 ^ 32) (hfound : magicFound d = true) :
    (computeMagicConstU32 d).Divides d := by
  have htoNat : (BitVec.ofNat 64 d).toNat = d := by
    rw [BitVec.toNat_ofNat, Nat.mod_eq_of_lt (by omega)]
  have hdvd : 2 ^ countrZero (BitVec.ofNat 64 d) ∣ d := by
    have := pow_countrZero_dvd (x := BitVec.ofNat 64 d)
    rwa [htoNat] at this
  have htz : countrZero (BitVec.ofNat 64 d) < 32 := by
    have hle := Nat.le_of_dvd (by omega) hdvd
    exact (Nat.pow_lt_pow_iff_right (by norm_num)).mp (Nat.lt_of_le_of_lt hle hd')
  unfold computeMagicConstU32
  rw [if_neg (by omega)]
  dsimp only
  split
  · rename_i hfits
    exact divides_of_magicFits (by omega) hd' (by norm_num) (by simp) hfits
  · rename_i hfits
    split
    · rename_i hfits'
      exact divides_of_magicFits (by omega) hd' htz hdvd hfits'.2
    · rename_i hno
      have hsome : (magicShift d (2 ^ 32 - 1)).isSome = true := by
        unfold magicFound at hfound
        rw [Bool.or_eq_true, Bool.and_eq_true, decide_eq_true_iff] at hfound
        exact hfound.resolve_right hno
      obtain ⟨s, hs⟩ := Option.isSome_iff_exists.mp hsome
      exact divides_of_not_magicFits hd hd' hs (by simpa using hfits)

end Brass.Verify.Bv
