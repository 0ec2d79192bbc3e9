import Brass.Verify.BvOps
import Brass.Verify.BvContext

/-!
# Intervals are sound

`Holds iv w x`: the value `x` of width `w` lies between the bounds of `iv` and has its known
bits. Each rule of `computeInterval` keeps it, from the operands to the result.
-/

namespace Brass.Verify.Bv

open BitVec

variable {z : Int} {a b : U64} {sh : Nat}

/-- The last three fields do not mention `x`: the bounds themselves are values of width `w`. -/
structure BVInterval.Holds (iv : BVInterval) (w : Nat) (x : U64) : Prop where
  umin : iv.umin ≤ x
  umax : x ≤ iv.umax
  smin : iv.smin ≤ (cut w x).toInt
  smax : (cut w x).toInt ≤ iv.smax
  zeros : ∀ i, iv.knownZeros.getLsbD i = true → x.getLsbD i = false
  ones : ∀ i, iv.knownOnes.getLsbD i = true → x.getLsbD i = true
  umaxFits : Fits w iv.umax
  sminFits : -(2 ^ (w - 1)) ≤ iv.smin
  smaxFits : iv.smax < 2 ^ (w - 1)

variable {w aw : Nat} {x y va vb : U64} {iv ia ib : BVInterval}

/-! ## Known bits -/

theorem and_eq_zero_iff : x &&& y = 0#64 ↔ ∀ i, y.getLsbD i = true → x.getLsbD i = false := by
  constructor
  · intro h i hy
    have := congrArg (fun z => getLsbD z i) h
    simpa [hy] using this
  · intro h
    refine eq_of_getLsbD_eq (fun i _ => ?_)
    have := h i
    cases hy : y.getLsbD i <;> simp_all

theorem and_eq_right_iff : x &&& y = y ↔ ∀ i, y.getLsbD i = true → x.getLsbD i = true := by
  constructor
  · intro h i hy
    have := congrArg (fun z => getLsbD z i) h
    simpa [hy] using this
  · intro h
    refine eq_of_getLsbD_eq (fun i _ => ?_)
    have := h i
    cases hy : y.getLsbD i <;> simp_all

theorem le_of_and_eq (h : x &&& y = y) : y ≤ x := by
  rw [le_def, ← h, toNat_and]
  exact Nat.and_le_left

/-- A value is at most the word of all bits that it can have. -/
theorem le_of_bits (h : ∀ i, x.getLsbD i = true → y.getLsbD i = true) : x ≤ y := by
  apply le_of_and_eq
  rw [and_eq_right_iff]
  exact h

theorem Fits.getLsbD (hx : Fits w x) {i : Nat} (hi : w ≤ i) : x.getLsbD i = false := by
  rw [BitVec.getLsbD]
  exact Nat.testBit_lt_two_pow (Nat.lt_of_lt_of_le hx (Nat.pow_le_pow_right (by decide) hi))

theorem Fits.and_not_widthMask (h : w ≤ 64) (hx : Fits w x) : x &&& ~~~widthMask w = 0#64 := by
  rw [and_eq_zero_iff]
  intro i hi
  rw [getLsbD_not, getLsbD_widthMask h] at hi
  refine hx.getLsbD ?_
  simp at hi
  omega

/-! ## Bounds -/

theorem toNat_umin (a b : U64) : (umin a b).toNat = min a.toNat b.toNat := by
  unfold umin
  split
  · rename_i h
    rw [lt_def] at h
    omega
  · rename_i h
    rw [lt_def] at h
    omega

theorem toNat_umax (a b : U64) : (umax a b).toNat = max a.toNat b.toNat := by
  unfold umax
  split
  · rename_i h
    rw [lt_def] at h
    omega
  · rename_i h
    rw [lt_def] at h
    omega

theorem toInt_of_lt (h : x.toNat < 2 ^ 63) : x.toInt = x.toNat := by
  rw [toInt_eq_toNat_cond, if_pos (by omega)]

theorem Fits.toInt_cut (hx : Fits w x) (hs : x.toNat < 2 ^ (w - 1)) (h0 : 0 < w) :
    (cut w x).toInt = x.toNat := by
  have hpow : 2 ^ w = 2 * 2 ^ (w - 1) := by
    rw [← Nat.pow_succ']
    congr 1
    omega
  rw [toInt_eq_toNat_cond, hx.toNat_cut, if_pos (by omega)]

theorem bitsMask_zeros (h : x ≤ y) : x &&& ~~~bitsMask y = 0#64 := by
  have hfits : Fits (if y = 0 then 0 else 64 - countlZero y) x := le_bits h
  exact hfits.and_not_widthMask (by split <;> omega)

theorem and_or_eq_zero {z : U64} (h₁ : x &&& y = 0#64) (h₂ : x &&& z = 0#64) :
    x &&& (y ||| z) = 0#64 := by
  rw [and_eq_zero_iff] at *
  intro i hi
  rw [getLsbD_or, Bool.or_eq_true] at hi
  rcases hi with hi | hi
  · exact h₁ i hi
  · exact h₂ i hi

theorem BVInterval.Holds.fits (h : iv.Holds w x) : Fits w x :=
  Nat.lt_of_le_of_lt h.umax h.umaxFits

theorem BVInterval.Holds.umin_le (h : iv.Holds w x) : iv.umin.toNat ≤ x.toNat := h.umin

theorem BVInterval.Holds.le_umax (h : iv.Holds w x) : x.toNat ≤ iv.umax.toNat := h.umax

/-! ## The rules -/

theorem zero_le_word (x : U64) : 0#64 ≤ x := by
  rw [le_def]
  exact Nat.zero_le _

theorem Fits.le_widthMask (h : w ≤ 64) (hx : Fits w x) : x ≤ widthMask w := by
  rw [le_def, toNat_widthMask h]
  have : x.toNat < 2 ^ w := hx
  omega

theorem fullInterval_holds (h : w ≤ 64) (hx : Fits w x) : (fullInterval w).Holds w x := by
  have hlo := le_toInt (cut w x)
  have hhi : (cut w x).toInt < 2 ^ (w - 1) := toInt_lt
  refine ⟨zero_le_word x, hx.le_widthMask h, ?_, ?_, and_eq_zero_iff.mp (hx.and_not_widthMask h),
    ?_, fits_widthMask h, ?_, ?_⟩
  · show minSigned w ≤ _
    rw [minSigned_eq h]
    exact hlo
  · show _ ≤ maxSigned w
    rw [maxSigned_eq h]
    omega
  · intro i hi
    simp [fullInterval] at hi
  · show -(2 ^ (w - 1)) ≤ minSigned w
    rw [minSigned_eq h]
  · show maxSigned w < _
    rw [maxSigned_eq h]
    omega

theorem constInterval_holds (h0 : 0 < w) (h : w ≤ 64) (imm : U64) :
    (constInterval w imm).Holds w (imm &&& widthMask w) := by
  have hlo := le_toInt (cut w (imm &&& widthMask w))
  have hhi : (cut w (imm &&& widthMask w)).toInt < 2 ^ (w - 1) := toInt_lt
  have hs : (constInterval w imm).smin = (cut w (imm &&& widthMask w)).toInt :=
    signExtendBits_eq h0 h _
  have hs' : (constInterval w imm).smax = (cut w (imm &&& widthMask w)).toInt :=
    signExtendBits_eq h0 h _
  refine ⟨BitVec.le_refl _, BitVec.le_refl _, hs.le, hs'.ge, ?_, fun i hi => hi,
    fits_and_widthMask h imm, hs ▸ hlo, hs' ▸ hhi⟩
  intro i hi
  simp only [constInterval, getLsbD_not, Bool.and_eq_true, Bool.not_eq_true'] at hi
  exact hi.2

theorem signBit_eq (h : w ≤ 64) : signBit w = 1#64 <<< (w - 1) := by
  unfold signBit
  split
  · have : w = 64 := by omega
    subst this
    rfl
  · rfl

theorem getLsbD_of_and_signBit (h : w ≤ 64) (hz : x &&& signBit w ≠ 0) :
    x.getLsbD (w - 1) = true := by
  rw [signBit_eq h] at hz
  by_contra hbit
  refine hz (and_eq_zero_iff.mpr fun i hi => ?_)
  have hi' : i = w - 1 := by
    rw [getLsbD_shiftLeft, getLsbD_one] at hi
    simp at hi
    omega
  subst hi'
  simpa using hbit

theorem Fits.lt_of_not_signBit (hx : Fits w x) (hs : x.getLsbD (w - 1) = false) :
    x.toNat < 2 ^ (w - 1) := by
  refine Nat.lt_pow_two_of_testBit _ (fun i hi => ?_)
  by_cases hiw : i = w - 1
  · subst hiw
    exact hs
  · exact hx.getLsbD (by omega)

/-- With the sign bit known to be zero the signed bounds are the unsigned ones. -/
theorem nonNegative_holds (h0 : 0 < w) (h : w ≤ 64) (hiv : iv.Holds w x)
    (hmax : iv.knownZeros.getLsbD (w - 1) = true → iv.umax.toNat < 2 ^ (w - 1)) :
    (nonNegative w iv).Holds w x := by
  unfold nonNegative
  split
  · rename_i hs
    have hbit := getLsbD_of_and_signBit h hs
    have hxlt : x.toNat < 2 ^ (w - 1) := hiv.fits.lt_of_not_signBit (hiv.zeros _ hbit)
    have hpow : 2 ^ (w - 1) ≤ 2 ^ 63 := Nat.pow_le_pow_right (by decide) (by omega)
    have h₁ := hiv.umin_le
    have h₂ := hiv.le_umax
    have h₃ := hmax hbit
    have hmin : iv.umin.toInt = iv.umin.toNat := toInt_of_lt (by omega)
    have hmax' : iv.umax.toInt = iv.umax.toNat := toInt_of_lt (by omega)
    have hx : (cut w x).toInt = x.toNat := hiv.fits.toInt_cut hxlt h0
    have hpos : (0 : Int) ≤ 2 ^ (w - 1) := by positivity
    refine { hiv with smin := ?_, smax := ?_, sminFits := ?_, smaxFits := ?_ }
    · show iv.umin.toInt ≤ _
      omega
    · show _ ≤ iv.umax.toInt
      omega
    · show _ ≤ iv.umin.toInt
      omega
    · show iv.umax.toInt < _
      rw [hmax']
      exact_mod_cast h₃
  · exact hiv

/-- The bits that are not known to be zero bound the value. -/
theorem Fits.le_of_zeros (h : w ≤ 64) (hx : Fits w x) {z : U64}
    (hz : ∀ i, z.getLsbD i = true → x.getLsbD i = false) : x ≤ widthMask w &&& ~~~z := by
  refine le_of_bits (fun i hi => ?_)
  have hiw : i < w := by
    by_contra hge
    rw [hx.getLsbD (by omega)] at hi
    exact absurd hi (by decide)
  have hnz : z.getLsbD i = false := by
    by_contra hzi
    rw [hz i (by simpa using hzi)] at hi
    exact absurd hi (by decide)
  rw [getLsbD_and, getLsbD_widthMask h, getLsbD_not, hnz]
  simp [hiw, show i < 64 by omega]

theorem fits_widthMask_and (h : w ≤ 64) (z : U64) : Fits w (widthMask w &&& z) := by
  rw [BitVec.and_comm]
  exact fits_and_widthMask h z

theorem lt_of_not_signBit_zeros (h : w ≤ 64) {z : U64} (hs : z.getLsbD (w - 1) = true)
    (hx : x ≤ widthMask w &&& ~~~z) : x.toNat < 2 ^ (w - 1) := by
  refine Nat.lt_of_le_of_lt hx ((fits_widthMask_and h _).lt_of_not_signBit ?_)
  rw [getLsbD_and, getLsbD_not, hs]
  simp

theorem extractInterval_holds (h0 : 0 < w) (h : w ≤ 64) {lo : Nat} (ha : ia.Holds aw va) :
    (extractInterval w lo ia).Holds w ((va >>> lo) &&& widthMask w) := by
  have hfits := fits_and_widthMask h (va >>> lo)
  have hz : ∀ i, ((ia.knownZeros >>> lo &&& widthMask w) ||| ~~~widthMask w).getLsbD i = true →
      ((va >>> lo) &&& widthMask w).getLsbD i = false := by
    intro i hi
    simp only [getLsbD_or, getLsbD_and, getLsbD_ushiftRight,
      getLsbD_not, getLsbD_widthMask h] at hi ⊢
    by_cases hz : ia.knownZeros.getLsbD (lo + i) = true
    · simp [ha.zeros _ hz]
    · simp [hz] at hi
      simp
      omega
  have hone : ∀ i, (ia.knownOnes >>> lo &&& widthMask w).getLsbD i = true →
      ((va >>> lo) &&& widthMask w).getLsbD i = true := by
    intro i hi
    simp only [getLsbD_and, getLsbD_ushiftRight, Bool.and_eq_true] at hi ⊢
    exact ⟨ha.ones _ hi.1, hi.2⟩
  refine nonNegative_holds h0 h { fullInterval_holds h hfits with
      umin := le_of_bits hone
      umax := hfits.le_of_zeros h hz
      zeros := hz
      ones := hone
      umaxFits := fits_widthMask_and h _ } ?_
  exact fun hs => lt_of_not_signBit_zeros h hs (BitVec.le_refl _)

theorem zextInterval_holds (h0 : 0 < aw) (h : w ≤ 64) (haw : aw ≤ w) (ha : ia.Holds aw va) :
    (zextInterval w aw ia).Holds w va := by
  have h64 : aw ≤ 64 := by omega
  have hmin : Fits aw ia.umin := Nat.lt_of_le_of_lt ha.umin ha.fits
  have hfits : Fits w va := Nat.lt_of_lt_of_le ha.fits (Nat.pow_le_pow_right (by decide) haw)
  have hmaxw : Fits w ia.umax :=
    Nat.lt_of_lt_of_le ha.umaxFits (Nat.pow_le_pow_right (by decide) haw)
  have hfull := fullInterval_holds h hfits
  -- With a new bit on top the signed value is the unsigned one.
  have hsigned : aw < w → (cut w va).toInt = va.toNat ∧ ia.umin.toInt = ia.umin.toNat ∧
      ia.umax.toInt = ia.umax.toNat ∧ ia.umax.toNat < 2 ^ (w - 1) := by
    intro hlt
    have hpow : 2 ^ aw ≤ 2 ^ (w - 1) := Nat.pow_le_pow_right (by decide) (by omega)
    have hpow' : 2 ^ aw ≤ 2 ^ 63 := Nat.pow_le_pow_right (by decide) (by omega)
    have h₁ : va.toNat < 2 ^ aw := ha.fits
    have h₂ : ia.umax.toNat < 2 ^ aw := ha.umaxFits
    have h₃ : ia.umin.toNat < 2 ^ aw := hmin
    exact ⟨hfits.toInt_cut (by omega) (by omega), toInt_of_lt (by omega), toInt_of_lt (by omega),
      by omega⟩
  have hle := ha.umin_le
  have hle' := ha.le_umax
  have hpos : (0 : Int) ≤ 2 ^ (w - 1) := by positivity
  unfold zextInterval
  simp only [hmin.and_widthMask h64, ha.umaxFits.and_widthMask h64]
  refine ⟨ha.umin, ha.umax, ?_, ?_, ?_, ?_, hmaxw, ?_, ?_⟩
  · show (if aw < w then ia.umin.toInt else minSigned w) ≤ _
    split
    · have := hsigned (by assumption)
      omega
    · exact hfull.smin
  · show _ ≤ (if aw < w then ia.umax.toInt else maxSigned w)
    split
    · have := hsigned (by assumption)
      omega
    · exact hfull.smax
  · have hzeros := and_or_eq_zero
      (and_or_eq_zero (and_eq_zero_iff.mpr ha.zeros) (ha.fits.and_not_widthMask h64))
      (bitsMask_zeros ha.umax)
    exact and_eq_zero_iff.mp hzeros
  · intro i hi
    rw [getLsbD_and, Bool.and_eq_true] at hi
    exact ha.ones i hi.1
  · show _ ≤ (if aw < w then ia.umin.toInt else minSigned w)
    split
    · have := hsigned (by assumption)
      omega
    · exact hfull.sminFits
  · show (if aw < w then ia.umax.toInt else maxSigned w) < _
    split
    · obtain ⟨-, -, hmax, hlt⟩ := hsigned (by assumption)
      rw [hmax]
      exact_mod_cast hlt
    · exact hfull.smaxFits

theorem Fits.toNat_eq (hx : Fits w x) : (x.toNat : Int) =
    if 0 ≤ (cut w x).toInt then (cut w x).toInt else (cut w x).toInt + 2 ^ w := by
  have hlt : x.toNat < 2 ^ w := hx
  have hlt' : (x.toNat : Int) < 2 ^ w := by exact_mod_cast hlt
  rw [toInt_eq_toNat_cond, hx.toNat_cut]
  push_cast
  split_ifs <;> omega

theorem toNat_ofInt_of_nonneg (hz : 0 ≤ z) (hlt : z < 2 ^ 64) :
    ((BitVec.ofInt 64 z).toNat : Int) = z := by
  rw [BitVec.toNat_ofInt, Int.toNat_of_nonneg (Int.emod_nonneg _ (by decide)),
    Int.emod_eq_of_lt hz (by exact_mod_cast hlt)]

theorem two_pow_pred (h0 : 0 < w) : (2 : Int) ^ w = 2 * 2 ^ (w - 1) := by
  obtain ⟨k, rfl⟩ : ∃ k, w = k + 1 := ⟨w - 1, by omega⟩
  rw [Nat.add_sub_cancel, pow_succ]
  ring

theorem toNat_ofInt_of_neg (h0 : 0 < w) (h : w ≤ 64) (hz : z < 0) (hlo : -(2 ^ (w - 1)) ≤ z) :
    ((BitVec.ofInt 64 z &&& widthMask w).toNat : Int) = z + 2 ^ w := by
  have hpos : (0 : Int) < 2 ^ (w - 1) := by positivity
  have hfits := fits_and_widthMask h (BitVec.ofInt 64 z)
  rw [hfits.toNat_eq, cut_and_widthMask h, cut_ofInt h,
    BitVec.toInt_ofInt_eq_self h0 hlo (by omega), if_neg (by omega)]

theorem pow_lt_64 (h0 : 0 < w) (h : w ≤ 64) : (2 : Int) ^ (w - 1) < 2 ^ 64 :=
  pow_lt_pow_right₀ (by norm_num) (by omega)

theorem le_ofInt (h : w ≤ 64) (h0 : 0 < w) (hz : 0 ≤ z) (hlt : z < 2 ^ (w - 1))
    (hle : (x.toNat : Int) ≤ z) : x ≤ BitVec.ofInt 64 z := by
  have := pow_lt_64 h0 h
  rw [le_def]
  have := toNat_ofInt_of_nonneg hz (by omega)
  omega

theorem ofInt_le (hz : 0 ≤ z) (hle : z ≤ (x.toNat : Int)) : BitVec.ofInt 64 z ≤ x := by
  rw [BitVec.le_def]
  have := toNat_ofInt_of_nonneg hz (by omega)
  omega

theorem fits_ofInt (h : w ≤ 64) (h0 : 0 < w) (hz : 0 ≤ z) (hlt : z < 2 ^ (w - 1)) :
    Fits w (BitVec.ofInt 64 z) := by
  have h₁ := pow_lt_64 h0 h
  have h₂ := two_pow_pred h0
  have h₃ := toNat_ofInt_of_nonneg hz (by omega)
  have h₄ : ((BitVec.ofInt 64 z).toNat : Int) < 2 ^ w := by omega
  exact_mod_cast h₄

theorem sextInterval_holds (h0 : 0 < aw) (h : w ≤ 64) (haw : aw ≤ w) (ha : ia.Holds aw va) :
    (sextInterval w ia).Holds w (lift ((cut aw va).signExtend w)) := by
  have hfits := fits_lift h ((cut aw va).signExtend w)
  have hfull := fullInterval_holds h hfits
  have hint : (cut w (lift ((cut aw va).signExtend w))).toInt = (cut aw va).toInt := by
    rw [cut_lift h, BitVec.toInt_signExtend_of_le haw]
  have hpow : (2 : Int) ^ (aw - 1) ≤ 2 ^ (w - 1) :=
    pow_le_pow_right₀ (by norm_num) (by omega)
  have h₁ := ha.smin
  have h₂ := ha.smax
  have h₃ := ha.sminFits
  have h₄ := ha.smaxFits
  have hval := hfits.toNat_eq
  have hva := ha.fits.toNat_eq
  rw [hint] at hval
  have hiv : BVInterval.Holds { fullInterval w with smin := ia.smin, smax := ia.smax } w
      (lift ((cut aw va).signExtend w)) :=
    { hfull with
      smin := by rw [hint]; exact h₁
      smax := by rw [hint]; exact h₂
      sminFits := by show -(2 ^ (w - 1)) ≤ ia.smin; omega
      smaxFits := by show ia.smax < 2 ^ (w - 1); omega }
  unfold sextInterval
  dsimp only
  split
  · -- A value that is not negative keeps its word.
    rename_i hs
    rw [if_pos (by omega)] at hval hva
    have hsame : lift ((cut aw va).signExtend w) = va :=
      BitVec.eq_of_toNat_eq (by omega)
    have hmaxle : lift ((cut aw va).signExtend w) ≤ BitVec.ofInt 64 ia.smax :=
      le_ofInt h (by omega) (by omega) (by omega) (by omega)
    refine { hiv with
      umin := ofInt_le hs (by omega)
      umax := hmaxle
      zeros := ?_
      umaxFits := fits_ofInt h (by omega) (by omega) (by omega) }
    refine and_eq_zero_iff.mp (and_or_eq_zero ?_ (bitsMask_zeros hmaxle))
    rw [hsame]
    exact and_eq_zero_iff.mpr ha.zeros
  · split
    · rename_i hs
      rw [if_neg (by omega)] at hval
      have hlo := toNat_ofInt_of_neg (w := w) (by omega) h (z := ia.smin) (by omega) (by omega)
      have hhi := toNat_ofInt_of_neg (w := w) (by omega) h (z := ia.smax) (by omega) (by omega)
      refine { hiv with
        umin := ?_
        umax := ?_
        umaxFits := fits_and_widthMask h _ }
      · show (BitVec.ofInt 64 ia.smin &&& widthMask w).toNat ≤ _
        omega
      · show _ ≤ (BitVec.ofInt 64 ia.smax &&& widthMask w).toNat
        omega
    · exact hiv

theorem umin_le_left (a b : U64) : umin a b ≤ a := by
  rw [le_def, toNat_umin]
  omega

theorem umin_le_right (a b : U64) : umin a b ≤ b := by
  rw [le_def, toNat_umin]
  omega

theorem le_umin (ha : x ≤ a) (hb : x ≤ b) : x ≤ umin a b := by
  rw [le_def] at *
  rw [toNat_umin]
  omega

theorem umax_le (ha : a ≤ x) (hb : b ≤ x) : umax a b ≤ x := by
  rw [le_def] at *
  rw [toNat_umax]
  omega

theorem Fits.mono (hx : Fits w x) (hy : y ≤ x) : Fits w y := Nat.lt_of_le_of_lt hy hx

theorem and_le_left (x y : U64) : x &&& y ≤ x := by
  rw [le_def, toNat_and]
  exact Nat.and_le_left

theorem andInterval_holds (h0 : 0 < w) (h : w ≤ 64) (ha : ia.Holds w va) (hb : ib.Holds w vb) :
    (andInterval w ia ib).Holds w (va &&& vb) := by
  have hleb : va &&& vb ≤ vb := by
    rw [BitVec.and_comm]
    exact and_le_left vb va
  have hfits : Fits w (va &&& vb) := ha.fits.mono (and_le_left va vb)
  have hz : ∀ i, (ia.knownZeros ||| ib.knownZeros).getLsbD i = true →
      (va &&& vb).getLsbD i = false := by
    intro i hi
    rw [getLsbD_or, Bool.or_eq_true] at hi
    rw [getLsbD_and]
    rcases hi with hi | hi
    · simp [ha.zeros i hi]
    · simp [hb.zeros i hi]
  have hone : ∀ i, (ia.knownOnes &&& ib.knownOnes).getLsbD i = true →
      (va &&& vb).getLsbD i = true := by
    intro i hi
    rw [getLsbD_and, Bool.and_eq_true] at hi ⊢
    exact ⟨ha.ones i hi.1, hb.ones i hi.2⟩
  refine nonNegative_holds h0 h { fullInterval_holds h hfits with
      umin := le_of_bits hone
      umax := ?_
      zeros := hz
      ones := hone
      umaxFits := (fits_widthMask_and h _).mono (umin_le_right _ _) } ?_
  · exact le_umin (le_umin (BitVec.le_trans (and_le_left va vb) ha.umax)
      (BitVec.le_trans hleb hb.umax)) (hfits.le_of_zeros h hz)
  · exact fun hs => lt_of_not_signBit_zeros h hs (umin_le_right _ _)

theorem left_le_or (x y : U64) : x ≤ x ||| y := by
  refine le_of_bits (fun i hi => ?_)
  rw [getLsbD_or, hi, Bool.true_or]

theorem orInterval_holds (h : w ≤ 64) (ha : ia.Holds w va) (hb : ib.Holds w vb) :
    (orInterval w ia ib).Holds w (va ||| vb) := by
  have hfits : Fits w (va ||| vb) := by
    unfold Fits
    rw [toNat_or]
    exact Nat.or_lt_two_pow ha.fits hb.fits
  have hz : ∀ i, (ia.knownZeros &&& ib.knownZeros).getLsbD i = true →
      (va ||| vb).getLsbD i = false := by
    intro i hi
    rw [getLsbD_and, Bool.and_eq_true] at hi
    rw [getLsbD_or, ha.zeros i hi.1, hb.zeros i hi.2, Bool.or_false]
  have hone : ∀ i, (ia.knownOnes ||| ib.knownOnes).getLsbD i = true →
      (va ||| vb).getLsbD i = true := by
    intro i hi
    rw [getLsbD_or, Bool.or_eq_true] at hi ⊢
    exact hi.imp (ha.ones i) (hb.ones i)
  have hleb : vb ≤ va ||| vb := by
    rw [BitVec.or_comm]
    exact left_le_or vb va
  exact { fullInterval_holds h hfits with
      umin := umax_le (umax_le (BitVec.le_trans ha.umin (left_le_or va vb))
        (BitVec.le_trans hb.umin hleb)) (le_of_bits hone)
      umax := hfits.le_of_zeros h hz
      zeros := hz
      ones := hone
      umaxFits := fits_widthMask_and h _ }

theorem BVInterval.Holds.eq_umin (h : iv.Holds w x) (heq : iv.umin = iv.umax) : x = iv.umin := by
  have h₁ := h.umin_le
  have h₂ := h.le_umax
  rw [← heq] at h₂
  exact eq_of_toNat_eq (by omega)

theorem lshrInterval_holds (h0 : 0 < w) (h : w ≤ 64) {bw : Nat} (ha : ia.Holds w va)
    (hb : ib.Holds bw vb) : (lshrInterval w ia ib).Holds w (va >>> shiftAmount w vb) := by
  have hle : va >>> shiftAmount w vb ≤ va := by
    rw [le_def, toNat_ushiftRight]
    exact Nat.shiftRight_le _ _
  have hfits := ha.fits.mono hle
  unfold lshrInterval
  dsimp only
  split
  · rename_i hcond
    obtain ⟨heq, hs0, hsw⟩ := hcond
    have hsh : (ib.umin &&& BitVec.ofNat 64 (shiftMask w)).toNat = shiftAmount w vb := by
      rw [hb.eq_umin heq]
      rfl
    rw [hsh] at hs0 hsw ⊢
    generalize shiftAmount w vb = sh at *
    have hpow : 2 ^ (w - sh) * 2 ^ sh = 2 ^ w := by
      rw [← Nat.pow_add]
      congr 1
      omega
    have hpow' : 2 ^ (w - sh) ≤ 2 ^ (w - 1) := Nat.pow_le_pow_right (by decide) (by omega)
    have hpow63 : 2 ^ (w - 1) ≤ 2 ^ 63 := Nat.pow_le_pow_right (by decide) (by omega)
    -- All shifted words are below `2 ^ (w - sh)`.
    have hlow : ∀ v : U64, Fits w v → (v >>> sh).toNat < 2 ^ (w - sh) := by
      intro v hv
      rw [toNat_ushiftRight, Nat.shiftRight_eq_div_pow, Nat.div_lt_iff_lt_mul (by positivity), hpow]
      exact hv
    have hmono : ∀ u v : U64, u ≤ v → u >>> sh ≤ v >>> sh := by
      intro u v huv
      rw [le_def, toNat_ushiftRight, toNat_ushiftRight,
        Nat.shiftRight_eq_div_pow, Nat.shiftRight_eq_div_pow]
      exact Nat.div_le_div_right huv
    have h₁ := hlow va ha.fits
    have h₂ := hlow ia.umin (ha.fits.mono ha.umin)
    have h₃ := hlow ia.umax ha.umaxFits
    have hint := hfits.toInt_cut (by omega) h0
    have hmin : (ia.umin >>> sh).toInt = (ia.umin >>> sh).toNat := toInt_of_lt (by omega)
    have hmax : (ia.umax >>> sh).toInt = (ia.umax >>> sh).toNat := toInt_of_lt (by omega)
    have hle₁ : (ia.umin >>> sh).toNat ≤ (va >>> sh).toNat := hmono _ _ ha.umin
    have hle₂ : (va >>> sh).toNat ≤ (ia.umax >>> sh).toNat := hmono _ _ ha.umax
    have hpos : (0 : Int) ≤ 2 ^ (w - 1) := by positivity
    refine ⟨hle₁, hle₂, ?_, ?_, ?_, ?_, ?_, ?_, ?_⟩
    · show (ia.umin >>> sh).toInt ≤ _
      omega
    · show _ ≤ (ia.umax >>> sh).toInt
      omega
    · refine and_eq_zero_iff.mp (and_or_eq_zero (and_eq_zero_iff.mpr fun i hi => ?_) ?_)
      · rw [getLsbD_ushiftRight] at hi ⊢
        exact ha.zeros _ hi
      · exact Fits.and_not_widthMask (by omega) h₁
    · intro i hi
      rw [getLsbD_and, Bool.and_eq_true, getLsbD_ushiftRight] at hi
      rw [getLsbD_ushiftRight]
      exact ha.ones _ hi.1
    · exact Nat.lt_of_lt_of_le h₃ (Nat.pow_le_pow_right (by decide) (by omega))
    · show _ ≤ (ia.umin >>> sh).toInt
      omega
    · show (ia.umax >>> sh).toInt < _
      rw [hmax]
      exact_mod_cast Nat.lt_of_lt_of_le h₃ hpow'
  · exact fullInterval_holds h hfits

theorem toNat_shl (h : w ≤ 64) (sh : Nat) (x : U64) :
    ((x <<< sh) &&& widthMask w).toNat = x.toNat * 2 ^ sh % 2 ^ w := by
  have hdvd : 2 ^ w ∣ 2 ^ 64 := Nat.pow_dvd_pow 2 h
  rw [toNat_and, toNat_widthMask h, Nat.and_two_pow_sub_one_eq_mod, toNat_shiftLeft,
    Nat.shiftLeft_eq, Nat.mod_mod_of_dvd _ hdvd]

/-- The bound that `Shl` checks says that no bit is lost. -/
theorem mul_lt_of_le_shiftRight (h : w ≤ 64) (hle : x ≤ widthMask w >>> sh) :
    x.toNat * 2 ^ sh < 2 ^ w := by
  have hle' : x.toNat ≤ (2 ^ w - 1) / 2 ^ sh := by
    rw [le_def, toNat_ushiftRight, toNat_widthMask h, Nat.shiftRight_eq_div_pow] at hle
    exact hle
  have hmul : x.toNat * 2 ^ sh ≤ 2 ^ w - 1 := (Nat.le_div_iff_mul_le (by positivity)).mp hle'
  have := Nat.two_pow_pos w
  omega

theorem shl_zeros (h : w ≤ 64) (ha : ia.Holds w va) (i : Nat)
    (hi : (((ia.knownZeros <<< sh) ||| widthMask sh) ||| ~~~widthMask w).getLsbD i = true)
    (hsw : sh < w) : ((va <<< sh) &&& widthMask w).getLsbD i = false := by
  rw [getLsbD_or, getLsbD_or, getLsbD_not, getLsbD_widthMask h,
    getLsbD_widthMask (by omega), getLsbD_shiftLeft] at hi
  rw [getLsbD_and, getLsbD_widthMask h, getLsbD_shiftLeft]
  by_cases hw : i < w
  · by_cases hs : i < sh
    · simp [hs]
    · have : ia.knownZeros.getLsbD (i - sh) = true := by simpa [hw, hs, show i < 64 by omega] using hi
      simp [ha.zeros _ this]
  · simp [hw]

theorem shl_ones (ha : ia.Holds w va) (i : Nat)
    (hi : ((ia.knownOnes <<< sh) &&& widthMask w).getLsbD i = true) :
    ((va <<< sh) &&& widthMask w).getLsbD i = true := by
  rw [getLsbD_and, getLsbD_shiftLeft] at hi ⊢
  simp only [Bool.and_eq_true] at hi ⊢
  exact ⟨⟨hi.1.1, ha.ones _ hi.1.2⟩, hi.2⟩

theorem shiftLeft_eq_ofInt (c : BitVec w) (sh : Nat) :
    c <<< sh = BitVec.ofInt w (c.toInt * 2 ^ sh) := by
  have hpow : BitVec.twoPow w sh = BitVec.ofInt w (2 ^ sh) := by
    apply BitVec.eq_of_toNat_eq
    rw [toNat_twoPow, show (2 ^ sh : Int) = ((2 ^ sh : Nat) : Int) by push_cast; rfl,
      ofInt_natCast, toNat_ofNat]
  rw [shiftLeft_eq_mul_twoPow, ofInt_mul, ofInt_toInt, hpow]

theorem shlInterval_holds (h0 : 0 < w) (h : w ≤ 64) {bw : Nat} (ha : ia.Holds w va)
    (hb : ib.Holds bw vb) :
    (shlInterval w ia ib).Holds w ((va <<< shiftAmount w vb) &&& widthMask w) := by
  have hfits := fits_and_widthMask h (va <<< shiftAmount w vb)
  unfold shlInterval
  dsimp only
  split
  · rename_i hcond
    obtain ⟨heq, hsw⟩ := hcond
    have hsh : (ib.umin &&& BitVec.ofNat 64 (shiftMask w)).toNat = shiftAmount w vb := by
      rw [hb.eq_umin heq]
      rfl
    rw [hsh] at hsw ⊢
    generalize shiftAmount w vb = sh at *
    have hfull := fullInterval_holds h hfits
    have hle₁ := ha.umin_le
    have hle₂ := ha.le_umax
    -- When no bit of the upper bound is lost, none of the values loses one.
    have hexact : (sh = 0 ∨ ia.umax ≤ widthMask w >>> sh) → ∀ v : U64, v.toNat ≤ ia.umax.toNat →
        ((v <<< sh) &&& widthMask w).toNat = v.toNat * 2 ^ sh := by
      intro hex v hv
      have hmax : ia.umax.toNat * 2 ^ sh < 2 ^ w := by
        rcases hex with rfl | hex
        · have : ia.umax.toNat < 2 ^ w := ha.umaxFits
          omega
        · exact mul_lt_of_le_shiftRight h hex
      rw [toNat_shl h, Nat.mod_eq_of_lt (Nat.lt_of_le_of_lt (Nat.mul_le_mul_right _ hv) hmax)]
    -- The signed bounds are only used when both of them stay in the range.
    have hsigned : (w + sh < 63 ∧ ia.smin * 2 ^ sh ≥ -(2 ^ (w - 1)) ∧
          ia.smax * 2 ^ sh ≤ 2 ^ (w - 1) - 1) →
        (cut w ((va <<< sh) &&& widthMask w)).toInt = (cut w va).toInt * 2 ^ sh ∧
          ia.smin * 2 ^ sh ≤ (cut w va).toInt * 2 ^ sh ∧
          (cut w va).toInt * 2 ^ sh ≤ ia.smax * 2 ^ sh := by
      rintro ⟨-, hlo, hhi⟩
      have hpos : (0 : Int) ≤ 2 ^ sh := by positivity
      have h₁ := Int.mul_le_mul_of_nonneg_right ha.smin hpos
      have h₂ := Int.mul_le_mul_of_nonneg_right ha.smax hpos
      refine ⟨?_, h₁, h₂⟩
      rw [cut_and_widthMask h, cut_shiftLeft h, shiftLeft_eq_ofInt,
        BitVec.toInt_ofInt_eq_self h0 (by omega) (by omega)]
    refine ⟨?_, ?_, ?_, ?_, fun i hi => shl_zeros h ha i hi hsw, fun i hi => shl_ones ha i hi,
      ?_, ?_, ?_⟩
    · dsimp only
      split
      · rename_i hex
        rw [le_def, hexact hex _ hle₂, hexact hex _ (by omega)]
        exact Nat.mul_le_mul_right _ hle₁
      · exact hfull.umin
    · dsimp only
      split
      · rename_i hex
        rw [le_def, hexact hex _ hle₂, hexact hex _ (Nat.le_refl _)]
        exact Nat.mul_le_mul_right _ hle₂
      · exact hfull.umax
    · dsimp only
      split
      · rename_i hs
        have := hsigned hs
        omega
      · exact hfull.smin
    · dsimp only
      split
      · rename_i hs
        have := hsigned hs
        omega
      · exact hfull.smax
    · dsimp only
      split
      · exact fits_and_widthMask h _
      · exact hfull.umaxFits
    · dsimp only
      split
      · rename_i hs
        exact hs.2.1
      · exact hfull.sminFits
    · dsimp only
      split
      · rename_i hs
        have := hs.2.2
        omega
      · exact hfull.smaxFits
  · exact fullInterval_holds h hfits

theorem sumAtLeast_le {a b lo : Int} (hlo : lo ≤ 2 ^ 63 - 1) (hs : sumAtLeast a b lo = true) :
    lo ≤ a + b := by
  unfold sumAtLeast at hs
  split at hs
  · omega
  · split at hs
    · exact absurd hs (by decide)
    · simpa using hs

theorem sumAtMost_le {a b hi : Int} (hhi : -(2 ^ 63) ≤ hi) (hs : sumAtMost a b hi = true) :
    a + b ≤ hi := by
  unfold sumAtMost at hs
  split at hs
  · exact absurd hs (by decide)
  · split at hs
    · omega
    · simpa using hs

theorem usumAtMost_le {m : U64} (hs : usumAtMost a b m = true) : a.toNat + b.toNat ≤ m.toNat := by
  unfold usumAtMost at hs
  rw [Bool.and_eq_true, decide_eq_true_iff, decide_eq_true_iff, le_def, le_def] at hs
  obtain ⟨h₁, h₂⟩ := hs
  rw [toNat_sub_of_le (by rwa [le_def])] at h₂
  omega

theorem addUnsigned_holds (h : w ≤ 64) (ha : ia.Holds w va) (hb : ib.Holds w vb) :
    (addUnsigned w ia ib).Holds w ((va + vb) &&& widthMask w) := by
  have hfits := fits_and_widthMask h (va + vb)
  have hfull := fullInterval_holds h hfits
  unfold addUnsigned
  dsimp only
  split
  · rename_i hs
    rw [Bool.and_eq_true] at hs
    have hmax := usumAtMost_le hs.2
    rw [toNat_widthMask h] at hmax
    have hpow := pow_le_64 h
    have hpos := Nat.two_pow_pos w
    have h₁ := ha.umin_le
    have h₂ := ha.le_umax
    have h₃ := hb.umin_le
    have h₄ := hb.le_umax
    have hsum : ((va + vb) &&& widthMask w).toNat = va.toNat + vb.toNat := by
      rw [toNat_and, toNat_widthMask h, Nat.and_two_pow_sub_one_eq_mod, toNat_add,
        Nat.mod_eq_of_lt (show va.toNat + vb.toNat < 2 ^ 64 by omega), Nat.mod_eq_of_lt (by omega)]
    have hlo : (ia.umin + ib.umin).toNat = ia.umin.toNat + ib.umin.toNat := by
      rw [toNat_add, Nat.mod_eq_of_lt (by omega)]
    have hhi : (ia.umax + ib.umax).toNat = ia.umax.toNat + ib.umax.toNat := by
      rw [toNat_add, Nat.mod_eq_of_lt (by omega)]
    have hle : (va + vb) &&& widthMask w ≤ ia.umax + ib.umax := by
      rw [le_def]
      omega
    refine { hfull with umin := ?_, umax := hle, zeros := ?_, umaxFits := ?_ }
    · rw [le_def]
      show (ia.umin + ib.umin).toNat ≤ _
      omega
    · exact and_eq_zero_iff.mp (bitsMask_zeros hle)
    · show (ia.umax + ib.umax).toNat < 2 ^ w
      omega
  · exact hfull

theorem addInterval_holds (h0 : 0 < w) (h : w ≤ 64) (ha : ia.Holds w va) (hb : ib.Holds w vb) :
    (addInterval w ia ib).Holds w ((va + vb) &&& widthMask w) := by
  have hfits := fits_and_widthMask h (va + vb)
  have hu := addUnsigned_holds h ha hb
  have hpow : (2 : Int) ^ (w - 1) ≤ 2 ^ 63 := pow_le_pow_right₀ (by norm_num) (by omega)
  have hpos : (0 : Int) < 2 ^ (w - 1) := by positivity
  unfold addInterval
  dsimp only
  split
  · rename_i hs
    rw [Bool.and_eq_true, minSigned_eq h, maxSigned_eq h] at hs
    have hlo := sumAtLeast_le (by omega) hs.1
    have hhi := sumAtMost_le (by omega) hs.2
    have h₁ := ha.smin
    have h₂ := ha.smax
    have h₃ := hb.smin
    have h₄ := hb.smax
    have hint : (cut w ((va + vb) &&& widthMask w)).toInt = (cut w va).toInt + (cut w vb).toInt := by
      rw [cut_and_widthMask h, cut_add _ _ h, ← ofInt_toInt (x := cut w va),
        ← ofInt_toInt (x := cut w vb), ← ofInt_add, ofInt_toInt,
        ofInt_toInt, BitVec.toInt_ofInt_eq_self h0 (by omega) (by omega)]
    have hval := hfits.toNat_eq
    rw [hint] at hval
    have hiv : BVInterval.Holds
        { addUnsigned w ia ib with smin := ia.smin + ib.smin, smax := ia.smax + ib.smax } w
        ((va + vb) &&& widthMask w) :=
      { hu with
        smin := by rw [hint]; show ia.smin + ib.smin ≤ _; omega
        smax := by rw [hint]; show _ ≤ ia.smax + ib.smax; omega
        sminFits := by show _ ≤ ia.smin + ib.smin; omega
        smaxFits := by show ia.smax + ib.smax < _; omega }
    split
    · rw [if_pos (by omega)] at hval
      have hle : (va + vb) &&& widthMask w ≤
          umin (addUnsigned w ia ib).umax (BitVec.ofInt 64 (ia.smax + ib.smax)) :=
        le_umin hu.umax (le_ofInt h h0 (by omega) (by omega) (by omega))
      refine { hiv with umin := ?_, umax := hle, zeros := ?_, umaxFits := ?_ }
      · exact umax_le hu.umin (ofInt_le (by omega) (by omega))
      · exact and_eq_zero_iff.mp
          (and_or_eq_zero (and_eq_zero_iff.mpr hu.zeros) (bitsMask_zeros hle))
      · exact hu.umaxFits.mono (umin_le_left _ _)
    · split
      · rw [if_neg (by omega)] at hval
        have hmin := toNat_ofInt_of_neg h0 h (z := ia.smin + ib.smin) (by omega) (by omega)
        have hmax := toNat_ofInt_of_neg h0 h (z := ia.smax + ib.smax) (by omega) (by omega)
        refine { hiv with umin := ?_, umax := ?_, umaxFits := ?_ }
        · refine umax_le hu.umin ?_
          rw [le_def]
          omega
        · refine le_umin hu.umax ?_
          rw [le_def]
          omega
        · exact hu.umaxFits.mono (umin_le_left _ _)
      · exact hiv
  · exact hu

theorem mulInterval_holds (h0 : 0 < w) (h : w ≤ 64) (ha : ia.Holds w va) (hb : ib.Holds w vb) :
    (mulInterval w ia ib).Holds w ((va * vb) &&& widthMask w) := by
  have hfits := fits_and_widthMask h (va * vb)
  have hfull := fullInterval_holds h hfits
  unfold mulInterval
  dsimp only
  split
  · rename_i hs
    obtain ⟨hsa, hsb, hdiv⟩ := hs
    have h₁ := ha.smin
    have h₂ := ha.smax
    have h₃ := hb.smin
    have h₄ := hb.smax
    have hpos : (0 : Int) < 2 ^ (w - 1) := by positivity
    have hmax : ia.smax * ib.smax ≤ 2 ^ (w - 1) - 1 := by
      rcases hdiv with h | h | hdiv
      · rw [h]
        omega
      · rw [h]
        omega
      · rw [maxSigned_eq h, Int.tdiv_eq_ediv_of_nonneg (by omega)] at hdiv
        rcases Int.lt_or_eq_of_le (show 0 ≤ ib.smax by omega) with hpos' | hzero
        · exact (Int.le_ediv_iff_mul_le hpos').mp hdiv
        · rw [← hzero]
          omega
    have hlow : ia.smin * ib.smin ≤ (cut w va).toInt * (cut w vb).toInt :=
      Int.mul_le_mul h₁ h₃ hsb (by omega)
    have hhigh : (cut w va).toInt * (cut w vb).toInt ≤ ia.smax * ib.smax :=
      Int.mul_le_mul h₂ h₄ (by omega) (by omega)
    have hnonneg : 0 ≤ ia.smin * ib.smin := Int.mul_nonneg hsa hsb
    have hint : (cut w ((va * vb) &&& widthMask w)).toInt = (cut w va).toInt * (cut w vb).toInt := by
      rw [cut_and_widthMask h, cut_mul _ _ h, ← ofInt_toInt (x := cut w va),
        ← BitVec.ofInt_toInt (x := cut w vb), ← BitVec.ofInt_mul, BitVec.ofInt_toInt,
        BitVec.ofInt_toInt, BitVec.toInt_ofInt_eq_self h0 (by omega) (by omega)]
    have hval := hfits.toNat_eq
    rw [hint, if_pos (by omega)] at hval
    have hle : (va * vb) &&& widthMask w ≤ BitVec.ofInt 64 (ia.smax * ib.smax) :=
      le_ofInt h h0 (by omega) (by omega) (by omega)
    refine { hfull with
      umin := ofInt_le hnonneg (by omega)
      umax := hle
      smin := ?_
      smax := ?_
      zeros := and_eq_zero_iff.mp (bitsMask_zeros hle)
      umaxFits := fits_ofInt h h0 (by omega) (by omega)
      sminFits := ?_
      smaxFits := ?_ }
    · show ia.smin * ib.smin ≤ _
      omega
    · show _ ≤ ia.smax * ib.smax
      omega
    · show _ ≤ ia.smin * ib.smin
      omega
    · show ia.smax * ib.smax < _
      omega
  · exact hfull

/-- The values of both arms lie in the hull of their intervals. -/
theorem iteInterval_holds_left (ha : ia.Holds w va) (hb : ib.Holds w vb) :
    (iteInterval ia ib).Holds w va := by
  have h₁ := ha.smin
  have h₂ := ha.smax
  have h₃ := ha.sminFits
  have h₄ := ha.smaxFits
  have h₅ := hb.sminFits
  have h₆ := hb.smaxFits
  refine ⟨BitVec.le_trans (umin_le_left _ _) ha.umin, ?_, ?_, ?_, fun i hi => ?_, fun i hi => ?_,
    ?_, ?_, ?_⟩
  · have := ha.le_umax
    rw [le_def]
    show _ ≤ (umax ia.umax ib.umax).toNat
    rw [toNat_umax]
    omega
  · show (if ib.smin < ia.smin then ib.smin else ia.smin) ≤ _
    split <;> omega
  · show _ ≤ (if ia.smax < ib.smax then ib.smax else ia.smax)
    split <;> omega
  · rw [iteInterval, getLsbD_and, Bool.and_eq_true] at hi
    exact ha.zeros i hi.1
  · rw [iteInterval, getLsbD_and, Bool.and_eq_true] at hi
    exact ha.ones i hi.1
  · show (umax ia.umax ib.umax).toNat < 2 ^ w
    have := ha.umaxFits
    have := hb.umaxFits
    unfold Fits at *
    rw [toNat_umax]
    omega
  · show _ ≤ (if ib.smin < ia.smin then ib.smin else ia.smin)
    split <;> omega
  · show (if ia.smax < ib.smax then ib.smax else ia.smax) < _
    split <;> omega

theorem iteInterval_holds_right (ha : ia.Holds w va) (hb : ib.Holds w vb) :
    (iteInterval ia ib).Holds w vb := by
  have hswap := iteInterval_holds_left hb ha
  have hcomm : iteInterval ia ib = iteInterval ib ia := by
    unfold iteInterval
    congr 1
    · apply eq_of_toNat_eq
      rw [toNat_umin, toNat_umin, Nat.min_comm]
    · apply eq_of_toNat_eq
      rw [toNat_umax, toNat_umax, Nat.max_comm]
    · split_ifs <;> omega
    · split_ifs <;> omega
    · exact and_comm _ _
    · exact and_comm _ _
  rw [hcomm]
  exact hswap

end Brass.Verify.Bv
