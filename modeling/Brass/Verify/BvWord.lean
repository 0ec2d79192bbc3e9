import Mathlib.Tactic.IntervalCases
import Brass.Verify.BvNode

/-!
# Words and bit vectors

A value of width `w` is kept in a 64-bit word. `cut w` is the bit vector of its lower `w`
bits and `lift` the word of a bit vector; on the words that fit they are inverse to each
other. The masks, shifts and sign extensions of the source are the operations of bit
vectors of width `w` (`and_widthMask`, `signExtendBits_eq`).
-/

namespace Brass.Verify.Bv

open BitVec

def cut (w : Nat) (x : U64) : BitVec w := x.setWidth w

def lift {w : Nat} (x : BitVec w) : U64 := x.setWidth 64

/-- The word holds a value of `w` bits. -/
def Fits (w : Nat) (x : U64) : Prop := x.toNat < 2 ^ w

variable {w : Nat}

theorem pow_le_64 (h : w ≤ 64) : 2 ^ w ≤ 2 ^ 64 := Nat.pow_le_pow_right (by decide) h

@[simp] theorem toNat_cut (x : U64) : (cut w x).toNat = x.toNat % 2 ^ w := by simp [cut]

theorem toNat_lift (h : w ≤ 64) (x : BitVec w) : (lift x).toNat = x.toNat := by
  have h₁ := x.isLt
  have h₂ := pow_le_64 h
  rw [lift, toNat_setWidth, Nat.mod_eq_of_lt (by omega)]

theorem cut_lift (h : w ≤ 64) (x : BitVec w) : cut w (lift x) = x := by
  apply eq_of_toNat_eq
  rw [toNat_cut, toNat_lift h, Nat.mod_eq_of_lt x.isLt]

theorem fits_lift (h : w ≤ 64) (x : BitVec w) : Fits w (lift x) := by
  unfold Fits
  rw [toNat_lift h]
  exact x.isLt

theorem Fits.lift_cut {x : U64} (hx : Fits w x) : lift (cut w x) = x := by
  apply eq_of_toNat_eq
  have : x.toNat < 2 ^ w := hx
  rw [lift, toNat_setWidth, toNat_cut, Nat.mod_eq_of_lt this, Nat.mod_eq_of_lt x.isLt]

theorem Fits.toNat_cut {x : U64} (hx : Fits w x) : (cut w x).toNat = x.toNat := by
  rw [Brass.Verify.Bv.toNat_cut, Nat.mod_eq_of_lt hx]

theorem Fits.ext {x y : U64} (hx : Fits w x) (hy : Fits w y) (h : cut w x = cut w y) : x = y := by
  rw [← hx.lift_cut, ← hy.lift_cut, h]

/-! ## Masks -/

theorem toNat_widthMask (h : w ≤ 64) : (widthMask w).toNat = 2 ^ w - 1 := by
  unfold widthMask
  split
  · rename_i h0
    subst h0
    rfl
  · split
    · have : w = 64 := by omega
      subst this
      rfl
    · have hlt : 2 ^ w < 2 ^ 64 := Nat.pow_lt_pow_right (by decide) (by omega)
      have hpos : 0 < 2 ^ w := Nat.two_pow_pos w
      have hone : (1 : U64).toNat = 1 := rfl
      have hone' : (1#64).toNat = 1 := rfl
      rw [toNat_sub, toNat_shiftLeft, hone, hone', Nat.shiftLeft_eq, Nat.one_mul,
        Nat.mod_eq_of_lt hlt]
      omega

theorem and_widthMask (h : w ≤ 64) (x : U64) : x &&& widthMask w = lift (cut w x) := by
  apply eq_of_toNat_eq
  rw [toNat_and, toNat_widthMask h, Nat.and_two_pow_sub_one_eq_mod, toNat_lift h, toNat_cut]

theorem fits_and_widthMask (h : w ≤ 64) (x : U64) : Fits w (x &&& widthMask w) := by
  rw [and_widthMask h]
  exact fits_lift h _

@[simp] theorem cut_and_widthMask (h : w ≤ 64) (x : U64) : cut w (x &&& widthMask w) = cut w x := by
  rw [and_widthMask h, cut_lift h]

theorem Fits.and_widthMask {x : U64} (hx : Fits w x) (h : w ≤ 64) : x &&& widthMask w = x := by
  rw [Brass.Verify.Bv.and_widthMask h, hx.lift_cut]

theorem cut_widthMask (h : w ≤ 64) : cut w (widthMask w) = allOnes w := by
  apply eq_of_toNat_eq
  have hpos : 0 < 2 ^ w := Nat.two_pow_pos w
  rw [toNat_cut, toNat_widthMask h, toNat_allOnes, Nat.mod_eq_of_lt (by omega)]

theorem fits_widthMask (h : w ≤ 64) : Fits w (widthMask w) := by
  unfold Fits
  rw [toNat_widthMask h]
  have hpos : 0 < 2 ^ w := Nat.two_pow_pos w
  omega

theorem fits_zero : Fits w 0#64 := Nat.two_pow_pos w

theorem fits_one (h : 0 < w) : Fits w 1#64 := by
  have : 2 ^ 1 ≤ 2 ^ w := Nat.pow_le_pow_right (by decide) h
  show 1 % 2 ^ 64 < 2 ^ w
  omega

@[simp] theorem cut_zero : cut w 0#64 = 0#w := by simp [cut]

@[simp] theorem lift_zero : lift 0#w = 0#64 := by simp [lift]

@[simp] theorem cut_add (x y : U64) (h : w ≤ 64) : cut w (x + y) = cut w x + cut w y :=
  setWidth_add _ _ h

@[simp] theorem cut_mul (x y : U64) (h : w ≤ 64) : cut w (x * y) = cut w x * cut w y :=
  setWidth_mul _ _ h

@[simp] theorem cut_not (x : U64) (h : w ≤ 64) : cut w (~~~x) = ~~~cut w x :=
  setWidth_not h

@[simp] theorem cut_and (x y : U64) : cut w (x &&& y) = cut w x &&& cut w y := setWidth_and

@[simp] theorem cut_or (x y : U64) : cut w (x ||| y) = cut w x ||| cut w y := setWidth_or

@[simp] theorem cut_xor (x y : U64) : cut w (x ^^^ y) = cut w x ^^^ cut w y := setWidth_xor

@[simp] theorem cut_sub (x y : U64) (h : w ≤ 64) : cut w (x - y) = cut w x - cut w y := by
  rw [sub_eq_add_neg, neg_eq_not_add, cut_add _ _ h, cut_add _ _ h, cut_not _ h,
    sub_eq_add_neg, neg_eq_not_add]
  congr 2
  apply eq_of_toNat_eq
  simp [cut]

theorem getLsbD_widthMask (h : w ≤ 64) (i : Nat) : (widthMask w).getLsbD i = decide (i < w) := by
  rw [getLsbD, toNat_widthMask h, Nat.testBit_two_pow_sub_one]

/-! ## Signed values -/

theorem getLsbD_cut (x : U64) (i : Nat) : (cut w x).getLsbD i = (decide (i < w) && x.getLsbD i) := by
  rw [cut, getLsbD_setWidth]

theorem getLsbD_lift (h : w ≤ 64) (x : BitVec w) (i : Nat) : (lift x).getLsbD i = x.getLsbD i := by
  rw [lift, getLsbD_setWidth]
  by_cases hi : i < 64
  · simp [hi]
  · rw [getLsbD_of_ge x i (by omega)]
    simp

/-- The bits above the width repeat the sign bit. -/
theorem or_not_widthMask (h : w ≤ 64) (c : BitVec w) (hs : c.msb = true) :
    lift c ||| ~~~widthMask w = c.signExtend 64 := by
  apply eq_of_getLsbD_eq
  intro i hi
  rw [getLsbD_or, getLsbD_not, getLsbD_widthMask h, getLsbD_lift h, getLsbD_signExtend, hs]
  by_cases hw : i < w
  · simp [hi, hw]
  · simp [hi, hw]

theorem and_signBit (h0 : 0 < w) (h : w < 64) (x : U64) :
    (lift (cut w x) &&& 1#64 <<< (w - 1) ≠ 0) ↔ (cut w x).msb = true := by
  have hbit : ∀ i, (lift (cut w x) &&& 1#64 <<< (w - 1)).getLsbD i =
      (decide (i = w - 1) && (cut w x).msb) := by
    intro i
    rw [getLsbD_and, getLsbD_lift (by omega), getLsbD_shiftLeft, msb_eq_getLsbD_last]
    by_cases hi : i = w - 1
    · subst hi
      simp [show w - 1 < 64 by omega]
    · have hne : (1#64).getLsbD (i - (w - 1)) = false ∨ i < w - 1 := by
        rcases Nat.lt_or_ge i (w - 1) with hlt | hge
        · exact Or.inr hlt
        · left
          rw [getLsbD_one]
          simp
          omega
      rcases hne with hne | hlt
      · simp [hi, hne]
      · simp [hi, hlt]
  constructor
  · intro hne
    by_contra hmsb
    refine hne (eq_of_getLsbD_eq fun i _ => ?_)
    rw [hbit, Bool.not_eq_true _ |>.mp hmsb]
    simp
  · intro hmsb hzero
    have := hbit (w - 1)
    rw [hzero, hmsb] at this
    simp at this

theorem signExtendBits_eq (h0 : 0 < w) (h : w ≤ 64) (x : U64) :
    signExtendBits x w = (cut w x).toInt := by
  unfold signExtendBits
  rw [if_neg (by omega)]
  split
  · have : w = 64 := by omega
    subst this
    simp [cut]
  · rename_i hlt
    dsimp only
    rw [and_widthMask h]
    split
    · rename_i hs
      have hmsb := (and_signBit h0 (by omega) x).mp hs
      rw [or_not_widthMask h _ hmsb, toInt_signExtend_of_le h]
    · rename_i hs
      have hmsb : (cut w x).msb = false := by
        rw [← Bool.not_eq_true]
        exact fun hm => hs ((and_signBit h0 (by omega) x).mpr hm)
      have hlift : (lift (cut w x)).toNat = (cut w x).toNat := toNat_lift h _
      have hlt64 : 2 * (cut w x).toNat < 2 ^ 64 := by
        have h₂ : 2 * 2 ^ w ≤ 2 ^ 64 := by
          rw [← Nat.pow_succ']
          exact Nat.pow_le_pow_right (by decide) (by omega)
        omega
      have hmsb64 : (lift (cut w x)).msb = false := by
        rw [msb_eq_decide, hlift, decide_eq_false_iff_not]
        omega
      rw [toInt_eq_msb_cond, toInt_eq_msb_cond, hmsb, hmsb64, hlift]
      simp

theorem cut_ofInt (h : w ≤ 64) (i : Int) : cut w (BitVec.ofInt 64 i) = BitVec.ofInt w i := by
  apply BitVec.eq_of_toNat_eq
  have hdvd : ((2 ^ w : Nat) : Int) ∣ ((2 ^ 64 : Nat) : Int) :=
    Int.natCast_dvd_natCast.mpr (Nat.pow_dvd_pow 2 h)
  have hnonneg : 0 ≤ i % ((2 ^ 64 : Nat) : Int) := Int.emod_nonneg _ (by decide)
  rw [toNat_cut, toNat_ofInt, toNat_ofInt]
  apply Int.ofNat.inj
  show (((i % ((2 ^ 64 : Nat) : Int)).toNat % 2 ^ w : Nat) : Int) = ((i % ((2 ^ w : Nat) : Int)).toNat : Int)
  rw [Int.natCast_emod, Int.toNat_of_nonneg hnonneg, Int.emod_emod_of_dvd _ hdvd,
    Int.toNat_of_nonneg (Int.emod_nonneg _ (by simp))]

theorem ofInt_and_widthMask (h : w ≤ 64) (i : Int) :
    BitVec.ofInt 64 i &&& widthMask w = lift (BitVec.ofInt w i) := by
  rw [and_widthMask h, cut_ofInt h]

/-! ## Shift amounts -/

/-- The mask of shift amounts has the form `2 ^ k - 1`, where `2 ^ k` is at least the width. -/
theorem shiftMask_spec (h0 : 0 < w) (h : w ≤ 64) :
    ∃ k, k ≤ 6 ∧ shiftMask w = 2 ^ k - 1 ∧ w ≤ 2 ^ k := by
  have hall : ∀ w : Fin 65, 0 < w.val →
      ∃ k : Fin 7, shiftMask w.val = 2 ^ k.val - 1 ∧ w.val ≤ 2 ^ k.val := by decide
  obtain ⟨k, hk⟩ := hall ⟨w, by omega⟩ h0
  exact ⟨k.val, by omega, hk⟩

/-- The amount by which a value of width `w` is shifted. -/
def shiftAmount (w : Nat) (x : U64) : Nat := (x &&& BitVec.ofNat 64 (shiftMask w)).toNat

theorem shiftAmount_eq (h0 : 0 < w) (h : w ≤ 64) :
    ∃ k, k ≤ 6 ∧ w ≤ 2 ^ k ∧ ∀ x : U64, shiftAmount w x = x.toNat % 2 ^ k := by
  obtain ⟨k, hk, hmask, hle⟩ := shiftMask_spec h0 h
  refine ⟨k, hk, hle, fun x => ?_⟩
  have hlt : 2 ^ k ≤ 2 ^ 6 := Nat.pow_le_pow_right (by decide) hk
  unfold shiftAmount
  rw [toNat_and, hmask, toNat_ofNat, Nat.mod_eq_of_lt (by omega), Nat.and_two_pow_sub_one_eq_mod]

theorem shiftAmount_of_lt (h : w ≤ 64) {x : U64} (hx : x.toNat < w) :
    shiftAmount w x = x.toNat := by
  obtain ⟨k, -, hle, heq⟩ := shiftAmount_eq (w := w) (by omega) h
  rw [heq, Nat.mod_eq_of_lt (by omega)]

theorem shiftAmount_mask (w : Nat) (x : U64) :
    shiftAmount w (x &&& BitVec.ofNat 64 (shiftMask w)) = shiftAmount w x := by
  unfold shiftAmount
  rw [BitVec.and_assoc, BitVec.and_self]

theorem cut_shiftLeft (h : w ≤ 64) (x : U64) (s : Nat) : cut w (x <<< s) = cut w x <<< s := by
  apply eq_of_getLsbD_eq
  intro i hi
  rw [getLsbD_cut, getLsbD_shiftLeft, getLsbD_shiftLeft, getLsbD_cut]
  by_cases hs : i < s
  · simp [hs]
  · have h₁ : i - s < w := by omega
    have h₂ : i < 64 := by omega
    simp [hi, hs, h₁, h₂]

theorem Fits.cut_ushiftRight {x : U64} (hx : Fits w x) (s : Nat) :
    cut w (x >>> s) = cut w x >>> s := by
  apply eq_of_toNat_eq
  have hlt : x.toNat >>> s < 2 ^ w := Nat.lt_of_le_of_lt (Nat.shiftRight_le _ _) hx
  rw [toNat_ushiftRight, hx.toNat_cut, Brass.Verify.Bv.toNat_cut,
    toNat_ushiftRight, Nat.mod_eq_of_lt hlt]

/-! ## Counting bits -/

theorem findIdx_range_spec (p : Nat → Bool) (n : Nat) :
    (∀ i < (List.range n).findIdx p, p i = false) ∧
      ((List.range n).findIdx p < n → p ((List.range n).findIdx p) = true) := by
  refine ⟨fun i hi => ?_, fun hlt => ?_⟩
  · have := List.not_of_lt_findIdx hi
    simpa using this
  · have hlt' : (List.range n).findIdx p < (List.range n).length := by simpa using hlt
    simpa using List.findIdx_getElem (w := hlt')

theorem le_bits {x y : U64} (h : y ≤ x) :
    y.toNat < 2 ^ (if x = 0 then 0 else 64 - countlZero x) := by
  have hle : y.toNat ≤ x.toNat := h
  refine Nat.lt_of_le_of_lt hle ?_
  split
  · rename_i h0
    subst h0
    decide
  · obtain ⟨hzero, -⟩ := findIdx_range_spec (fun i => x.getLsbD (63 - i)) 64
    refine Nat.lt_pow_two_of_testBit _ (fun i hi => ?_)
    by_cases hi64 : i < 64
    · have := hzero (63 - i) (by unfold countlZero at hi; omega)
      rw [show 63 - (63 - i) = i by omega] at this
      exact this
    · exact getLsbD_of_ge x i (by omega)

theorem hasSingleBit_iff {x : U64} : hasSingleBit x = true ↔ ∃ k, k < 64 ∧ x = 1#64 <<< k := by
  unfold hasSingleBit
  simp [List.any_eq_true]

theorem countrZero_shiftLeft {k : Nat} (hk : k < 64) : countrZero (1#64 <<< k) = k := by
  have hall : ∀ k : Fin 64, countrZero (1#64 <<< k.val) = k.val := by decide +kernel
  exact hall ⟨k, hk⟩

theorem hasSingleBit_eq {x : U64} (h : hasSingleBit x = true) :
    countrZero x < 64 ∧ x = 1#64 <<< countrZero x ∧ x.toNat = 2 ^ countrZero x := by
  obtain ⟨k, hk, rfl⟩ := hasSingleBit_iff.mp h
  rw [countrZero_shiftLeft hk]
  refine ⟨hk, rfl, ?_⟩
  have hlt : 2 ^ k < 2 ^ 64 := Nat.pow_lt_pow_right (by decide) hk
  rw [toNat_shiftLeft, show (1#64).toNat = 1 from rfl, Nat.shiftLeft_eq, Nat.one_mul,
    Nat.mod_eq_of_lt hlt]

end Brass.Verify.Bv
