import Brass.Verify.BvShifter

/-!
# Overflow flags

The flags of the source are about the width of the operands. The concrete evaluation agrees,
except that the products of operands of 33 to 63 bits are only held against 64 bits.
-/

namespace Brass.Verify.Bv

open Brass.Util.Cnf Brass.Verify.Cdcl BitVec

variable {D : Doubles} {s t : Solver D} {β : Nat → Bool} {w : Nat} {x y : BitVec w}
  {a b : List Lit}

/-! ## Sums and differences -/

theorem carry_eq (h0 : 0 < w) (x y : BitVec w) (c : Bool) : carry w x y c =
    (x.msb && y.msb || carry (w - 1) x y c && (x.msb ^^ y.msb)) := by
  have h := carry_next x y c (w - 1)
  rwa [show w - 1 + 1 = w by omega, getLsbD_last, getLsbD_last] at h

theorem msb_sum (h0 : 0 < w) (x y : BitVec w) (c : Bool) :
    (x + y + (BitVec.ofBool c).setWidth w).msb =
      (x.msb ^^ (y.msb ^^ BitVec.carry (w - 1) x y c)) := by
  rw [← getLsbD_last, BitVec.getLsbD_add_add_bool (by omega), getLsbD_last, getLsbD_last]

theorem signed_overflow (h0 : 0 < w) (x y : BitVec w) (c : Bool) :
    (BitVec.carry w x y c ^^ BitVec.carry (w - 1) x y c) =
      ((!x.msb && !y.msb && (x + y + (BitVec.ofBool c).setWidth w).msb) ||
        (x.msb && y.msb && !(x + y + (BitVec.ofBool c).setWidth w).msb)) := by
  rw [carry_eq h0, msb_sum h0]
  cases x.msb <;> cases y.msb <;> cases BitVec.carry (w - 1) x y c <;> rfl

theorem Adds.signedOvf {c : Bool} {r : Adder} {z : BitVec w} (hr : Adds β t x y c true r)
    (ht : t.Gates) (h0 : 0 < w) (hz : x + y + (BitVec.ofBool c).setWidth w = z) :
    Runs (Circuit.mkXor r.carry r.cinLast) t
      (fun l u => Means β u l ((!x.msb && !y.msb && z.msb) || (x.msb && y.msb && !z.msb))) := by
  refine (runs_mkXor ht (hr.carry rfl) (hr.cinLast h0)).gate (fun _ => ?_)
  rw [signed_overflow h0, hz]

theorem runs_uaddOvf (hs : s.Gates) (ha : Word β s a x) (hb : Word β s b y) :
    Runs (addAdder a b falseLit true) s
      (fun r t => Means β t r.carry (decide (2 ^ w ≤ x.toNat + y.toNat))) := by
  refine (runs_addAdder hs ha hb (means_false hs) true).mono (fun r t _ _ hr => ?_)
  have hcarry := hr.carry rfl
  rwa [BitVec.carry_width] at hcarry

/-! ## Signed products -/

theorem toNat_condNeg_msb (x : BitVec w) : (condNeg x.msb x).toNat = x.toInt.natAbs := by
  have hlt := x.isLt
  cases hm : x.msb with
  | false =>
    rw [condNeg, if_neg (by decide), toInt_eq_msb_cond, hm, if_neg (by decide)]
    rfl
  | true =>
    have hpos : 0 < x.toNat := by
      by_contra hzero
      have hx : x = 0#w := eq_of_toNat_eq (by simp; omega)
      rw [hx] at hm
      simp at hm
    rw [condNeg, if_pos rfl, toInt_eq_msb_cond, hm, if_pos rfl, toNat_neg,
      Nat.mod_eq_of_lt (by omega)]
    omega

theorem toInt_mul_eq (x y : BitVec w) : x.toInt * y.toInt =
    if x.msb ^^ y.msb then -((x.toInt.natAbs * y.toInt.natAbs : Nat) : Int)
      else ((x.toInt.natAbs * y.toInt.natAbs : Nat) : Int) := by
  have habs : ∀ z : BitVec w, z.toInt = if z.msb then -(z.toInt.natAbs : Int) else z.toInt.natAbs := by
    intro z
    have hm := msb_eq_toInt (x := z)
    split
    · rename_i hneg
      rw [hneg] at hm
      have := of_decide_eq_true hm.symm
      omega
    · rename_i hpos
      rw [Bool.not_eq_true] at hpos
      rw [hpos] at hm
      have := of_decide_eq_false hm.symm
      omega
  rw [Int.natCast_mul]
  conv_lhs => rw [habs x, habs y]
  cases x.msb <;> cases y.msb <;> simp

/-- The product does not fit in the width of its factors. -/
def smulOutside (x y : BitVec w) : Bool :=
  decide (x.toInt * y.toInt < -(2 ^ (w - 1)) ∨ 2 ^ (w - 1) - 1 < x.toInt * y.toInt)

theorem testBit_last (h0 : 0 < w) {p : Nat} (hp : p < 2 ^ w) :
    p.testBit (w - 1) = decide (2 ^ (w - 1) ≤ p) := by
  have hmsb := BitVec.msb_eq_decide (BitVec.ofNat w p)
  rw [← getLsbD_last, BitVec.getLsbD_ofNat, decide_eq_true (by omega : w - 1 < w), Bool.true_and,
    toNat_ofNat, Nat.mod_eq_of_lt hp] at hmsb
  exact hmsb

theorem smulOutside_eq (h0 : 0 < w) (x y : BitVec w) {p : Nat}
    (hp : x.toInt.natAbs * y.toInt.natAbs = p) :
    smulOutside x y = (decide (2 ^ w ≤ p) || ((p % 2 ^ w).testBit (w - 1) &&
      (!(x.msb ^^ y.msb) || decide (p % 2 ^ w % 2 ^ (w - 1) ≠ 0)))) := by
  have hpow : 2 ^ w = 2 * 2 ^ (w - 1) := by
    rw [← Nat.pow_succ']
    congr 1
    omega
  have hcast : ((2 : Int) ^ (w - 1)) = ((2 ^ (w - 1) : Nat) : Int) := by push_cast; rfl
  unfold smulOutside
  rw [toInt_mul_eq, hp, hcast]
  by_cases hbig : 2 ^ w ≤ p
  · rw [decide_eq_true hbig, Bool.true_or, decide_eq_true]
    split <;> omega
  · have hlt : p < 2 ^ w := by omega
    rw [decide_eq_false hbig, Bool.false_or, Nat.mod_eq_of_lt hlt, testBit_last h0 hlt]
    by_cases hhalf : 2 ^ (w - 1) ≤ p
    · -- The one product that fits is the least number, of factors with different signs.
      have hmod : p % 2 ^ (w - 1) = p - 2 ^ (w - 1) := by
        rw [Nat.mod_eq_sub_mod hhalf, Nat.mod_eq_of_lt (by omega)]
      rw [decide_eq_true hhalf, Bool.true_and, hmod]
      cases x.msb ^^ y.msb with
      | false => simp; omega
      | true =>
        rw [if_pos rfl, Bool.not_true, Bool.false_or]
        refine decide_eq_decide.mpr ?_
        omega
    · rw [decide_eq_false hhalf, Bool.false_and, decide_eq_false]
      split <;> omega

theorem runs_blastSmulOvf (hs : s.Gates) (h0 : 0 < w) (ha : Word β s a x) (hb : Word β s b y) :
    Runs (blastSmulOvf a b) s (fun l t => Means β t l (smulOutside x y)) := by
  have hsa : Means β s (bitAt a (w - 1)) x.msb := getLsbD_last x ▸ ha.bit (w - 1)
  have hsb : Means β s (bitAt b (w - 1)) y.msb := getLsbD_last y ▸ hb.bit (w - 1)
  unfold blastSmulOvf
  rw [ha.length]
  refine runs_bind (runs_blastCondNeg hs ha hsa) (fun absA t ht hst hA => ?_)
  refine runs_bind (runs_blastCondNeg ht (hb.mono hst) (hsb.mono hst)) (fun absB u hu htu hB => ?_)
  refine runs_bind (runs_blastUmul hu (hA.mono htu) hB) (fun prod v hv huv hprod => ?_)
  obtain ⟨hword, hlost⟩ := hprod
  have hsv := hst.trans (htu.trans huv)
  refine runs_bind (runs_mkXor hv (hsa.mono hsv) (hsb.mono hsv)) (fun diff v₁ h₁ e₁ hdiff => ?_)
  refine runs_bind (runs_nonzero h₁ (hword.mono e₁) (w - 1)) (fun lowNz v₂ h₂ e₂ hlow => ?_)
  refine runs_bind (runs_mkOr h₂ (hdiff.mono e₂).neg hlow) (fun bad v₃ h₃ e₃ hbad => ?_)
  refine runs_bind (runs_mkAnd h₃ ((hword.bit (w - 1)).mono (e₁.trans (e₂.trans e₃))) hbad)
    (fun msbBad v₄ h₄ e₄ hmsb => ?_)
  refine (runs_mkOr h₄ (hlost.mono (e₁.trans (e₂.trans (e₃.trans e₄)))) hmsb).gate (fun _ => ?_)
  rw [smulOutside_eq h0 x y rfl, getLsbD, toNat_mul, toNat_condNeg_msb, toNat_condNeg_msb]

end Brass.Verify.Bv
