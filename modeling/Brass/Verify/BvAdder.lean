import Brass.Verify.BvCircuit

/-!
# The adder and what is built from it

Sums, negation, comparisons, products and quotients of words.
-/

namespace Brass.Verify.Bv

open Brass.Util.Cnf Brass.Verify.Cdcl BitVec

variable {D : Doubles} {s t : Solver D} {β : Nat → Bool} {w : Nat} {x y : BitVec w}
  {a b : List Lit}

/-! ## Addition -/

variable {c wantCout : Bool} {r : Adder}

/-- The result of `add_adder` on `x` and `y` with the carry `c`. -/
structure Adds (β : Nat → Bool) (t : Solver D) (x y : BitVec w) (c wantCout : Bool) (r : Adder) :
    Prop where
  sum : Word β t r.sum (x + y + (BitVec.ofBool c).setWidth w)
  carry : wantCout = true → Means β t r.carry (BitVec.carry w x y c)
  cinLast : 0 < w → Means β t r.cinLast (BitVec.carry (w - 1) x y c)

/-- The state of the adder after the bits below `i`. -/
structure AddedBits (β : Nat → Bool) (x y : BitVec w) (c wantCout : Bool) (i : Nat) (r : Adder)
    (t : Solver D) : Prop where
  length : r.sum.length = i
  sum : ∀ j < i, Means β t (bitAt r.sum j)
    (x.getLsbD j ^^ (y.getLsbD j ^^ BitVec.carry j x y c))
  carry : i < w ∨ wantCout = true → Means β t r.carry (BitVec.carry i x y c)
  cinLast : i = w → 0 < w → Means β t r.cinLast (BitVec.carry (w - 1) x y c)

theorem carry_next (x y : BitVec w) (c : Bool) (i : Nat) : carry (i + 1) x y c =
    (x.getLsbD i && y.getLsbD i || carry i x y c && (x.getLsbD i ^^ y.getLsbD i)) := by
  rw [carry_succ, Bool.atLeastTwo]
  cases x.getLsbD i <;> cases y.getLsbD i <;> cases carry i x y c <;> rfl

theorem AddedBits.sum_next {i : Nat} {l : Lit} {u : Solver D}
    (h : AddedBits β x y c wantCout i r t) (htu : t.Conservative u)
    (hl : Means β u l (x.getLsbD i ^^ (y.getLsbD i ^^ BitVec.carry i x y c))) :
    ∀ j < i + 1, Means β u (bitAt (r.sum ++ [l]) j)
      (x.getLsbD j ^^ (y.getLsbD j ^^ BitVec.carry j x y c)) := by
  intro j hj
  have hlen := h.length
  by_cases hji : j < i
  · rw [bitAt_append_left (by omega)]
    exact (h.sum j hji).mono htu
  · obtain rfl : j = r.sum.length := by omega
    rw [bitAt_append_length]
    rwa [hlen]

theorem runs_addBit (ht : t.Gates) (ha : Word β t a x) (hb : Word β t b y) {i : Nat} (hi : i < w)
    (h : AddedBits β x y c wantCout i r t) :
    Runs (addBit a b w wantCout i r) t (AddedBits β x y c wantCout (i + 1)) := by
  have hcarry := h.carry (Or.inl hi)
  have hlen := h.length
  refine runs_bind (runs_mkXor ht (ha.bit i) (hb.bit i)) (fun axb t₁ h₁ e₁ haxb => ?_)
  refine runs_bind (runs_mkXor h₁ haxb (hcarry.mono e₁)) (fun l t₂ h₂ e₂ hl => ?_)
  have e := e₁.trans e₂
  rw [Bool.xor_assoc] at hl
  have hcin : i + 1 = w → 0 < w →
      Means β t₂ (if i + 1 = w then r.carry else r.cinLast) (carry (w - 1) x y c) := by
    intro hw _
    rw [if_pos hw, show w - 1 = i by omega]
    exact hcarry.mono e
  split
  · refine runs_bind (runs_mkAnd h₂ ((ha.bit i).mono e) ((hb.bit i).mono e))
      (fun ab t₃ h₃ e₃ hab => ?_)
    refine runs_bind (runs_mkAnd h₃ (hcarry.mono (e.trans e₃)) (haxb.mono (e₂.trans e₃)))
      (fun cab t₄ h₄ e₄ hcab => ?_)
    refine runs_bind (runs_mkOr h₄ (hab.mono e₄) hcab) (fun out t₅ h₅ e₅ hout => runs_pure h₅ ?_)
    have e' := e₃.trans (e₄.trans e₅)
    refine ⟨by simp [hlen], h.sum_next (e.trans e') (hl.mono e'), fun _ => ?_, fun hw h0 => ?_⟩
    · rw [carry_next]
      exact hout
    · exact (hcin hw h0).mono e'
  · rename_i hlast
    refine runs_pure h₂ ⟨by simp [hlen], h.sum_next e hl, fun hmore => ?_, hcin⟩
    exact absurd hmore hlast

theorem runs_addAdder (hs : s.Gates) (ha : Word β s a x) (hb : Word β s b y) {cin : Lit}
    (hc : Means β s cin c) (wantCout : Bool) :
    Runs (addAdder a b cin wantCout) s (fun r t => Adds β t x y c wantCout r) := by
  unfold addAdder
  rw [ha.length, hb.length, Nat.max_self]
  have hinit : AddedBits β x y c wantCout 0 ⟨[], cin, falseLit⟩ s := by
    refine ⟨rfl, by simp, fun _ => ?_, fun h h0 => by omega⟩
    rwa [carry_zero]
  refine (runs_loop (fun i r t => AddedBits β x y c wantCout i r t) hs hinit
    (fun i r t hi ht hst h => runs_addBit ht (ha.mono hst) (hb.mono hst) hi h)).mono
    (fun r t ht _ h => ⟨?_, fun hw => h.carry (Or.inr hw), h.cinLast rfl⟩)
  refine word_of_lt ht h.length (fun i hi => ?_)
  rw [getLsbD_add_add_bool hi]
  exact h.sum i hi

theorem Adds.word {z : BitVec w} (h : Adds β t x y c wantCout r)
    (hz : x + y + (BitVec.ofBool c).setWidth w = z) : Word β t r.sum z := hz ▸ h.sum

theorem setWidth_ofBool_false : (BitVec.ofBool false).setWidth w = 0#w := by simp

theorem setWidth_ofBool_true : (BitVec.ofBool true).setWidth w = 1#w := by
  apply BitVec.eq_of_toNat_eq
  simp

theorem runs_sum (hs : s.Gates) (ha : Word β s a x) (hb : Word β s b y) {cin : Lit}
    (hc : Means β s cin c) {z : BitVec w} (hz : x + y + (BitVec.ofBool c).setWidth w = z) :
    Runs (addAdder a b cin false) s (fun r t => Word β t r.sum z) :=
  (runs_addAdder hs ha hb hc false).mono (fun _ _ _ _ h => h.word hz)

theorem runs_add (hs : s.Gates) (ha : Word β s a x) (hb : Word β s b y) :
    Runs (addAdder a b falseLit false) s (fun r t => Word β t r.sum (x + y)) :=
  runs_sum hs ha hb (means_false hs) (by rw [setWidth_ofBool_false, BitVec.add_zero])

theorem sub_eq_add_not (x y : BitVec w) : x + ~~~y + (BitVec.ofBool true).setWidth w = x - y := by
  rw [setWidth_ofBool_true, BitVec.sub_eq_add_neg, BitVec.neg_eq_not_add, BitVec.add_assoc]

def condNeg (c : Bool) (x : BitVec w) : BitVec w := if c then -x else x

theorem runs_blastCondNeg (hs : s.Gates) (ha : Word β s a x) {cond : Lit} (hc : Means β s cond c) :
    Runs (blastCondNeg a cond) s (fun out t => Word β t out (condNeg c x)) := by
  have hflip : Runs (Circuit.build (fun i => Circuit.mkXor (bitAt a i) cond) a.length) s
      (fun ls t => Word β t ls (if c then ~~~x else x)) := by
    rw [ha.length]
    refine runs_build hs (fun i t hi ht hst => ?_)
    refine (runs_mkXor ht ((ha.bit i).mono hst) (hc.mono hst)).gate (fun _ => ?_)
    cases c <;> simp [hi]
  refine runs_bind hflip (fun flipped t ht hst hfl => ?_)
  rw [ha.length]
  refine runs_bind (runs_sum ht hfl (word_zeros ht w) (hc.mono hst) ?_)
    (fun r u hu _ hr => runs_pure hu hr)
  cases c with
  | false => simp [condNeg]
  | true =>
    simp only [condNeg, if_true]
    rw [BitVec.add_zero, setWidth_ofBool_true, BitVec.neg_eq_not_add]

/-! ## Comparison -/

theorem runs_blastUlt (hs : s.Gates) (ha : Word β s a x) (hb : Word β s b y) :
    Runs (blastUlt a b) s (fun l t => Means β t l (x.ult y)) := by
  unfold blastUlt
  rw [ha.length, hb.length, Nat.max_self]
  refine runs_bind (runs_addAdder hs ha (hb.not hs) (means_true hs) true)
    (fun r t ht _ hr => runs_pure ht ?_)
  rw [ult_eq_not_carry]
  exact (hr.carry rfl).neg

theorem toNat_flip (h0 : 0 < w) (x : BitVec w) :
    (x ^^^ twoPow w (w - 1)).toNat = (x.toNat + 2 ^ (w - 1)) % 2 ^ w := by
  have hpow : 2 ^ (w - 1) < 2 ^ w := Nat.pow_lt_pow_right (by omega) (by omega)
  have hadd : x ^^^ twoPow w (w - 1) = x + twoPow w (w - 1) := by
    apply eq_of_getLsbD_eq
    intro i hi
    have hsum : (x + twoPow w (w - 1)).getLsbD i = (2 ^ (w - 1) + x.toNat).testBit i := by
      rw [getLsbD, toNat_add, toNat_twoPow, Nat.mod_eq_of_lt hpow,
        Nat.testBit_mod_two_pow, Nat.add_comm, decide_eq_true hi, Bool.true_and]
    rw [hsum, getLsbD_xor, getLsbD_twoPow, decide_eq_true (by omega : w - 1 < w), Bool.true_and]
    by_cases hlast : w - 1 = i
    · rw [hlast, Nat.testBit_two_pow_add_eq]
      simp [getLsbD]
    · rw [Nat.testBit_two_pow_add_gt (by omega)]
      simp [getLsbD, hlast]
  rw [hadd, toNat_add, toNat_twoPow, Nat.mod_eq_of_lt hpow]

/-- The order of signed numbers is the unsigned order after the sign bit is flipped. -/
theorem ult_flip (h0 : 0 < w) (x y : BitVec w) :
    (x ^^^ twoPow w (w - 1)).ult (y ^^^ twoPow w (w - 1)) = x.slt y := by
  have hpow : 2 ^ w = 2 * 2 ^ (w - 1) := by
    rw [← Nat.pow_succ']
    congr 1
    omega
  have hflip : ∀ z : BitVec w, ((z ^^^ twoPow w (w - 1)).toNat : Int) = z.toInt + 2 ^ (w - 1) := by
    intro z
    have hz := z.isLt
    rw [toNat_flip h0, toInt_eq_toNat_cond]
    by_cases hsmall : 2 * z.toNat < 2 ^ w
    · rw [if_pos hsmall, Nat.mod_eq_of_lt (by omega)]
      push_cast
      rfl
    · rw [if_neg hsmall, Nat.mod_eq_sub_mod (by omega), Nat.mod_eq_of_lt (by omega), hpow]
      have hle : 2 * 2 ^ (w - 1) ≤ z.toNat + 2 ^ (w - 1) := by omega
      rw [Int.ofNat_sub hle]
      push_cast
      omega
  rw [Bool.eq_iff_iff, ult_iff_lt, lt_def, slt_iff_toInt_lt]
  have hx := hflip x
  have hy := hflip y
  omega

theorem Word.flipSign (h : Word β s a x) (hs : s.Gates) (h0 : 0 < w) :
    Word β s (flipSign a w) (x ^^^ twoPow w (w - 1)) := by
  unfold Bv.flipSign
  refine word_of_lt hs (by simp) (fun i hi => ?_)
  rw [bitAt_set (by simp; omega), getLsbD_xor, getLsbD_twoPow,
    bitAt_map_range hi, bitAt_map_range (by omega)]
  by_cases hlast : w - 1 = i
  · subst hlast
    simpa [hi] using (h.bit (w - 1)).neg
  · simpa [hlast] using h.bit i

theorem runs_blastSlt (hs : s.Gates) (h0 : 0 < w) (ha : Word β s a x) (hb : Word β s b y) :
    Runs (blastSlt a b) s (fun l t => Means β t l (x.slt y)) := by
  unfold blastSlt
  rw [ha.length, hb.length, Nat.max_self, if_neg (by omega), ← ult_flip h0]
  exact runs_blastUlt hs (ha.flipSign hs h0) (hb.flipSign hs h0)

theorem runs_blastEq (hs : s.Gates) (ha : Word β s a x) (hb : Word β s b y) :
    Runs (blastEq a b) s (fun l t => Means β t l (x == y)) := by
  unfold blastEq
  rw [ha.length, hb.length, Nat.max_self]
  refine ((runs_loop (fun i l t => Means β t l
    (decide (∀ j < i, x.getLsbD j = y.getLsbD j))) hs ?_ (fun i acc t hi ht hst hacc => ?_)).gate
      (fun _ => ?_))
  · simpa using means_true hs
  · refine runs_bind (runs_mkXor ht ((ha.bit i).mono hst) ((hb.bit i).mono hst))
      (fun l u hu htu hl => ?_)
    refine (runs_mkAnd hu (hacc.mono htu) hl.neg).gate (fun _ => ?_)
    rw [Bool.eq_iff_iff]
    simp only [Bool.and_eq_true, decide_eq_true_eq, Bool.not_eq_true', bne_eq_false_iff_eq,
      Nat.lt_succ_iff_lt_or_eq, or_imp, forall_and, forall_eq]
  · rw [Bool.eq_iff_iff, decide_eq_true_eq, beq_iff_eq]
    exact ⟨eq_of_getLsbD_eq, fun h j _ => by rw [h]⟩

end Brass.Verify.Bv
