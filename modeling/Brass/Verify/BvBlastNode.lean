import Brass.Verify.BvOverflow
import Brass.Verify.BvTable

/-!
# The circuit of a node

`circuitOp` is what the circuit of a node computes from the values of its operands. It is
the concrete evaluation, but for the flags of products of operands that are wider than 32
bits (`circuitOp_eq`).
-/

namespace Brass.Verify.Bv

open Brass.Util.Cnf Brass.Verify.Cdcl

variable {D : Doubles} {s t : Solver D} {β : Nat → Bool} {n : BVNode} {width : Nat → Nat}
  {ba bb bc : List Lit} {va vb vc : U64}

/-! ## What circuits compute -/

def circuitOp (n : BVNode) (aw bw : Nat) (va vb vc : U64) : U64 :=
  match n.op with
  | .umulOvf => ofBool (decide (2 ^ aw ≤ va.toNat * vb.toNat))
  | .smulOvf => ofBool (smulOutside (cut aw va) (cut aw vb))
  | _ => evalOp n aw bw va vb vc

/-- The product leaves the width of its operands, but not the 64 bits that the concrete
evaluation looks at. -/
def missesOverflow (op : BVOp) (aw : Nat) (va vb : U64) : Bool :=
  match op with
  | .umulOvf => decide (32 < aw) && decide (2 ^ aw ≤ va.toNat * vb.toNat) && !mulU64Overflow va vb
  | .smulOvf =>
    decide (32 < aw) && smulOutside (cut aw va) (cut aw vb) &&
      !mulS64Overflow (signExtendBits va aw) (signExtendBits vb aw)
  | _ => false

theorem missesOverflow_eq_false {aw : Nat} (h0 : 0 < aw) (haw : aw ≤ 32 ∨ aw = 64) (op : BVOp)
    (va vb : U64) : missesOverflow op aw va vb = false := by
  unfold missesOverflow
  rcases haw with haw | rfl
  · have hsmall : decide (32 < aw) = false := decide_eq_false (by omega)
    split <;> simp only [hsmall, Bool.false_and]
  · split
    · have := mulU64Overflow_iff va vb
      by_cases hm : mulU64Overflow va vb = true
      · rw [hm]
        simp
      · rw [decide_eq_false (fun hle => hm (this.mpr hle))]
        simp
    · have := mulS64Overflow_iff (signExtendBits va 64) (signExtendBits vb 64)
      rw [signExtendBits_eq h0 (by omega), signExtendBits_eq h0 (by omega)] at this ⊢
      by_cases hm : mulS64Overflow (cut 64 va).toInt (cut 64 vb).toInt = true
      · rw [hm]
        simp
      · rw [smulOutside, decide_eq_false (fun hout => hm (this.mpr hout))]
        simp
    · rfl

theorem umulOvf_small {aw : Nat} (haw : aw ≤ 32) (ha : Fits aw va) (hb : Fits aw vb) :
    decide (va * vb > widthMask aw) = decide (2 ^ aw ≤ va.toNat * vb.toNat) := by
  have hpow : 2 ^ aw ≤ 2 ^ 32 := Nat.pow_le_pow_right (by decide) haw
  have hpos := Nat.two_pow_pos aw
  have hlt : va.toNat * vb.toNat < 2 ^ 64 := by
    have h₁ : va.toNat * vb.toNat < 2 ^ aw * 2 ^ aw := Nat.mul_lt_mul'' ha hb
    have h₂ : 2 ^ aw * 2 ^ aw ≤ 2 ^ 32 * 2 ^ 32 := Nat.mul_le_mul hpow hpow
    omega
  refine decide_eq_decide.mpr ?_
  rw [gt_iff_lt, BitVec.lt_def, toNat_widthMask (by omega), BitVec.toNat_mul, Nat.mod_eq_of_lt hlt]
  omega

theorem circuitOp_eq {aw bw : Nat} (h0 : 0 < aw) (haw : aw ≤ 64) (ha : Fits aw va)
    (hb : Fits aw vb) (h : missesOverflow n.op aw va vb = false) :
    circuitOp n aw bw va vb vc = evalOp n aw bw va vb vc := by
  cases hop : n.op <;> rw [hop] at h <;> simp only [circuitOp, hop, evalOp]
  case umulOvf =>
    by_cases hsmall : aw ≤ 32
    · rw [if_pos hsmall, umulOvf_small hsmall ha hb]
    · rw [if_neg hsmall]
      have hover := mulU64Overflow_iff va vb
      simp only [missesOverflow, decide_eq_true (by omega : 32 < aw), Bool.true_and] at h
      congr 1
      cases hm : mulU64Overflow va vb with
      | false =>
        rw [hm, Bool.not_false, Bool.and_true] at h
        exact h
      | true =>
        have hle : 2 ^ aw ≤ 2 ^ 64 := pow_le_64 haw
        have := hover.mp hm
        exact decide_eq_true (by omega)
  case smulOvf =>
    rw [signExtendBits_eq h0 haw, signExtendBits_eq h0 haw]
    by_cases hsmall : aw ≤ 32
    · rw [if_pos hsmall]
      rfl
    · rw [if_neg hsmall]
      have hover := mulS64Overflow_iff (cut aw va).toInt (cut aw vb).toInt
      simp only [missesOverflow, decide_eq_true (by omega : 32 < aw), Bool.true_and,
        signExtendBits_eq h0 haw] at h
      congr 1
      cases hm : mulS64Overflow (cut aw va).toInt (cut aw vb).toInt with
      | false =>
        rw [hm, Bool.not_false, Bool.and_true] at h
        exact h
      | true =>
        have hle : (2 : Int) ^ (aw - 1) ≤ 2 ^ 63 := by
          have : (2 : Nat) ^ (aw - 1) ≤ 2 ^ 63 := Nat.pow_le_pow_right (by decide) (by omega)
          exact_mod_cast this
        have := hover.mp hm
        exact decide_eq_true (by omega)

/-! ## Predicates of the evaluation -/

section Predicates

variable {aw : Nat}

def isOverflow (op : BVOp) : Bool :=
  op == .saddOvf || op == .ssubOvf || op == .smulOvf || op == .uaddOvf || op == .usubOvf ||
    op == .umulOvf

theorem ult_cut (ha : Fits aw va) (hb : Fits aw vb) :
    (cut aw va).ult (cut aw vb) = decide (va < vb) := by
  rw [BitVec.ult, ha.toNat_cut, hb.toNat_cut]
  rfl

theorem slt_cut (h0 : 0 < aw) (h : aw ≤ 64) :
    (cut aw va).slt (cut aw vb) = decide (signExtendBits va aw < signExtendBits vb aw) := by
  rw [signExtendBits_eq h0 h, signExtendBits_eq h0 h]
  rfl

theorem beq_cut (ha : Fits aw va) (hb : Fits aw vb) : (cut aw va == cut aw vb) = (va == vb) := by
  rw [Bool.eq_iff_iff, beq_iff_eq, beq_iff_eq]
  exact ⟨fun h => ha.ext hb h, fun h => by rw [h]⟩

theorem signs_iff (x y z : BitVec aw) :
    decide ((x.toInt ≥ 0 ∧ y.toInt ≥ 0 ∧ z.toInt < 0) ∨ (x.toInt < 0 ∧ y.toInt < 0 ∧ z.toInt ≥ 0)) =
      ((!x.msb && !y.msb && z.msb) || (x.msb && y.msb && !z.msb)) := by
  rw [BitVec.msb_eq_toInt, BitVec.msb_eq_toInt, BitVec.msb_eq_toInt, Bool.eq_iff_iff]
  simp [Bool.and_eq_true, Bool.or_eq_true, and_assoc]

theorem signs_sub_iff (h0 : 0 < aw) (x y z : BitVec aw) :
    decide ((x.toInt ≥ 0 ∧ y.toInt < 0 ∧ z.toInt < 0) ∨ (x.toInt < 0 ∧ y.toInt ≥ 0 ∧ z.toInt ≥ 0)) =
      ((!x.msb && !(~~~y).msb && z.msb) || (x.msb && (~~~y).msb && !z.msb)) := by
  rw [BitVec.msb_not, decide_eq_true h0, Bool.true_and, BitVec.msb_eq_toInt, BitVec.msb_eq_toInt,
    BitVec.msb_eq_toInt, Bool.eq_iff_iff]
  simp [Bool.and_eq_true, Bool.or_eq_true, and_assoc]

end Predicates

/-! ## Operands -/

/-- The literals of an operand, and its value. -/
structure Operand (β : Nat → Bool) (s : Solver D) (ls : List Lit) (w : Nat) (v : U64) : Prop where
  fits : Fits w v
  pos : 0 < w
  le : w ≤ 64
  word : Word β s ls (cut w v)

theorem word_predicate (hs : s.Gates) {l : Lit} {b : Bool} {v : U64} (hw : n.width = 1)
    (hl : Means β s l b) (hv : v = ofBool b) :
    Word β s ((zeros n.width).set 0 l) (cut n.width v) := by
  rw [hw, hv, cut_ofBool]
  exact word_flag hs hl

theorem runs_flag {p : Circuit D Lit} {b : Bool} {v : U64} (hw : n.width = 1)
    (hp : Runs p s (fun l t => Means β t l b)) (hv : v = ofBool b) :
    Runs (do
      let l ← p
      pure ((zeros n.width).set 0 l)) s (fun out t => Word β t out (cut n.width v)) :=
  runs_bind hp (fun _ _ ht _ hl => runs_pure ht (word_predicate ht hw hl hv))

theorem runs_flag_neg {p : Circuit D Lit} {b : Bool} {v : U64} (hw : n.width = 1)
    (hp : Runs p s (fun l t => Means β t l b)) (hv : v = ofBool !b) :
    Runs (do
      let l ← p
      pure ((zeros n.width).set 0 l.neg)) s (fun out t => Word β t out (cut n.width v)) :=
  runs_bind hp (fun _ _ ht _ hl => runs_pure ht (word_predicate ht hw hl.neg hv))

theorem cut_evalOp_lift {w : Nat} (h : w ≤ 64) {v : U64} {x : BitVec w} (hv : v = lift x) :
    x = cut w v := by rw [hv, cut_lift h]

section Node

variable {aw bw cw : Nat} (hs : s.Gates) (ha : Operand β s ba aw va) (hb : Operand β s bb bw vb)
  (hc : Operand β s bc cw vc)

include hs ha

/-! ## Parts and extensions -/

theorem runs_blastExtract (hop : n.op = .extract) (h : n.width ≤ 64) : Runs (blastNode n ba bb bc) s
      (fun out t => Word β t out (cut n.width (evalOp n aw bw va vb vc))) := by
  unfold blastNode
  rw [hop]
  refine runs_pure hs ((word_map hs (fun i hi => ?_)).congr
    (fun _ => cut_evalOp_lift h (evalOp_extract hop rfl h)))
  have hbit := ha.word.bit (n.extra + i)
  rw [getLsbD_cut] at hbit
  rw [getLsbD_cut, decide_eq_true hi, Bool.true_and, BitVec.getLsbD_ushiftRight]
  by_cases hin : n.extra + i < aw
  · rwa [decide_eq_true hin, Bool.true_and] at hbit
  · have hzero : va.getLsbD (n.extra + i) = false :=
      Nat.testBit_lt_two_pow (lt_of_lt_of_le ha.fits (Nat.pow_le_pow_right (by decide) (by omega)))
    rw [hzero, Bool.and_false] at hbit
    rwa [hzero]

theorem runs_blastZext (hop : n.op = .zext) (h : n.width ≤ 64) (haw : aw ≤ n.width) :
    Runs (blastNode n ba bb bc) s
      (fun out t => Word β t out (cut n.width (evalOp n aw bw va vb vc))) := by
  unfold blastNode
  rw [hop, evalOp_zext hop rfl h ha.fits haw]
  refine runs_pure hs (word_map hs (fun i hi => ?_))
  have hbit := ha.word.bit i
  rw [getLsbD_cut] at hbit ⊢
  rw [decide_eq_true hi, Bool.true_and]
  by_cases hin : i < aw
  · rwa [decide_eq_true hin, Bool.true_and] at hbit
  · have hzero : va.getLsbD i = false :=
      Nat.testBit_lt_two_pow (lt_of_lt_of_le ha.fits (Nat.pow_le_pow_right (by decide) (by omega)))
    rw [hzero, Bool.and_false] at hbit
    rwa [hzero]

theorem runs_blastSext (hop : n.op = .sext) (h : n.width ≤ 64) (haw : aw ≤ n.width) :
    Runs (blastNode n ba bb bc) s
      (fun out t => Word β t out (cut n.width (evalOp n aw bw va vb vc))) := by
  unfold blastNode
  rw [hop]
  refine runs_pure hs ((word_map hs (fun i hi => ?_)).congr
    (fun _ => cut_evalOp_lift h (evalOp_sext hop rfl h ha.pos haw)))
  rw [BitVec.getLsbD_signExtend, decide_eq_true hi, Bool.true_and, ha.word.length]
  split
  · exact ha.word.bit i
  · rw [← getLsbD_last]
    exact ha.word.bit (aw - 1)

include hb in
theorem runs_blastConcat (hop : n.op = .concat) (hw : n.width = aw + bw) (h : n.width ≤ 64) :
    Runs (blastNode n ba bb bc) s
      (fun out t => Word β t out (cut n.width (evalOp n aw bw va vb vc))) := by
  have hval : evalOp n aw bw va vb vc = lift (cut aw va ++ cut bw vb) :=
    evalOp_concat hop hw (hw ▸ h)
  unfold blastNode
  rw [hop]
  dsimp only
  rw [hw] at h ⊢
  refine runs_pure hs ((word_map hs (fun i hi => ?_)).congr (fun _ => cut_evalOp_lift h hval))
  rw [BitVec.getLsbD_append, hb.word.length]
  split
  · exact hb.word.bit i
  · exact ha.word.bit (i - bw)

/-! ## Words of one width -/

include hb in
theorem runs_blastArith (hop : isArith n.op = true) (haw : aw = n.width) (hbw : bw = n.width) :
    Runs (blastNode n ba bb bc) s
      (fun out t => Word β t out (cut n.width (evalOp n aw bw va vb vc))) := by
  subst haw
  subst hbw
  obtain ⟨hfa, h0, h, hwa⟩ := ha
  obtain ⟨hfb, -, -, hwb⟩ := hb
  rw [evalOp_arith hop rfl h0 h hfa hfb, cut_lift h]
  unfold blastNode
  cases hn : n.op <;> rw [hn] at hop <;> first | exact absurd hop (by decide) | skip
  case and =>
    refine runs_build hs (fun i t hi ht hst => ?_)
    refine (runs_mkAnd ht ((hwa.bit i).mono hst) ((hwb.bit i).mono hst)).gate (fun _ => ?_)
    exact (BitVec.getLsbD_and ..).symm
  case or =>
    refine runs_build hs (fun i t hi ht hst => ?_)
    refine (runs_mkOr ht ((hwa.bit i).mono hst) ((hwb.bit i).mono hst)).gate (fun _ => ?_)
    exact (BitVec.getLsbD_or ..).symm
  case xor =>
    refine runs_build hs (fun i t hi ht hst => ?_)
    refine (runs_mkXor ht ((hwa.bit i).mono hst) ((hwb.bit i).mono hst)).gate (fun _ => ?_)
    exact (BitVec.getLsbD_xor ..).symm
  case add => exact runs_bind (runs_add hs hwa hwb) (fun r t ht _ hr => runs_pure ht hr)
  case sub =>
    exact runs_bind (runs_sum hs hwa (hwb.not hs) (means_true hs) (sub_eq_add_not _ _))
      (fun r t ht _ hr => runs_pure ht hr)
  case mul => exact runs_blastMul hs hwa hwb
  case udiv => exact runs_bind (runs_blastUdivUrem hs hwa hwb) (fun r t ht _ hr => runs_pure ht hr.1)
  case urem => exact runs_bind (runs_blastUdivUrem hs hwa hwb) (fun r t ht _ hr => runs_pure ht hr.2)
  case sdiv => exact runs_blastSigned hs hwa hwb .sdiv
  case srem => exact runs_blastSigned hs hwa hwb .srem

theorem runs_blastNot (hop : n.op = .not) (haw : aw = n.width) : Runs (blastNode n ba bb bc) s
      (fun out t => Word β t out (cut n.width (evalOp n aw bw va vb vc))) := by
  subst haw
  rw [evalOp_not hop rfl ha.le, cut_lift ha.le]
  unfold blastNode
  rw [hop]
  exact runs_pure hs (ha.word.not hs)

theorem runs_blastNeg (hop : n.op = .neg) (haw : aw = n.width) : Runs (blastNode n ba bb bc) s
      (fun out t => Word β t out (cut n.width (evalOp n aw bw va vb vc))) := by
  subst haw
  rw [evalOp_neg hop rfl ha.le, cut_lift ha.le]
  unfold blastNode
  rw [hop]
  exact runs_blastCondNeg hs ha.word (means_true hs)

include hb in
theorem runs_blastShiftNode (hop : isShift n.op = true) (haw : aw = n.width) :
    Runs (blastNode n ba bb bc) s
      (fun out t => Word β t out (cut n.width (evalOp n aw bw va vb vc))) := by
  subst haw
  have hmask : shiftMask n.width < 2 ^ 64 := by
    obtain ⟨k, hk, hmask, -⟩ := shiftMask_spec ha.pos ha.le
    have hle : 2 ^ k ≤ 2 ^ 6 := Nat.pow_le_pow_right (by decide) hk
    omega
  have hamount : shiftAmount n.width vb = (cut bw vb).toNat &&& shiftMask n.width := by
    rw [shiftAmount, BitVec.toNat_and, BitVec.toNat_ofNat, Nat.mod_eq_of_lt hmask, hb.fits.toNat_cut]
  rw [evalOp_shift hop rfl ha.pos ha.le ha.fits, cut_lift ha.le, hamount]
  unfold blastNode
  cases hn : n.op <;> rw [hn] at hop <;> first | exact absurd hop (by decide) | skip
  case shl => exact runs_blastShift hs hop ha.pos ha.le ha.word hb.word
  case lshr => exact runs_blastShift hs hop ha.pos ha.le ha.word hb.word
  case ashr => exact runs_blastShift hs hop ha.pos ha.le ha.word hb.word

include hb hc in
theorem runs_blastIte (hop : n.op = .ite) (haw : aw = 1) (hbw : bw = n.width) (hcw : cw = n.width) :
    Runs (blastNode n ba bb bc) s
      (fun out t => Word β t out (cut n.width (evalOp n aw bw va vb vc))) := by
  subst haw
  subst hbw
  subst hcw
  rw [evalOp_ite hop rfl hb.le hb.fits hc.fits]
  have hcond : (cut 1 va).getLsbD 0 = !decide (va = 0#64) := by
    have hlt : va.toNat < 2 := ha.fits
    rw [BitVec.getLsbD, toNat_cut, Nat.mod_eq_of_lt ha.fits, Nat.testBit_zero]
    by_cases hva : va = 0#64
    · simp [hva]
    · have hne : va.toNat ≠ 0 := fun h0 => hva (BitVec.eq_of_toNat_eq h0)
      rw [decide_eq_false hva, show va.toNat = 1 by omega]
      rfl
  unfold blastNode
  rw [hop]
  refine runs_build hs (fun i t hi ht hst => ?_)
  refine (runs_mkIte ht ((ha.word.bit 0).mono hst) ((hb.word.bit i).mono hst)
    ((hc.word.bit i).mono hst)).gate (fun _ => ?_)
  rw [hcond]
  by_cases hva : va = 0#64 <;> simp [hva]

/-! ## Counts -/

theorem runs_blastClzNode (hop : n.op = .clz) (haw : aw = n.width) : Runs (blastNode n ba bb bc) s
      (fun out t => Word β t out (cut n.width (evalOp n aw bw va vb vc))) := by
  subst haw
  have hval : evalOp n n.width bw va vb vc =
      lift (BitVec.ofNat n.width (leadingZeros (cut n.width va))) := by
    simp only [evalOp, hop]
    rw [and_widthMask ha.le]
    congr 1
    apply BitVec.eq_of_toNat_eq
    have hle := ha.le
    by_cases hva : va = 0
    · rw [if_pos hva, toNat_cut, BitVec.toNat_ofNat, BitVec.toNat_ofNat, hva,
        show cut n.width (0 : U64) = 0#n.width from cut_zero, leadingZeros_zero, Nat.mod_eq_of_lt (show n.width < 2 ^ 64 by omega)]
    · obtain ⟨hsum, hlt⟩ := leadingZeros_cut ha.le ha.fits hva
      rw [if_neg hva, toNat_cut, BitVec.toNat_ofNat]
      congr 1
      rw [BitVec.toNat_setWidth, BitVec.toNat_sub, BitVec.toNat_sub, BitVec.toNat_ofNat,
        BitVec.toNat_ofNat, BitVec.toNat_ofNat]
      omega
  rw [hval, cut_lift ha.le]
  unfold blastNode
  rw [hop]
  exact runs_blastClz hs ha.word

theorem runs_blastCtzNode (hop : n.op = .ctz) (haw : aw = n.width) : Runs (blastNode n ba bb bc) s
      (fun out t => Word β t out (cut n.width (evalOp n aw bw va vb vc))) := by
  subst haw
  have hval : evalOp n n.width bw va vb vc =
      lift (BitVec.ofNat n.width (trailingZeros (cut n.width va))) := by
    simp only [evalOp, hop]
    rw [and_widthMask ha.le]
    congr 1
    apply BitVec.eq_of_toNat_eq
    have hle := ha.le
    by_cases hva : va = 0
    · rw [if_pos hva, toNat_cut, BitVec.toNat_ofNat, BitVec.toNat_ofNat, hva,
        show cut n.width (0 : U64) = 0#n.width from cut_zero, trailingZeros_zero, Nat.mod_eq_of_lt (show n.width < 2 ^ 64 by omega)]
    · have hlt : countrZero va ≤ 64 := by
        have hle : (List.range 64).findIdx (fun i => va.getLsbD i) ≤ (List.range 64).length :=
          List.findIdx_le_length
        simpa [countrZero] using hle
      rw [if_neg hva, toNat_cut, BitVec.toNat_ofNat, BitVec.toNat_ofNat,
        Nat.mod_eq_of_lt (show countrZero va < 2 ^ 64 by omega), trailingZeros_cut ha.fits hva]
  rw [hval, cut_lift ha.le]
  unfold blastNode
  rw [hop]
  exact runs_blastCtz hs ha.word

theorem runs_blastPopcntNode (hop : n.op = .popcnt) (haw : aw = n.width) :
    Runs (blastNode n ba bb bc) s
      (fun out t => Word β t out (cut n.width (evalOp n aw bw va vb vc))) := by
  subst haw
  have hval : evalOp n n.width bw va vb vc =
      lift (BitVec.ofNat n.width ((List.range n.width).countP (cut n.width va).getLsbD)) := by
    simp only [evalOp, hop]
    rw [and_widthMask ha.le, ha.fits.and_widthMask ha.le, popcount_cut ha.le ha.fits]
    congr 1
    exact BitVec.setWidth_ofNat_of_le ha.le _
  rw [hval, cut_lift ha.le]
  unfold blastNode
  rw [hop]
  exact runs_blastPopcnt hs ha.word

/-! ## Predicates -/

include hb in
theorem runs_blastCompare (hop : isPred n.op = true) (ho : isOverflow n.op = false)
    (hw : n.width = 1) (hbw : bw = aw) :
    Runs (blastNode n ba bb bc) s
      (fun out t => Word β t out (cut n.width (evalOp n aw bw va vb vc))) := by
  subst hbw
  obtain ⟨hfa, h0, h, hwa⟩ := ha
  obtain ⟨hfb, -, -, hwb⟩ := hb
  have heq := runs_blastEq hs hwa hwb
  have hlt := runs_blastUlt hs hwa hwb
  have hgt := runs_blastUlt hs hwb hwa
  have hslt := runs_blastSlt hs h0 hwa hwb
  have hsgt := runs_blastSlt hs h0 hwb hwa
  rw [beq_cut hfa hfb] at heq
  rw [ult_cut hfa hfb] at hlt
  rw [ult_cut hfb hfa] at hgt
  rw [slt_cut h0 h] at hslt hsgt
  unfold blastNode
  cases hn : n.op <;> rw [hn] at hop ho <;>
    first | exact absurd hop (by decide) | exact absurd ho (by decide) | skip
  case eq => exact runs_flag hw heq (by simp only [evalOp, hn])
  case ne => exact runs_flag_neg hw heq (by simp only [evalOp, hn, bne])
  case ult => exact runs_flag hw hlt (by simp only [evalOp, hn])
  case ule =>
    exact runs_flag_neg hw hgt (by simp only [evalOp, hn, ← decide_not, BitVec.not_lt])
  case ugt => exact runs_flag hw hgt (by simp only [evalOp, hn, gt_iff_lt])
  case uge =>
    exact runs_flag_neg hw hlt (by simp only [evalOp, hn, ← decide_not, BitVec.not_lt, ge_iff_le])
  case slt => exact runs_flag hw hslt (by simp only [evalOp, hn])
  case sle =>
    exact runs_flag_neg hw hsgt (by simp only [evalOp, hn, ← decide_not, Int.not_lt])
  case sgt => exact runs_flag hw hsgt (by simp only [evalOp, hn, gt_iff_lt])
  case sge =>
    exact runs_flag_neg hw hslt (by simp only [evalOp, hn, ← decide_not, Int.not_lt, ge_iff_le])

include hb in
theorem runs_blastOverflow (hop : isOverflow n.op = true) (hw : n.width = 1) (hbw : bw = aw) :
    Runs (blastNode n ba bb bc) s
      (fun out t => Word β t out (cut n.width (circuitOp n aw bw va vb vc))) := by
  subst hbw
  obtain ⟨hfa, h0, h, hwa⟩ := ha
  obtain ⟨hfb, -, -, hwb⟩ := hb
  unfold blastNode
  cases hn : n.op <;> rw [hn] at hop <;> first | exact absurd hop (by decide) | skip
  case saddOvf =>
    refine runs_bind (runs_addAdder hs hwa hwb (means_false hs) true)
      (fun r t ht _ hr => runs_flag hw (hr.signedOvf ht h0 rfl) ?_)
    simp only [circuitOp, evalOp, hn, signExtendBits_eq h0 h]
    rw [signs_iff, cut_add _ _ h, setWidth_ofBool_false, BitVec.add_zero]
  case ssubOvf =>
    have hlen := hwa.length
    dsimp only
    rw [hlen]
    refine runs_bind (runs_addAdder hs hwa (hwb.not hs) (means_true hs) true)
      (fun r t ht _ hr => runs_flag hw (hr.signedOvf ht h0 (sub_eq_add_not _ _)) ?_)
    simp only [circuitOp, evalOp, hn, signExtendBits_eq h0 h]
    rw [signs_sub_iff h0, cut_sub _ _ h]
  case smulOvf =>
    refine runs_flag hw (runs_blastSmulOvf hs h0 hwa hwb) ?_
    simp only [circuitOp, hn]
  case uaddOvf =>
    refine runs_bind (runs_uaddOvf hs hwa hwb)
      (fun r t ht _ hr => runs_pure ht (word_predicate ht hw hr ?_))
    simp only [circuitOp, evalOp, hn]
    rw [hfa.toNat_cut, hfb.toNat_cut, decide_eq_decide.mpr (carry_iff h hfa hfb)]
  case usubOvf =>
    refine runs_flag hw (runs_blastUlt hs hwa hwb) ?_
    simp only [circuitOp, evalOp, hn, ult_cut hfa hfb]
  case umulOvf =>
    refine runs_bind (runs_blastUmul hs hwa hwb)
      (fun r t ht _ hr => runs_pure ht (word_predicate ht hw hr.2 ?_))
    simp only [circuitOp, hn]
    rw [hfa.toNat_cut, hfb.toNat_cut]

end Node

/-! ## Every operator -/

theorem runs_blastConst (hs : s.Gates) (hop : n.op = .const) (h : n.width ≤ 64) :
    Runs (blastNode n ba bb bc) s
      (fun out t => Word β t out (cut n.width (n.imm &&& widthMask n.width))) := by
  unfold blastNode
  rw [hop, cut_and_widthMask h]
  refine runs_pure hs ((word_constBits hs n.width n.imm.toNat).congr (fun _ => ?_))
  rw [cut, BitVec.ofNat_toNat]

/-- The circuit of an operator computes what `circuitOp` says. -/
theorem runs_blastOp (hs : s.Gates) (hc : n.op ≠ .const) (hv : n.op ≠ .var) (hn : n.Sorted width)
    (h : n.width ≤ 64) (ha : Operand β s ba (width n.a) va) (hb : Operand β s bb (width n.b) vb)
    (hcc : Operand β s bc (width n.c) vc) :
    Runs (blastNode n ba bb bc) s (fun out t =>
      Word β t out (cut n.width (circuitOp n (width n.a) (width n.b) va vb vc))) := by
  by_cases ho : isOverflow n.op = true
  · have hp : isPred n.op = true := by
      cases hop : n.op <;> rw [hop] at ho <;> first | exact absurd ho (by decide) | rfl
    obtain ⟨hw, hbw⟩ := hn.pred hp
    exact runs_blastOverflow hs ha hb ho hw hbw
  · rw [Bool.not_eq_true] at ho
    have heval : circuitOp n (width n.a) (width n.b) va vb vc =
        evalOp n (width n.a) (width n.b) va vb vc := by
      cases hop : n.op <;> rw [hop] at ho <;>
        first | exact absurd ho (by decide) | simp only [circuitOp, hop]
    rw [heval]
    by_cases hp : isPred n.op = true
    · obtain ⟨hw, hbw⟩ := hn.pred hp
      exact runs_blastCompare hs ha hb hp ho hw hbw
    · by_cases har : isArith n.op = true
      · obtain ⟨haw, hbw⟩ := hn.arith har
        exact runs_blastArith hs ha hb har haw hbw
      · by_cases hsh : isShift n.op = true
        · exact runs_blastShiftNode hs ha hb hsh (hn.shift hsh)
        · cases hop : n.op <;> rw [hop] at hp har hsh hc hv <;> first
            | exact absurd rfl hc
            | exact absurd rfl hv
            | exact absurd rfl hp
            | exact absurd rfl har
            | exact absurd rfl hsh
            | skip
          all_goals unfold BVNode.Sorted at hn; rw [hop] at hn
          case extract => exact runs_blastExtract hs ha hop h
          case concat => exact runs_blastConcat hs ha hb hop hn h
          case zext => exact runs_blastZext hs ha hop h (by omega)
          case sext => exact runs_blastSext hs ha hop h (by omega)
          case not => exact runs_blastNot hs ha hop hn
          case neg => exact runs_blastNeg hs ha hop hn
          case ite => exact runs_blastIte hs ha hb hcc hop hn.1 hn.2.1 hn.2.2
          case clz => exact runs_blastClzNode hs ha hop hn
          case ctz => exact runs_blastCtzNode hs ha hop hn
          case popcnt => exact runs_blastPopcntNode hs ha hop hn

end Brass.Verify.Bv
