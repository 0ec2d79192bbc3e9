import Mathlib.Tactic.Ring
import Mathlib.Tactic.Linarith
import Brass.Verify.BvWord

/-!
# The operators on bit vectors

What `evalOp` computes in 64-bit words, stated for bit vectors of the width of the
operands. The words are assumed to fit where the source relies on it.
-/

namespace Brass.Verify.Bv

open BitVec

variable {n : BVNode} {w aw bw : Nat} {va vb vc : U64}

/-! ## Arithmetic -/

theorem evalOp_not (hop : n.op = .not) (hw : n.width = w) (h : w ≤ 64) :
    evalOp n aw bw va vb vc = lift (~~~cut w va) := by
  subst hw
  simp only [evalOp, hop]
  rw [and_widthMask h, cut_not _ h]

theorem evalOp_neg (hop : n.op = .neg) (hw : n.width = w) (h : w ≤ 64) :
    evalOp n aw bw va vb vc = lift (-cut w va) := by
  subst hw
  simp only [evalOp, hop]
  rw [and_widthMask h, show ~~~va + 1 = 0#64 - va by rw [BitVec.zero_sub, BitVec.neg_eq_not_add]; rfl,
    cut_sub _ _ h, cut_zero, BitVec.zero_sub]

theorem evalOp_and (hop : n.op = .and) (hw : n.width = w) (h : w ≤ 64) :
    evalOp n aw bw va vb vc = lift (cut w va &&& cut w vb) := by
  subst hw
  simp only [evalOp, hop]
  rw [and_widthMask h, cut_and]

theorem evalOp_or (hop : n.op = .or) (hw : n.width = w) (h : w ≤ 64) :
    evalOp n aw bw va vb vc = lift (cut w va ||| cut w vb) := by
  subst hw
  simp only [evalOp, hop]
  rw [and_widthMask h, cut_or]

theorem evalOp_xor (hop : n.op = .xor) (hw : n.width = w) (h : w ≤ 64) :
    evalOp n aw bw va vb vc = lift (cut w va ^^^ cut w vb) := by
  subst hw
  simp only [evalOp, hop]
  rw [and_widthMask h, cut_xor]

theorem evalOp_add (hop : n.op = .add) (hw : n.width = w) (h : w ≤ 64) :
    evalOp n aw bw va vb vc = lift (cut w va + cut w vb) := by
  subst hw
  simp only [evalOp, hop]
  rw [and_widthMask h, cut_add _ _ h]

theorem evalOp_sub (hop : n.op = .sub) (hw : n.width = w) (h : w ≤ 64) :
    evalOp n aw bw va vb vc = lift (cut w va - cut w vb) := by
  subst hw
  simp only [evalOp, hop]
  rw [and_widthMask h, cut_sub _ _ h]

theorem evalOp_mul (hop : n.op = .mul) (hw : n.width = w) (h : w ≤ 64) :
    evalOp n aw bw va vb vc = lift (cut w va * cut w vb) := by
  subst hw
  simp only [evalOp, hop]
  rw [and_widthMask h, cut_mul _ _ h]

/-! ## Division -/

theorem cut_eq_zero_iff (hb : Fits w vb) : cut w vb = 0#w ↔ vb = 0#64 := by
  constructor
  · intro h
    exact hb.ext fits_zero (by rw [h, cut_zero])
  · rintro rfl
    exact cut_zero

theorem cut_udiv (ha : Fits w va) (hb : Fits w vb) : cut w (va / vb) = cut w va / cut w vb := by
  apply eq_of_toNat_eq
  have hlt : va.toNat / vb.toNat < 2 ^ w := Nat.lt_of_le_of_lt (Nat.div_le_self _ _) ha
  rw [toNat_cut, toNat_udiv, toNat_udiv, ha.toNat_cut, hb.toNat_cut, Nat.mod_eq_of_lt hlt]

theorem cut_umod (ha : Fits w va) (hb : Fits w vb) : cut w (va % vb) = cut w va % cut w vb := by
  apply eq_of_toNat_eq
  have hlt : va.toNat % vb.toNat < 2 ^ w := Nat.lt_of_le_of_lt (Nat.mod_le _ _) ha
  rw [toNat_cut, toNat_umod, toNat_umod, ha.toNat_cut, hb.toNat_cut, Nat.mod_eq_of_lt hlt]

theorem evalOp_udiv (hop : n.op = .udiv) (hw : n.width = w) (h : w ≤ 64) (ha : Fits w va)
    (hb : Fits w vb) : evalOp n aw bw va vb vc = lift (cut w va / cut w vb) := by
  subst hw
  simp only [evalOp, hop, ofNat_eq_ofNat]
  split
  · rename_i h0
    subst h0
    simp
  · rw [and_widthMask h, cut_udiv ha hb]

/-- The remainder is 0 for the divisor 0. -/
def urem0 (x y : BitVec w) : BitVec w := if y = 0#w then 0#w else x % y

theorem evalOp_urem (hop : n.op = .urem) (hw : n.width = w) (h : w ≤ 64) (ha : Fits w va)
    (hb : Fits w vb) : evalOp n aw bw va vb vc = lift (urem0 (cut w va) (cut w vb)) := by
  subst hw
  simp only [evalOp, hop, urem0, cut_eq_zero_iff hb, ofNat_eq_ofNat]
  split
  · simp
  · rw [and_widthMask h, cut_umod ha hb]

theorem minSigned_eq (h : w ≤ 64) : minSigned w = -(2 ^ (w - 1)) := by
  unfold minSigned
  split
  · have : w = 64 := by omega
    subst this
    rfl
  · rfl

theorem maxSigned_eq (h : w ≤ 64) : maxSigned w = 2 ^ (w - 1) - 1 := by
  unfold maxSigned
  split
  · have : w = 64 := by omega
    subst this
    rfl
  · rfl

theorem ofInt_tdiv (x y : BitVec w) : BitVec.ofInt w (x.toInt.tdiv y.toInt) = x.sdiv y := by
  apply BitVec.eq_of_toInt_eq
  rw [toInt_ofInt, toInt_sdiv]

theorem ofInt_neg_min (h0 : 0 < w) :
    BitVec.ofInt w (-(2 ^ (w - 1))) = BitVec.ofInt w (2 ^ (w - 1)) := by
  apply BitVec.eq_of_toNat_eq
  rw [toNat_ofInt, toNat_ofInt]
  congr 1
  obtain ⟨k, rfl⟩ : ∃ k, w = k + 1 := ⟨w - 1, by omega⟩
  have hpow : (2 : Int) ^ k = -(2 ^ k) + ((2 ^ (k + 1) : Nat) : Int) := by
    push_cast
    ring
  rw [Nat.add_sub_cancel]
  conv_rhs => rw [hpow, Int.add_emod_right]

theorem evalOp_sdiv (hop : n.op = .sdiv) (hw : n.width = w) (h0 : 0 < w) (h : w ≤ 64)
    (hb : Fits w vb) : evalOp n aw bw va vb vc = lift ((cut w va).sdiv (cut w vb)) := by
  subst hw
  simp only [evalOp, hop, ofNat_eq_ofNat, signExtendBits_eq h0 h, minSigned_eq h]
  split
  · rename_i hz
    subst hz
    simp
  · rw [ofInt_and_widthMask h, ofInt_and_widthMask h, ofInt_tdiv]
    split
    · rename_i hmin
      rw [← ofInt_tdiv, hmin.1, hmin.2, ofInt_neg_min h0]
      congr 2
      rw [Int.tdiv_neg, Int.neg_tdiv, Int.neg_neg, Int.tdiv_one]
    · rfl

/-- The remainder is 0 for the divisor 0. -/
def srem0 (x y : BitVec w) : BitVec w := if y = 0#w then 0#w else x.srem y

theorem evalOp_srem (hop : n.op = .srem) (hw : n.width = w) (h0 : 0 < w) (h : w ≤ 64)
    (hb : Fits w vb) : evalOp n aw bw va vb vc = lift (srem0 (cut w va) (cut w vb)) := by
  subst hw
  have hmod : ∀ x y : BitVec n.width, BitVec.ofInt n.width (x.toInt.tmod y.toInt) = x.srem y := by
    intro x y
    apply eq_of_toInt_eq
    rw [toInt_srem, toInt_ofInt, ← toInt_srem, toInt_bmod_cancel]
  simp only [evalOp, hop, srem0, cut_eq_zero_iff hb, ofNat_eq_ofNat, signExtendBits_eq h0 h,
    minSigned_eq h]
  split
  · simp
  · rw [ofInt_and_widthMask h, hmod]
    split
    · rename_i hmin
      rw [← hmod, hmin.2, Int.tmod_neg, Int.tmod_one]
      simp
    · rfl

/-- The operators on two operands of the width of the result. -/
def arith (op : BVOp) (x y : BitVec w) : BitVec w :=
  match op with
  | .and => x &&& y
  | .or => x ||| y
  | .xor => x ^^^ y
  | .add => x + y
  | .sub => x - y
  | .mul => x * y
  | .udiv => x / y
  | .urem => urem0 x y
  | .sdiv => x.sdiv y
  | .srem => srem0 x y
  | _ => 0#w

def isArith (op : BVOp) : Bool :=
  op == .and || op == .or || op == .xor || op == .add || op == .sub || op == .mul ||
    op == .udiv || op == .sdiv || op == .urem || op == .srem

theorem evalOp_arith (hop : isArith n.op = true) (hw : n.width = w) (h0 : 0 < w) (h : w ≤ 64)
    (ha : Fits w va) (hb : Fits w vb) :
    evalOp n aw bw va vb vc = lift (arith n.op (cut w va) (cut w vb)) := by
  cases hn : n.op <;> rw [hn] at hop <;> first | exact absurd hop (by decide) | skip
  · exact evalOp_and hn hw h
  · exact evalOp_or hn hw h
  · exact evalOp_xor hn hw h
  · exact evalOp_add hn hw h
  · exact evalOp_sub hn hw h
  · exact evalOp_mul hn hw h
  · exact evalOp_udiv hn hw h ha hb
  · exact evalOp_sdiv hn hw h0 h hb
  · exact evalOp_urem hn hw h ha hb
  · exact evalOp_srem hn hw h0 h hb

/-! ## Shifts -/

theorem evalOp_shl (hop : n.op = .shl) (hw : n.width = w) (h : w ≤ 64) :
    evalOp n aw bw va vb vc = lift (cut w va <<< shiftAmount w vb) := by
  subst hw
  simp only [evalOp, hop]
  rw [and_widthMask h, cut_shiftLeft h]
  rfl

theorem evalOp_lshr (hop : n.op = .lshr) (hw : n.width = w) (h : w ≤ 64) (ha : Fits w va) :
    evalOp n aw bw va vb vc = lift (cut w va >>> shiftAmount w vb) := by
  subst hw
  simp only [evalOp, hop]
  rw [and_widthMask h, ha.cut_ushiftRight]
  rfl

theorem evalOp_ashr (hop : n.op = .ashr) (hw : n.width = w) (h0 : 0 < w) (h : w ≤ 64) :
    evalOp n aw bw va vb vc = lift ((cut w va).sshiftRight (shiftAmount w vb)) := by
  subst hw
  simp only [evalOp, hop]
  rw [ofInt_and_widthMask h, signExtendBits_eq h0 h]
  rfl

def shift (op : BVOp) (x : BitVec w) (amount : Nat) : BitVec w :=
  match op with
  | .shl => x <<< amount
  | .lshr => x >>> amount
  | .ashr => x.sshiftRight amount
  | _ => 0#w

def isShift (op : BVOp) : Bool := op == .shl || op == .lshr || op == .ashr

theorem shift_zero (ho : isShift op = true) (x : BitVec w) : shift op x 0 = x := by
  cases op <;> first | exact absurd ho (by decide) | simp [shift]

theorem evalOp_shift (hop : isShift n.op = true) (hw : n.width = w) (h0 : 0 < w) (h : w ≤ 64)
    (ha : Fits w va) :
    evalOp n aw bw va vb vc = lift (shift n.op (cut w va) (shiftAmount w vb)) := by
  cases hn : n.op <;> rw [hn] at hop <;> first | exact absurd hop (by decide) | skip
  · exact evalOp_shl hn hw h
  · exact evalOp_lshr hn hw h ha
  · exact evalOp_ashr hn hw h0 h

/-! ## Predicates -/

theorem cut_ofBool (c : Bool) : cut 1 (Bv.ofBool c) = BitVec.ofBool c := by
  cases c <;> rfl

@[simp] theorem lift_ofBool (b : Bool) : lift (BitVec.ofBool b) = ofBool b := by
  cases b <;> rfl

theorem evalOp_eq (hop : n.op = .eq) (ha : Fits aw va) (hb : Fits aw vb) :
    evalOp n aw bw va vb vc = ofBool (cut aw va == cut aw vb) := by
  simp only [evalOp, hop]
  congr 1
  rw [Bool.eq_iff_iff, beq_iff_eq, beq_iff_eq]
  exact ⟨fun h => by rw [h], fun h => ha.ext hb h⟩

theorem evalOp_ult (hop : n.op = .ult) (ha : Fits aw va) (hb : Fits aw vb) :
    evalOp n aw bw va vb vc = ofBool ((cut aw va).ult (cut aw vb)) := by
  simp only [evalOp, hop]
  congr 1
  rw [BitVec.ult, ha.toNat_cut, hb.toNat_cut]
  rfl

theorem evalOp_slt (hop : n.op = .slt) (h0 : 0 < aw) (h : aw ≤ 64) :
    evalOp n aw bw va vb vc = ofBool ((cut aw va).slt (cut aw vb)) := by
  simp only [evalOp, hop]
  rw [signExtendBits_eq h0 h, signExtendBits_eq h0 h]
  rfl

theorem evalOp_ite (hop : n.op = .ite) (hw : n.width = w) (h : w ≤ 64) (hb : Fits w vb)
    (hc : Fits w vc) : evalOp n aw bw va vb vc = if va = 0#64 then vc else vb := by
  subst hw
  simp only [evalOp, hop, ofNat_eq_ofNat, hb.and_widthMask h, hc.and_widthMask h]
  by_cases h0 : va = 0#64 <;> simp [h0]

/-! ## Overflow -/

theorem mulU64Overflow_iff (x y : U64) :
    mulU64Overflow x y = true ↔ 2 ^ 64 ≤ x.toNat * y.toNat := by
  unfold mulU64Overflow
  simp only [Bool.and_eq_true, bne_iff_ne, ne_eq]
  constructor
  · rintro ⟨⟨hx, -⟩, hne⟩
    by_contra hlt
    refine hne (eq_of_toNat_eq ?_)
    have hpos : 0 < x.toNat := Nat.pos_of_ne_zero fun h => hx (eq_of_toNat_eq h)
    rw [toNat_udiv, toNat_mul, Nat.mod_eq_of_lt (by omega), Nat.mul_div_cancel_left _ hpos]
  · intro hge
    have hx : x ≠ 0 := by
      rintro rfl
      simp at hge
    have hy : y ≠ 0 := by
      rintro rfl
      simp at hge
    refine ⟨⟨hx, hy⟩, fun heq => ?_⟩
    have hdiv : x.toNat * y.toNat % 2 ^ 64 / x.toNat = y.toNat := by
      have := congrArg BitVec.toNat heq
      rwa [BitVec.toNat_udiv, BitVec.toNat_mul] at this
    have hle := Nat.div_mul_le_self (x.toNat * y.toNat % 2 ^ 64) x.toNat
    rw [hdiv, Nat.mul_comm] at hle
    have := Nat.mod_lt (x.toNat * y.toNat) (show 0 < 2 ^ 64 by norm_num)
    omega

theorem lt_neg_tdiv_iff {x y m : Int} (hx : 0 < x) (hm : 0 ≤ m) : y < (-m).tdiv x ↔ x * y < -m := by
  rw [Int.neg_tdiv, Int.tdiv_eq_ediv_of_nonneg hm]
  constructor
  · intro h
    have h' : m / x < -y := by omega
    rw [Int.ediv_lt_iff_lt_mul hx] at h'
    nlinarith
  · intro h
    have h' : m / x < -y := by
      rw [Int.ediv_lt_iff_lt_mul hx]
      nlinarith
    omega

theorem mulS64Overflow_iff (x y : Int) :
    mulS64Overflow x y = true ↔ x * y < -(2 ^ 63) ∨ 2 ^ 63 - 1 < x * y := by
  unfold mulS64Overflow
  split_ifs with h0 hmin hx hy hy'
  · have hzero : x * y = 0 := by
      rcases h0 with h | h
      · rw [h, Int.zero_mul]
      · rw [h, Int.mul_zero]
    rw [hzero]
    simp
  · rcases hmin with ⟨rfl, rfl⟩ | ⟨rfl, rfl⟩ <;> simp
  · rw [decide_eq_true_iff, gt_iff_lt, Int.tdiv_eq_ediv_of_nonneg (by norm_num),
      Int.ediv_lt_iff_lt_mul hy]
    have := Int.mul_pos hx hy
    omega
  · have hy'' : y < 0 := by omega
    rw [decide_eq_true_iff, lt_neg_tdiv_iff hx (by norm_num)]
    have := Int.mul_neg_of_pos_of_neg hx hy''
    omega
  · have hx' : x < 0 := by omega
    rw [decide_eq_true_iff, lt_neg_tdiv_iff hy' (by norm_num), Int.mul_comm y x]
    have := Int.mul_neg_of_neg_of_pos hx' hy'
    omega
  · have hx' : x < 0 := by omega
    have hy'' : 0 < -y := by omega
    have hpos := Int.mul_pos_of_neg_of_neg hx' (show y < 0 by omega)
    have hdiv : (2 ^ 63 - 1 : Int).tdiv y = (-(2 ^ 63 - 1)).tdiv (-y) := by
      rw [Int.tdiv_neg, Int.neg_tdiv, Int.neg_neg]
    rw [decide_eq_true_iff, hdiv, lt_neg_tdiv_iff hy'' (by norm_num)]
    have : -y * x = -(x * y) := by ring
    omega

theorem carry_iff (h : aw ≤ 64) (ha : Fits aw va) (hb : Fits aw vb) :
    ((va + vb) &&& widthMask aw) < va ↔ 2 ^ aw ≤ va.toNat + vb.toNat := by
  have ha' : va.toNat < 2 ^ aw := ha
  have hb' : vb.toNat < 2 ^ aw := hb
  rw [lt_def, toNat_and, toNat_widthMask h, Nat.and_two_pow_sub_one_eq_mod,
    toNat_add, Nat.mod_mod_of_dvd _ (Nat.pow_dvd_pow 2 h)]
  by_cases hlt : va.toNat + vb.toNat < 2 ^ aw
  · rw [Nat.mod_eq_of_lt hlt]
    omega
  · rw [Nat.mod_eq_sub_mod (by omega), Nat.mod_eq_of_lt (by omega)]
    omega

/-! ## Parts and extensions -/

theorem evalOp_extract (hop : n.op = .extract) (hw : n.width = w) (h : w ≤ 64) :
    evalOp n aw bw va vb vc = lift (cut w (va >>> n.extra)) := by
  subst hw
  simp only [evalOp, hop]
  rw [and_widthMask h]

theorem evalOp_zext (hop : n.op = .zext) (hw : n.width = w) (h : w ≤ 64) (ha : Fits aw va)
    (haw : aw ≤ w) : evalOp n aw bw va vb vc = va := by
  subst hw
  have hfits : Fits n.width va := Nat.lt_of_lt_of_le ha (Nat.pow_le_pow_right (by decide) haw)
  simp only [evalOp, hop]
  exact hfits.and_widthMask h

theorem evalOp_sext (hop : n.op = .sext) (hw : n.width = w) (h : w ≤ 64) (h0 : 0 < aw)
    (haw : aw ≤ w) : evalOp n aw bw va vb vc = lift ((cut aw va).signExtend w) := by
  subst hw
  simp only [evalOp, hop]
  rw [signExtendBits_eq h0 (by omega), ofInt_and_widthMask h]
  rfl

theorem evalOp_concat (hop : n.op = .concat) (hw : n.width = aw + bw) (h : aw + bw ≤ 64) :
    evalOp n aw bw va vb vc = lift (cut aw va ++ cut bw vb) := by
  simp only [evalOp, hop, hw]
  rw [and_widthMask h]
  congr 1
  apply eq_of_getLsbD_eq
  intro i hi
  rw [getLsbD_cut, getLsbD_or, getLsbD_shiftLeft, getLsbD_and,
    getLsbD_widthMask (by omega), getLsbD_append, getLsbD_cut, getLsbD_cut]
  by_cases hlow : i < bw
  · simp [hi, hlow]
  · have h₁ : i < 64 := by omega
    have h₂ : i - bw < aw := by omega
    simp [hi, hlow, h₁, h₂]

theorem fits_evalOp (h0 : 0 < n.width) (h : n.width ≤ 64) :
    Fits n.width (evalOp n aw bw va vb vc) := by
  have hmask : ∀ x : U64, Fits n.width (x &&& widthMask n.width) := fits_and_widthMask h
  have hzero : Fits n.width (0 : U64) := fits_zero
  have hbool : ∀ b, Fits n.width (ofBool b) := by
    intro b
    cases b
    · exact fits_zero
    · exact fits_one h0
  cases hop : n.op <;> simp only [evalOp, hop] <;> first
    | exact hmask _
    | exact hbool _
    | (split <;> first | exact hmask _ | exact hzero | exact hbool _ |
        (split <;> first | exact hmask _ | exact hzero))

end Brass.Verify.Bv
