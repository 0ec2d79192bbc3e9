import Brass.Verify.BvBitwise

/-!
# Sums, differences, shifts and products

The rules of these operators call each other, so they are proved in the order in which the
calls come to an end: differences from a constant, sums with a constant, shifts, then all
differences, all sums and all products.
-/

namespace Brass.Verify.Bv

open Brass.Util BVContext

variable {ctx ctx' : BVContext} {op : BVOp} {w a b : Nat}

/-! ## Sub -/

section

variable (hwf : ctx.WF) (ha : ctx.Has w a) (hb : ctx.Has w b)
include hwf ha hb

/-- `hadd` is for a constant that is subtracted, `hzero` for `0 - y` with a lighter `y`. -/
theorem makes_subRules
    (hadd : (ctx.node b).op = .const → ∀ (ctx' : BVContext) (c : Nat), ctx.Extends ctx' → ctx'.WF →
      ctx'.Has w c → (ctx'.node c).op = .const → MakesArith .add ctx' w a c)
    (hzero : ∀ (ctx' : BVContext) (z y : Nat), ctx'.WF → ctx'.Has w z → ctx'.Has w y →
      (ctx'.node z).op = .const → ctx'.weight y < ctx.weight b → MakesArith .sub ctx' w z y)
    {p : Make Nat} (hp : subRules ctx a b w (widthMask w) = some p) :
    Makes p ctx w (fun vars => ctx.bv vars w a - ctx.bv vars w b) := by
  have h0 := hwf.w_pos ha
  have h := hwf.w_le ha
  have hconst := hwf.bv_const hb
  -- The last two rules: `a - (a + y) = 0 - y`.
  have hneg : ∀ y, ctx.Has w y → y < b → (ctx.node b).op = .add →
      (∀ vars, -ctx.bv vars w y = ctx.bv vars w a - ctx.bv vars w b) →
      Makes (Make.const 0 w >>= fun z => Make.binary .sub z y w) ctx w
        (fun vars => ctx.bv vars w a - ctx.bv vars w b) := by
    intro y hy hlt hop heq
    refine makes_bind_const hwf h0 h (fun z ctx' hm => ?_)
    refine Makes.congr (hzero ctx' z y hm.wf hm.has (hm.ext.has hy) hm.op ?_) (fun vars => ?_)
    · have hle := weight_le ctx y
      rw [hm.ext.weight hy.1, weight_of_op hop (by decide)]
      omega
    · rw [hm.ext.bv hm.wf hy, hm.bv, ← heq]
      exact (congrArg (· - _) cut_zero).trans (BitVec.zero_sub _)
  unfold subRules at hp
  dsimp only at hp
  obtain ⟨h₁, rfl⟩ | ⟨-, hp⟩ := rule_cases hp
  · refine makes_pure hwf ha (fun vars => ?_)
    rw [hconst h₁.1, h₁.2]
    simp
  obtain ⟨h₂, rfl⟩ | ⟨-, hp⟩ := rule_cases hp
  · subst h₂
    refine makes_const hwf h0 h (fun vars => ?_)
    rw [BitVec.sub_self]
    exact cut_zero
  obtain ⟨h₃, rfl⟩ | ⟨-, hp⟩ := rule_cases hp
  · refine makes_bind_const hwf h0 h (fun c ctx' hm => ?_)
    refine Makes.congr (hadd h₃ ctx' c hm.ext hm.wf hm.has hm.op) (fun vars => ?_)
    have hone : ~~~(ctx.node b).imm + 1 = 0#64 - (ctx.node b).imm := by
      rw [BitVec.zero_sub, BitVec.neg_eq_not_add]
      rfl
    rw [hm.ext.bv hm.wf ha, hm.bv, hconst h₃, cut_and_widthMask h, hone, cut_sub _ _ h, cut_zero]
    show _ + (0#w - _) = _
    rw [BitVec.zero_sub, BitVec.sub_eq_add_neg]
  obtain ⟨⟨hop, hsame⟩, rfl⟩ | ⟨-, hp⟩ := rule_cases hp
  · obtain ⟨-, hhb, -, -, hbv⟩ := hwf.arith_node ha hop rfl
    refine makes_pure hwf hhb (fun vars => ?_)
    rw [hbv, hsame]
    exact (add_sub_cancel_left _ _).symm
  obtain ⟨⟨hop, hsame⟩, rfl⟩ | ⟨-, hp⟩ := rule_cases hp
  · obtain ⟨hha, -, -, -, hbv⟩ := hwf.arith_node ha hop rfl
    refine makes_pure hwf hha (fun vars => ?_)
    rw [hbv, hsame]
    exact (add_sub_cancel_right _ _).symm
  obtain ⟨⟨hop, hsame⟩, rfl⟩ | ⟨-, hp⟩ := rule_cases hp
  · obtain ⟨-, hhb, -, hlt, hbv⟩ := hwf.arith_node hb hop rfl
    refine hneg _ hhb hlt hop (fun vars => ?_)
    rw [hbv, hsame]
    show _ = _ - (_ + _)
    ring
  obtain ⟨⟨hop, hsame⟩, rfl⟩ | ⟨-, hp⟩ := rule_cases hp
  · obtain ⟨hha, -, hlt, -, hbv⟩ := hwf.arith_node hb hop rfl
    refine hneg _ hha hlt hop (fun vars => ?_)
    rw [hbv, hsame]
    show _ = _ - (_ + _)
    ring
  cases hp

/-- Subtraction is not commutative: the rules see the operands as they are. -/
theorem makes_sub_frame (hrules : ((ctx.node a).op = .const → (ctx.node b).op ≠ .const) →
      ∀ p, subRules ctx a b w (widthMask w) = some p →
        Makes p ctx w (fun vars => ctx.bv vars w a - ctx.bv vars w b)) :
    MakesArith .sub ctx w a b := by
  refine makes_arith hwf rfl ha hb (fun a' b' ha' hb' hops => ?_)
  obtain ⟨rfl, rfl⟩ | ⟨hc, -⟩ := hops.perm
  · exact makes_arith_rules hwf rfl ha hb (hrules hops.notBoth)
  · cases hc

theorem makes_sub_const (hc : (ctx.node a).op = .const) : MakesArith .sub ctx w a b := by
  induction hk : ctx.weight b using Nat.strongRecOn generalizing ctx a b with
  | ind k ih =>
    refine makes_sub_frame hwf ha hb (fun hnot p hp => makes_subRules hwf ha hb ?_ ?_ hp)
    · exact fun hcb => absurd hcb (hnot hc)
    · intro ctx' z y hwf' hz hy hop hlt
      exact ih _ (hk ▸ hlt) hwf' hz hy hop rfl

end

/-! ## Add -/

/-- `hshl` is for `a + a`, `hsub` for a summand `0 - y`. -/
theorem makes_addRules (hwf : ctx.WF) (ha : ctx.Has w a) (hb : ctx.Has w b)
    (ih : ConstBelow .add w (ctx.weight a + ctx.weight b))
    (hshl : a = b → w ≠ 1 → ∀ (ctx' : BVContext) (c : Nat), ctx.Extends ctx' → ctx'.WF →
      ctx'.Has w c → (∀ vars, ctx'.val vars c = 1#64) → Makes (Make.binary .shl a c w) ctx' w
      (fun vars => ctx'.bv vars w a <<< 1))
    (hsub : ∀ x y, ctx.Has w x → ctx.Has w y → (x = b ∨ (ctx.node b).op ≠ .const) →
      MakesArith .sub ctx w x y)
    {p : Make Nat} (hp : addRules ctx a b w (widthMask w) = some p) :
    Makes p ctx w (fun vars => ctx.bv vars w a + ctx.bv vars w b) := by
  have h0 := hwf.w_pos ha
  have h := hwf.w_le ha
  have hconst := hwf.bv_const hb
  unfold addRules at hp
  dsimp only at hp
  obtain ⟨h₁, rfl⟩ | ⟨-, hp⟩ := rule_cases hp
  · refine makes_pure hwf ha (fun vars => ?_)
    rw [hconst h₁.1, h₁.2]
    simp
  obtain ⟨h₂, rfl⟩ | ⟨-, hp⟩ := rule_cases hp
  · have hdouble : ∀ x : BitVec w, x <<< 1 = x + x := by
      intro x
      rw [BitVec.shiftLeft_eq_mul_twoPow]
      have htwo : BitVec.twoPow w 1 = 2 := by
        apply BitVec.eq_of_toNat_eq
        simp [BitVec.toNat_twoPow]
      rw [htwo]
      ring
    split
    · rename_i hw
      subst hw
      refine makes_const hwf h0 h (fun vars => ?_)
      rw [← h₂, ← hdouble, BitVec.shiftLeft_eq_zero (by omega)]
      exact cut_zero
    · rename_i hw
      refine makes_bind_const hwf h0 h (fun c ctx' hm => ?_)
      refine (hshl h₂ hw ctx' c hm.ext hm.wf hm.has (hm.val (fits_one h0))).congr (fun vars => ?_)
      rw [hm.ext.bv hm.wf ha, hdouble, h₂]
  obtain ⟨⟨hop, hk, hcb⟩, rfl⟩ | ⟨-, hp⟩ := rule_cases hp
  · exact makes_reassoc hwf rfl ha hb ih hop hk hcb (cut_add _ _ h) BitVec.add_assoc
  obtain ⟨⟨hop, hz, himm⟩, rfl⟩ | ⟨-, hp⟩ := rule_cases hp
  · obtain ⟨hha, hhb, -, -, hbv⟩ := hwf.arith_node ha hop rfl
    refine Makes.congr (hsub b _ hb hhb (.inl rfl)) (fun vars => ?_)
    rw [hbv, hwf.bv_const hha hz, himm]
    show _ - _ = (cut w 0#64 - _) + _
    rw [cut_zero, BitVec.zero_sub]
    ring
  obtain ⟨⟨hop, hz, himm⟩, rfl⟩ | ⟨-, hp⟩ := rule_cases hp
  · obtain ⟨hha, hhb, -, -, hbv⟩ := hwf.arith_node hb hop rfl
    refine Makes.congr (hsub a _ ha hhb (.inr (by rw [hop]; decide))) (fun vars => ?_)
    rw [hbv, hwf.bv_const hha hz, himm]
    show _ - _ = _ + (cut w 0#64 - _)
    rw [cut_zero, BitVec.zero_sub]
    ring
  obtain ⟨⟨hop, hsame⟩, rfl⟩ | ⟨-, hp⟩ := rule_cases hp
  · obtain ⟨hha, -, -, -, hbv⟩ := hwf.arith_node ha hop rfl
    refine makes_pure hwf hha (fun vars => ?_)
    rw [hbv, hsame]
    exact (sub_add_cancel _ _).symm
  obtain ⟨⟨hop, hsame⟩, rfl⟩ | ⟨-, hp⟩ := rule_cases hp
  · obtain ⟨hha, -, -, -, hbv⟩ := hwf.arith_node hb hop rfl
    refine makes_pure hwf hha (fun vars => ?_)
    rw [hbv, hsame]
    exact (add_sub_cancel _ _).symm
  obtain ⟨hz, rfl⟩ | ⟨-, hp⟩ := rule_cases hp
  · refine (makes_or hwf ha hb).congr (fun vars => (BitVec.add_eq_or_of_and_eq_zero _ _ ?_).symm)
    apply BitVec.eq_of_getLsbD_eq
    intro i hi
    rw [BitVec.getLsbD_and, BitVec.getLsbD_zero]
    -- One of the two bits is known to be zero.
    have hbit : ((ctx.interval a).knownZeros ||| (ctx.interval b).knownZeros).getLsbD i = true := by
      refine and_eq_right_iff.mp hz i ?_
      rw [getLsbD_widthMask h, decide_eq_true hi]
    rw [BitVec.getLsbD_or, Bool.or_eq_true] at hbit
    rcases hbit with hbit | hbit
    · rw [bv_zero_bit hwf ha hbit, Bool.false_and]
    · rw [bv_zero_bit hwf hb hbit, Bool.and_false]
  cases hp

theorem makes_add_const (hwf : ctx.WF) (ha : ctx.Has w a) (hb : ctx.Has w b)
    (hc : (ctx.node a).op = .const ∨ (ctx.node b).op = .const) : MakesArith .add ctx w a b := by
  induction hk : ctx.weight a + ctx.weight b using Nat.strongRecOn generalizing ctx a b with
  | ind k ih =>
    refine makes_arith hwf rfl ha hb (fun a' b' ha' hb' hops => ?_)
    have hca : (ctx.node a').op ≠ .const := hops.right rfl
    have hcb : (ctx.node b').op = .const := by
      rcases hops.perm with ⟨rfl, rfl⟩ | ⟨-, rfl, rfl⟩
      · exact hc.resolve_left hca
      · exact hc.resolve_right hca
    refine makes_arith_rules hwf rfl ha' hb' (fun p hp => makes_addRules hwf ha' hb' ?_ ?_ ?_ hp)
    · intro ctx' x c hwf' hx hc' hop hlt
      rw [hops.weight] at hlt
      exact ih _ (hk ▸ hlt) hwf' hx hc' (.inr hop) rfl
    · rintro rfl
      exact absurd hcb hca
    · intro x y hx hy hor
      have hxb : x = b' := hor.resolve_right (fun hne => hne hcb)
      subst hxb
      exact makes_sub_const hwf hx hy hcb

/-! ## Shifts -/

theorem shift_shift (ho : isShift op = true) (x : BitVec w) (m n : Nat) :
    shift op (shift op x m) n = shift op x (m + n) := by
  cases op <;> first | exact absurd ho (by decide) | skip
  · exact (BitVec.shiftLeft_add x m n).symm
  · exact (BitVec.shiftRight_add x m n).symm
  · exact BitVec.sshiftRight_add.symm

theorem shift_of_ge (ho : isShift op = true) (hne : op ≠ .ashr) (x : BitVec w) {n : Nat}
    (hn : w ≤ n) : shift op x n = 0#w := by
  cases op <;> first | exact absurd ho (by decide) | exact absurd rfl hne | skip
  · exact BitVec.shiftLeft_eq_zero hn
  · exact BitVec.ushiftRight_eq_zero hn

theorem shiftLeft_ushiftRight_mask (h : w ≤ 64) (x : BitVec w) (n : Nat) :
    x >>> n <<< n = x &&& cut w ((widthMask w <<< n) &&& widthMask w) := by
  apply BitVec.eq_of_getLsbD_eq
  intro i hi
  rw [cut_and_widthMask h, BitVec.getLsbD_shiftLeft, BitVec.getLsbD_ushiftRight,
    BitVec.getLsbD_and, getLsbD_cut, BitVec.getLsbD_shiftLeft, getLsbD_widthMask h]
  by_cases hn : i < n
  · simp [hn]
  · simp [hi, hn, show n + (i - n) = i by omega, show i < 64 by omega, show i - n < w by omega]

theorem ushiftRight_shiftLeft_mask (h : w ≤ 64) (x : BitVec w) (n : Nat) :
    x <<< n >>> n = x &&& cut w (widthMask w >>> n) := by
  apply BitVec.eq_of_getLsbD_eq
  intro i hi
  rw [BitVec.getLsbD_ushiftRight, BitVec.getLsbD_shiftLeft, BitVec.getLsbD_and, getLsbD_cut,
    BitVec.getLsbD_ushiftRight, getLsbD_widthMask h]
  by_cases hn : n + i < w
  · simp [hi, hn]
  · simp [hn]

theorem shiftAmount_const (hwf : ctx.WF) (hb : b < ctx.nodes.length)
    (hop : (ctx.node b).op = .const) (vars : List U64) :
    shiftAmount w (ctx.val vars b) =
      ((ctx.node b).imm &&& BitVec.ofNat 64 (shiftMask w)).toNat := by
  rw [(hwf.const_node (has_width hb) hop).2]
  rfl

def MakesShift (op : BVOp) (ctx : BVContext) (w a b : Nat) : Prop :=
  Makes (Make.binary op a b w) ctx w
    (fun vars => shift op (ctx.bv vars w a) (shiftAmount w (ctx.val vars b)))

section

variable (hwf : ctx.WF) (ho : isShift op = true) (ha : ctx.Has w a) (hb : b < ctx.nodes.length)
include hwf ho ha hb

theorem makes_shift_again (hop : (ctx.node a).op = op)
    (hk : (ctx.node (ctx.node a).b).op = .const) (hcb : (ctx.node b).op = .const)
    {s t : U64} (hs : s = (ctx.node b).imm &&& BitVec.ofNat 64 (shiftMask w))
    (ht : t = (ctx.node (ctx.node a).b).imm &&& BitVec.ofNat 64 (shiftMask w))
    (hlt : t.toNat + s.toNat < w)
    (ih : ∀ (ctx' : BVContext) (c : Nat), ctx'.WF → ctx.Extends ctx' → c < ctx'.nodes.length →
      (ctx'.node c).op = .const → (ctx'.node c).imm.toNat < w →
      MakesShift op ctx' w (ctx.node a).a c) :
    Makes (Make.const (t + s) w >>= fun c => Make.binary op (ctx.node a).a c w) ctx w
      (fun vars => shift op (ctx.bv vars w a) (shiftAmount w (ctx.val vars b))) := by
  have h := hwf.w_le ha
  obtain ⟨hha, -, hltb, hbv⟩ := hwf.shift_node ha hop ho
  have hkb : (ctx.node a).b < ctx.nodes.length := by
    have := ha.1
    omega
  have hsum : (t + s).toNat = t.toNat + s.toNat := by
    rw [BitVec.toNat_add, Nat.mod_eq_of_lt (by omega)]
  have hfits : Fits w (t + s) := by
    unfold Fits
    have : w < 2 ^ w := Nat.lt_two_pow_self
    omega
  refine makes_bind_const hwf (hwf.w_pos ha) h (fun c ctx' hm => ?_)
  have himm := hm.imm hfits
  refine Makes.congr (ih ctx' c hm.wf hm.ext hm.has.1 hm.op (by rw [himm, hsum]; exact hlt))
    (fun vars => ?_)
  rw [hm.ext.bv hm.wf hha, hm.val hfits, shiftAmount_of_lt h (by rw [hsum]; exact hlt), hsum, hbv,
    shift_shift ho, shiftAmount_const hwf hkb hk, shiftAmount_const hwf hb hcb, ← hs, ← ht]

theorem makes_shiftRules (hmask : (ctx.node b).op = .const →
      (ctx.node b).imm &&& BitVec.ofNat 64 (shiftMask w) ≠ (ctx.node b).imm →
      ∀ (ctx' : BVContext) (c : Nat), ctx.Extends ctx' → ctx'.WF → c < ctx'.nodes.length →
        (ctx'.node c).op = .const →
        (ctx'.node c).imm = (ctx.node b).imm &&& BitVec.ofNat 64 (shiftMask w) →
        MakesShift op ctx' w a c)
    (ih : ∀ (ctx' : BVContext) (x c : Nat), ctx'.WF → ctx'.Has w x → x < a →
      c < ctx'.nodes.length → (ctx'.node c).op = .const →
      (ctx'.node c).imm &&& BitVec.ofNat 64 (shiftMask w) = (ctx'.node c).imm →
      MakesShift op ctx' w x c)
    {p : Make Nat} (hp : shiftRules ctx a b w (widthMask w) op = some p) :
    Makes p ctx w (fun vars => shift op (ctx.bv vars w a) (shiftAmount w (ctx.val vars b))) := by
  have h0 := hwf.w_pos ha
  have h := hwf.w_le ha
  have hamount := shiftAmount_const (w := w) hwf hb
  unfold shiftRules at hp
  dsimp only at hp
  by_cases hcb : (ctx.node b).op = .const
  · rw [if_neg (not_not.mpr hcb)] at hp
    obtain ⟨h₁, rfl⟩ | ⟨hsame, hp⟩ := rule_cases hp
    · have hw' := hwf.pos b hb
      refine makes_bind_const hwf hw' (hwf.le b hb) (fun c ctx' hm => ?_)
      have hfits : Fits (ctx.width b) ((ctx.node b).imm &&& BitVec.ofNat 64 (shiftMask w)) :=
        (hwf.const_node (has_width hb) hcb).1.mono (and_le_left _ _)
      refine Makes.congr (hmask hcb h₁ ctx' c hm.ext hm.wf hm.has.1 hm.op (hm.imm hfits))
        (fun vars => ?_)
      rw [hm.ext.bv hm.wf ha, hm.val hfits, shiftAmount_mask, hamount hcb]
      rfl
    rw [not_not] at hsame
    rw [hsame] at hp hamount
    obtain ⟨h₂, rfl⟩ | ⟨-, hp⟩ := rule_cases hp
    · refine makes_pure hwf ha (fun vars => ?_)
      rw [hamount hcb, h₂]
      exact (shift_zero ho _).symm
    obtain ⟨⟨hge, hne⟩, rfl⟩ | ⟨-, hp⟩ := rule_cases hp
    · refine makes_const hwf h0 h (fun vars => ?_)
      rw [hamount hcb, shift_of_ge ho hne _ hge]
      exact cut_zero
    obtain ⟨⟨hop, hk, hlt⟩, rfl⟩ | ⟨hbig, hp⟩ := rule_cases hp
    · obtain ⟨hha, hlta, -, -⟩ := hwf.shift_node ha hop ho
      refine makes_shift_again hwf ho ha hb hop hk hcb hsame.symm rfl hlt ?_
      intro ctx' c hwf' hext hc hopc himm
      refine ih ctx' _ c hwf' (hext.has hha) hlta hc hopc ?_
      apply BitVec.eq_of_toNat_eq
      exact shiftAmount_of_lt h himm
    obtain ⟨⟨hop, hk, hne⟩, rfl⟩ | ⟨-, hp⟩ := rule_cases hp
    · obtain ⟨hha, -, hltb, hbv⟩ := hwf.shift_node ha hop ho
      have hkb : (ctx.node a).b < ctx.nodes.length := by
        have := ha.1
        omega
      refine makes_const hwf h0 h (fun vars => ?_)
      rw [hbv, shift_shift ho, shiftAmount_const hwf hkb hk, hamount hcb, shift_of_ge ho hne _ (by
          by_contra hlt
          exact hbig ⟨hop, hk, by omega⟩)]
      exact cut_zero
    obtain ⟨⟨rfl, hlt, hop, hk⟩, rfl⟩ | ⟨-, hp⟩ := rule_cases hp
    · obtain ⟨hha, hhb, hlta, -, hbv⟩ := hwf.arith_node ha hop rfl
      refine makes_bind (ih ctx _ b hwf hha hlta hb hcb hsame) (fun t₁ ctx₁ hm₁ => ?_)
      refine makes_bind_const hm₁.wf h0 h (fun t₂ ctx₂ hm₂ => ?_)
      refine Makes.congr (makes_add_const hm₂.wf (hm₂.ext.has hm₁.has) hm₂.has (.inr hm₂.op))
        (fun vars => ?_)
      rw [hm₂.ext.bv hm₂.wf hm₁.has, hm₁.bv, hm₂.bv, hbv, hwf.bv_const hhb hk, hamount hcb,
        cut_and_widthMask h, cut_shiftLeft h]
      exact BitVec.shiftLeft_add_distrib.symm
    obtain ⟨⟨rfl, hlt, hop, hk, himm⟩, rfl⟩ | ⟨-, hp⟩ := rule_cases hp
    · obtain ⟨hha, -, hltb, hbv⟩ := hwf.shift_node ha hop rfl
      have hkb : (ctx.node a).b < ctx.nodes.length := by
        have := ha.1
        omega
      refine makes_bind_const hwf h0 h (fun c ctx' hm => ?_)
      refine (makes_and hm.wf (hm.ext.has hha) hm.has).congr (fun vars => ?_)
      rw [hm.ext.bv hm.wf hha, hm.bv, hbv, hamount hcb, shiftAmount_const hwf hkb hk, himm, hsame]
      exact (shiftLeft_ushiftRight_mask h _ _).symm
    obtain ⟨⟨rfl, hlt, hop, hk, himm⟩, rfl⟩ | ⟨-, hp⟩ := rule_cases hp
    · obtain ⟨hha, -, hltb, hbv⟩ := hwf.shift_node ha hop rfl
      have hkb : (ctx.node a).b < ctx.nodes.length := by
        have := ha.1
        omega
      refine makes_bind_const hwf h0 h (fun c ctx' hm => ?_)
      refine (makes_and hm.wf (hm.ext.has hha) hm.has).congr (fun vars => ?_)
      rw [hm.ext.bv hm.wf hha, hm.bv, hbv, hamount hcb, shiftAmount_const hwf hkb hk, himm, hsame]
      exact (ushiftRight_shiftLeft_mask h _ _).symm
    cases hp
  · rw [if_pos hcb] at hp
    cases hp

theorem makes_shift_frame
    (hrules : ∀ p, shiftRules ctx a b w (widthMask w) op = some p → Makes p ctx w
      (fun vars => shift op (ctx.bv vars w a) (shiftAmount w (ctx.val vars b)))) :
    MakesShift op ctx w a b := by
  refine makes_shift hwf ho ha hb (fun _ => ?_)
  have hsimp : simplifyBinary ctx op a b w (widthMask w) =
      orIntern (shiftRules ctx a b w (widthMask w) op) op a b w := by
    cases op <;> first | exact absurd ho (by decide) | rfl
  rw [hsimp]
  exact makes_shift_rules hwf ho ha hb hrules

theorem makes_shift_masked
    (hmask : (ctx.node b).imm &&& BitVec.ofNat 64 (shiftMask w) = (ctx.node b).imm) :
    MakesShift op ctx w a b := by
  induction a using Nat.strongRecOn generalizing ctx b with
  | ind a ih =>
    refine makes_shift_frame hwf ho ha hb (fun p hp => makes_shiftRules hwf ho ha hb ?_ ?_ hp)
    · exact fun _ hne => absurd hmask hne
    · intro ctx' x c hwf' hx hlt hc _ hmask'
      exact ih x hlt hwf' hx hc hmask'

theorem makes_shiftOp : MakesShift op ctx w a b := by
  refine makes_shift_frame hwf ho ha hb (fun p hp => makes_shiftRules hwf ho ha hb ?_ ?_ hp)
  · intro _ _ ctx' c hext hwf' hc _ himm
    refine makes_shift_masked hwf' ho (hext.has ha) hc ?_
    rw [himm, BitVec.and_assoc, BitVec.and_self]
  · intro ctx' x c hwf' hx _ hc _ hmask
    exact makes_shift_masked hwf' ho hx hc hmask

end

/-! ## All sums and differences -/

theorem makes_sub (hwf : ctx.WF) (ha : ctx.Has w a) (hb : ctx.Has w b) :
    Makes (Make.binary .sub a b w) ctx w (fun vars => ctx.bv vars w a - ctx.bv vars w b) := by
  refine makes_sub_frame hwf ha hb (fun _ p hp => makes_subRules hwf ha hb ?_ ?_ hp)
  · intro _ ctx' c hext hwf' hc hop
    exact makes_add_const hwf' (hext.has ha) hc (.inr hop)
  · intro ctx' z y hwf' hz hy hop _
    exact makes_sub_const hwf' hz hy hop

theorem makes_add (hwf : ctx.WF) (ha : ctx.Has w a) (hb : ctx.Has w b) :
    Makes (Make.binary .add a b w) ctx w (fun vars => ctx.bv vars w a + ctx.bv vars w b) := by
  refine makes_arith hwf rfl ha hb (fun a' b' ha' hb' _ => ?_)
  refine makes_arith_rules hwf rfl ha' hb' (fun p hp => makes_addRules hwf ha' hb' ?_ ?_ ?_ hp)
  · intro ctx' x c hwf' hx hc hop _
    exact makes_add_const hwf' hx hc (.inr hop)
  · intro _ hw ctx' c hext hwf' hc hval
    refine Makes.congr (makes_shiftOp hwf' rfl (hext.has ha') hc.1) (fun vars => ?_)
    have hone : (1#64).toNat < w := by
      have := hwf.w_pos ha
      show 1 < w
      omega
    rw [hval, shiftAmount_of_lt (hwf.w_le ha) hone]
    rfl
  · intro x y hx hy _
    exact makes_sub hwf hx hy

theorem makes_neg (hwf : ctx.WF) (ha : ctx.Has w a) :
    Makes (Make.unary .neg a w) ctx w (fun vars => -ctx.bv vars w a) := by
  have h0 := hwf.w_pos ha
  have h := hwf.w_le ha
  apply makes_unary
  unfold makeUnary
  dsimp only
  rw [if_pos (Nat.pos_iff_ne_zero.mp h0)]
  split
  · rename_i hca
    refine makes_const hwf h0 h (fun vars => ?_)
    exact (congrArg (cut w) (fold_unary hwf rfl ha hca vars)).trans (bv_unary_neg hwf ha vars)
  · split
    · rename_i hnn
      cases hnn.1
    · rw [if_pos rfl]
      refine makes_bind_const hwf h0 h (fun z ctx' hm => ?_)
      refine (makes_sub hm.wf hm.has (hm.ext.has ha)).congr (fun vars => ?_)
      rw [hm.bv, hm.ext.bv hm.wf ha]
      exact (congrArg (· - _) cut_zero).trans (BitVec.zero_sub _)

/-! ## Mul -/

theorem mul_eq_shiftLeft (x : BitVec w) {c : U64} (hc : hasSingleBit c = true) :
    x * cut w c = x <<< countrZero c := by
  have heq := (hasSingleBit_eq hc).2.2
  rw [BitVec.shiftLeft_eq_mul_twoPow]
  congr 1
  apply BitVec.eq_of_toNat_eq
  rw [toNat_cut, heq, BitVec.toNat_twoPow]

theorem makes_mulRules (hwf : ctx.WF) (ha : ctx.Has w a) (hb : ctx.Has w b)
    (ih : ArithBelow .mul w (ctx.weight a + ctx.weight b))
    {p : Make Nat} (hp : mulRules ctx a b w (widthMask w) = some p) :
    Makes p ctx w (fun vars => ctx.bv vars w a * ctx.bv vars w b) := by
  have h0 := hwf.w_pos ha
  have h := hwf.w_le ha
  have hconst := hwf.bv_const hb
  have hdistrib : ∀ x₁ y₁ x₂ y₂, ctx.Has w x₁ → ctx.Has w y₁ → ctx.Has w x₂ → ctx.Has w y₂ →
      ctx.weight x₁ + ctx.weight y₁ < ctx.weight a + ctx.weight b →
      ctx.weight x₂ + ctx.weight y₂ < ctx.weight a + ctx.weight b →
      Makes (Make.binary .mul x₁ y₁ w >>= fun t₁ => Make.binary .mul x₂ y₂ w >>= fun t₂ =>
        Make.binary .add t₁ t₂ w) ctx w (fun vars =>
          ctx.bv vars w x₁ * ctx.bv vars w y₁ + ctx.bv vars w x₂ * ctx.bv vars w y₂) := by
    intro x₁ y₁ x₂ y₂ hx₁ hy₁ hx₂ hy₂ hlt₁ hlt₂
    refine makes_bind (ih ctx x₁ y₁ hwf hx₁ hy₁ hlt₁) (fun t₁ ctx₁ hm₁ => ?_)
    refine makes_bind (ih ctx₁ x₂ y₂ hm₁.wf (hm₁.ext.has hx₂) (hm₁.ext.has hy₂) ?_)
      (fun t₂ ctx₂ hm₂ => ?_)
    · rw [hm₁.ext.weight hx₂.1, hm₁.ext.weight hy₂.1]
      exact hlt₂
    · refine (makes_add hm₂.wf (hm₂.ext.has hm₁.has) hm₂.has).congr (fun vars => ?_)
      rw [hm₂.ext.bv hm₂.wf hm₁.has, hm₁.bv, hm₂.bv, hm₁.ext.bv hm₁.wf hx₂, hm₁.ext.bv hm₁.wf hy₂]
      rfl
  unfold mulRules at hp
  dsimp only at hp
  obtain ⟨h₁, rfl⟩ | ⟨-, hp⟩ := rule_cases hp
  · refine makes_const hwf h0 h (fun vars => ?_)
    rw [hconst h₁.1, h₁.2]
    simp
  obtain ⟨h₂, rfl⟩ | ⟨-, hp⟩ := rule_cases hp
  · refine makes_pure hwf ha (fun vars => ?_)
    rw [hconst h₂.1, h₂.2, show cut w 1 = 1 from BitVec.eq_of_toNat_eq (by simp [cut]), mul_one]
  obtain ⟨h₃, rfl⟩ | ⟨-, hp⟩ := rule_cases hp
  · refine makes_bind_const hwf h0 h (fun z ctx' hm => ?_)
    refine (makes_sub hm.wf hm.has (hm.ext.has ha)).congr (fun vars => ?_)
    rw [hm.bv, hm.ext.bv hm.wf ha, hconst h₃.1, h₃.2, cut_widthMask h, ← BitVec.neg_one_eq_allOnes]
    show cut w 0#64 - _ = _
    rw [cut_zero, BitVec.zero_sub, BitVec.mul_neg, BitVec.mul_one]
  obtain ⟨⟨hcb, hsingle, hlt⟩, rfl⟩ | ⟨-, hp⟩ := rule_cases hp
  · have hsmall : (BitVec.ofNat 64 (countrZero (ctx.node b).imm)).toNat =
        countrZero (ctx.node b).imm := by
      rw [BitVec.toNat_ofNat, Nat.mod_eq_of_lt (by omega)]
    have hfits : Fits w (BitVec.ofNat 64 (countrZero (ctx.node b).imm)) := by
      unfold Fits
      have : w < 2 ^ w := Nat.lt_two_pow_self
      omega
    refine makes_bind_const hwf h0 h (fun c ctx' hm => ?_)
    refine Makes.congr (makes_shiftOp hm.wf rfl (hm.ext.has ha) hm.has.1) (fun vars => ?_)
    rw [hm.ext.bv hm.wf ha, hm.val hfits, shiftAmount_of_lt h (by omega), hsmall, hconst hcb,
      mul_eq_shiftLeft _ hsingle]
    rfl
  obtain ⟨⟨hop, hk, hcb⟩, rfl⟩ | ⟨-, hp⟩ := rule_cases hp
  · exact makes_reassoc hwf rfl ha hb ih.constBelow hop hk hcb (cut_mul _ _ h) BitVec.mul_assoc
  obtain ⟨⟨hop, hk⟩, rfl⟩ | ⟨-, hp⟩ := rule_cases hp
  · obtain ⟨hha, hhb, hlta, -, hbv⟩ := hwf.arith_node ha hop rfl
    have hwa := weight_of_op hop (by decide)
    have hle := weight_le ctx (ctx.node a).a
    refine (hdistrib _ b b _ hha hb hb hhb (by omega) ?_).congr (fun vars => ?_)
    · rw [weight_const hk]
      omega
    · rw [hbv]
      show _ * _ + _ * _ = (_ + _) * _
      ring
  obtain ⟨⟨hop, hk⟩, rfl⟩ | ⟨-, hp⟩ := rule_cases hp
  · obtain ⟨hha, hhb, hlta, -, hbv⟩ := hwf.arith_node hb hop rfl
    have hwb := weight_of_op hop (by decide)
    have hle := weight_le ctx (ctx.node b).a
    refine (hdistrib a _ a _ ha hha ha hhb (by omega) ?_).congr (fun vars => ?_)
    · rw [weight_const hk]
      omega
    · rw [hbv]
      show _ * _ + _ * _ = _ * (_ + _)
      ring
  cases hp

theorem makes_mul (hwf : ctx.WF) (ha : ctx.Has w a) (hb : ctx.Has w b) :
    Makes (Make.binary .mul a b w) ctx w (fun vars => ctx.bv vars w a * ctx.bv vars w b) := by
  refine makesArith_of_rules rfl (fun ctx a b hwf ha hb ih => ?_) hwf ha hb
  exact makes_arith_rules hwf rfl ha hb (fun p hp => makes_mulRules hwf ha hb ih hp)

end Brass.Verify.Bv
