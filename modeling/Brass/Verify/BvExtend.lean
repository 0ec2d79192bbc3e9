import Brass.Verify.BvBitwise

/-!
# Extensions and choices

`make_zext`, `make_sext` and `make_ite` are right. A zero extension has the same word as its
operand, so its value is `bv` of the operand at the larger width.
-/

namespace Brass.Verify.Bv

open Brass.Util BVContext

variable {ctx : BVContext} {w aw a k : Nat}

/-! ## Zero extension -/

theorem Fits.toNat_cut_of_le {x : U64} (hx : Fits aw x) (haw : aw ≤ w) : (cut w x).toNat = x.toNat :=
  Fits.toNat_cut (Nat.lt_of_lt_of_le hx (Nat.pow_le_pow_right (by decide) haw))

theorem legal_ext {op : BVOp} (hop : op = .zext ∨ op = .sext) (ha : ctx.Has aw a) (hwf : ctx.WF)
    (hw : aw + k = w) (h : w ≤ 64) (hk : k ≠ 0) :
    ctx.Legal { op := op, width := w, a := a, extra := k } := by
  have hpos := hwf.w_pos ha
  have hwidth : w = ctx.width a + k := by rw [ha.2, hw]
  have hw0 : 0 < w := by omega
  rcases hop with rfl | rfl
  · exact ⟨.inr (.inr ⟨ha.1, hwf.nonempty, hwf.nonempty⟩), ⟨hwidth, Nat.pos_of_ne_zero hk⟩, hw0, h⟩
  · exact ⟨.inr (.inr ⟨ha.1, hwf.nonempty, hwf.nonempty⟩), ⟨hwidth, Nat.pos_of_ne_zero hk⟩, hw0, h⟩

theorem evalNode_zext (hwf : ctx.WF) (ha : ctx.Has aw a) (hw : aw + k = w) (h : w ≤ 64)
    (vars : List U64) :
    ctx.evalNode vars { op := .zext, width := w, a := a, extra := k } = ctx.val vars a := by
  rw [hwf.evalNode_eq (by simp) (by simp) ha.1 hwf.nonempty hwf.nonempty]
  exact evalOp_zext rfl rfl h (hwf.fits (has_width ha.1) vars) (by
    show ctx.width a ≤ w
    rw [ha.2]
    omega)

theorem and_mask_eq (hwf : ctx.WF) (ha : ctx.Has aw a) (hop : (ctx.node a).op = .extract)
    (hlo : (ctx.node a).extra = 0) (h : w ≤ 64) (haw : aw ≤ w) (vars : List U64) :
    ctx.bv vars w (ctx.node a).a &&& cut w (widthMask aw) = ctx.bv vars w a := by
  obtain ⟨-, -, -, -, hbv⟩ := hwf.extract_node ha hop
  have hval : ctx.val vars a = ctx.val vars (ctx.node a).a &&& widthMask aw := by
    rw [hwf.val_eq_lift ha vars, hbv, hlo, and_widthMask (by omega)]
    rfl
  rw [bv_eq_cut, bv_eq_cut, hval, cut_and]

theorem makes_zextOp (hwf : ctx.WF) (ha : ctx.Has aw a) (hw : aw + k = w) (h : w ≤ 64) :
    Makes (Make.zext a k) ctx w (fun vars => ctx.bv vars w a) := by
  induction a using Nat.strongRecOn generalizing aw k with
  | ind a ih =>
    have hpos := hwf.w_pos ha
    have hwa : (ctx.node a).width = aw := ha.2
    apply makes_zext
    unfold makeZext
    dsimp only
    rw [hwa, hw]
    split
    · rename_i hk
      exact makes_pure hwf ⟨ha.1, by rw [ha.2]; omega⟩ (fun _ => rfl)
    · rename_i hk
      split
      · rename_i hop
        obtain ⟨hfits, hval⟩ := hwf.const_node ha hop
        refine makes_const hwf (by omega) h (fun vars => ?_)
        rw [hfits.and_widthMask (by omega), bv_eq_cut, hval]
      · split
        · rename_i hop
          obtain ⟨hlt, hwx, -, hval⟩ := hwf.zext_node ha hop
          refine (ih _ hlt ⟨by have := ha.1; omega, rfl⟩ (by omega)).congr (fun vars => ?_)
          rw [bv_eq_cut, bv_eq_cut, hval]
        · split
          · rename_i hcond
            obtain ⟨hop, hlo, hwx⟩ := hcond
            obtain ⟨hlt, -⟩ := hwf.extract_node ha hop
            have hx : ctx.Has w (ctx.node a).a := ⟨by have := ha.1; omega, hwx⟩
            refine makes_bind_const hwf (by omega) h (fun c ctx' hm => ?_)
            refine (makes_and hm.wf (hm.ext.has hx) hm.has).congr (fun vars => ?_)
            rw [hm.ext.bv hm.wf hx, hm.bv]
            exact and_mask_eq hwf ha hop hlo h (by omega) vars
          · refine makes_intern hwf (legal_ext (.inl rfl) ha hwf hw h hk) rfl (fun vars => ?_)
            rw [evalNode_zext hwf ha hw h, bv_eq_cut]

/-! ## Sign extension -/

theorem evalNode_sext (hwf : ctx.WF) (ha : ctx.Has aw a) (hw : aw + k = w) (h : w ≤ 64)
    (vars : List U64) :
    cut w (ctx.evalNode vars { op := .sext, width := w, a := a, extra := k }) =
      (ctx.bv vars aw a).signExtend w := by
  have hpos := hwf.w_pos ha
  rw [hwf.evalNode_eq (by simp) (by simp) ha.1 hwf.nonempty hwf.nonempty]
  show cut w (evalOp _ (ctx.width a) _ _ _ _) = _
  rw [ha.2, evalOp_sext (w := w) rfl rfl h hpos (by omega), cut_lift h]
  rfl

theorem signExtend_eq_of_nonneg {x : U64} (hx : Fits aw x) (haw : aw ≤ w)
    (hs : 0 ≤ (cut aw x).toInt) : (cut aw x).signExtend w = cut w x := by
  apply BitVec.eq_of_toNat_eq
  have hval := hx.toNat_eq
  rw [if_pos hs] at hval
  rw [hx.toNat_cut_of_le haw, BitVec.signExtend, BitVec.toNat_ofInt, ← hval]
  have hlt : x.toNat < 2 ^ w := Nat.lt_of_lt_of_le hx (Nat.pow_le_pow_right (by decide) haw)
  exact_mod_cast Nat.mod_eq_of_lt hlt

theorem signExtend_signExtend {v : Nat} (x : BitVec v) (hv : v ≤ aw) (haw : aw ≤ w) :
    (x.signExtend aw).signExtend w = x.signExtend w := by
  apply BitVec.eq_of_toInt_eq
  rw [BitVec.toInt_signExtend_of_le haw, BitVec.toInt_signExtend_of_le hv,
    BitVec.toInt_signExtend_of_le (Nat.le_trans hv haw)]

theorem makes_sextOp (hwf : ctx.WF) (ha : ctx.Has aw a) (hw : aw + k = w) (h : w ≤ 64) :
    Makes (Make.sext a k) ctx w (fun vars => (ctx.bv vars aw a).signExtend w) := by
  induction a using Nat.strongRecOn generalizing aw k with
  | ind a ih =>
    have hpos := hwf.w_pos ha
    have hwa : (ctx.node a).width = aw := ha.2
    apply makes_sext
    unfold makeSext
    dsimp only
    rw [hwa, hw]
    split
    · rename_i hk
      obtain rfl : aw = w := by omega
      exact makes_pure hwf ha (fun vars => (BitVec.signExtend_eq _).symm)
    · rename_i hk
      split
      · rename_i hop
        obtain ⟨-, hval⟩ := hwf.const_node ha hop
        refine makes_const hwf (by omega) h (fun vars => ?_)
        rw [cut_ofInt h, signExtendBits_eq hpos (by omega), bv_eq_cut, hval]
        rfl
      · split
        · rename_i hop
          obtain ⟨hlt, hwx, hbv⟩ := hwf.sext_node ha hop
          refine (ih _ hlt ⟨by have := ha.1; omega, rfl⟩ (by omega)).congr (fun vars => ?_)
          rw [hbv, signExtend_signExtend _ (by omega) (by omega)]
        · split
          · -- A zero extension has a zero on top.
            rename_i hop
            obtain ⟨hlt, hwx, hextra, hval⟩ := hwf.zext_node ha hop
            have hx : ctx.Has (ctx.width (ctx.node a).a) (ctx.node a).a :=
              ⟨by have := ha.1; omega, rfl⟩
            refine (makes_zextOp hwf hx (k := (ctx.node a).extra + k) (by omega) h).congr
              (fun vars => ?_)
            have hfits := hwf.fits hx vars
            have hlt' : (ctx.val vars a).toNat < 2 ^ (aw - 1) := by
              rw [hval]
              exact Nat.lt_of_lt_of_le hfits (Nat.pow_le_pow_right (by decide) (by omega))
            have hint := (hwf.fits ha vars).toInt_cut hlt' hpos
            rw [bv_eq_cut, bv_eq_cut,
              signExtend_eq_of_nonneg (hwf.fits ha vars) (by omega) (by omega), hval]
          · split
            · rename_i hmin
              refine (makes_zextOp hwf ha hw h).congr (fun vars => ?_)
              have hsmin := (hwf.holds a ha.1 vars).smin
              rw [ha.2] at hsmin
              rw [bv_eq_cut, bv_eq_cut,
                signExtend_eq_of_nonneg (hwf.fits ha vars) (by omega) (by omega)]
            · exact makes_intern hwf (legal_ext (.inr rfl) ha hwf hw h hk) rfl (evalNode_sext hwf ha hw h)

/-! ## Choice -/

/-- The value of `make_ite`. -/
def iteBv (ctx : BVContext) (w c t f : Nat) (vars : List U64) : BitVec w :=
  if ctx.val vars c = 0#64 then ctx.bv vars w f else ctx.bv vars w t

variable {c t f : Nat}

section

variable (hwf : ctx.WF) (hc : ctx.Has 1 c) (ht : ctx.Has w t) (hf : ctx.Has w f)
include hwf hc ht hf

theorem legal_ite : ctx.Legal { op := .ite, width := w, a := c, b := t, c := f } :=
  ⟨.inr (.inr ⟨hc.1, ht.1, hf.1⟩), ⟨hc.2, ht.2, hf.2⟩, hwf.w_pos ht, hwf.w_le ht⟩

theorem evalNode_ite (vars : List U64) :
    cut w (ctx.evalNode vars { op := .ite, width := w, a := c, b := t, c := f }) =
      iteBv ctx w c t f vars := by
  rw [hwf.evalNode_eq (by simp) (by simp) hc.1 ht.1 hf.1,
    evalOp_ite (w := w) rfl rfl (hwf.w_le ht) (hwf.fits ht vars) (hwf.fits hf vars)]
  unfold iteBv
  split <;> rfl

theorem makes_iteArms : Makes (makeIteArms ctx c t f) ctx w (iteBv ctx w c t f) := by
  have hwt : (ctx.node t).width = w := ht.2
  unfold makeIteArms
  dsimp only
  split
  · rename_i heq
    subst heq
    exact makes_pure hwf ht (fun vars => (ite_self _).symm)
  · split
    · rename_i hcond
      obtain ⟨hw1, hopt, hopf, himmt, himmf⟩ := hcond
      obtain rfl : w = 1 := hwt.symm.trans hw1
      refine makes_pure hwf hc (fun vars => ?_)
      unfold iteBv
      rw [hwf.bv_const ht hopt, hwf.bv_const hf hopf, himmt, himmf, bv_eq_cut]
      rcases bit_cases hwf hc vars with h | h <;> rw [h] <;> rfl
    · split
      · rename_i hcond
        obtain ⟨hw1, hopt, hopf, himmt, himmf⟩ := hcond
        obtain rfl : w = 1 := hwt.symm.trans hw1
        refine (makes_not hwf hc).congr (fun vars => ?_)
        unfold iteBv
        rw [hwf.bv_const ht hopt, hwf.bv_const hf hopf, himmt, himmf, bv_eq_cut]
        rcases bit_cases hwf hc vars with h | h <;> rw [h] <;> rfl
      · rw [hwt]
        exact makes_intern hwf (legal_ite hwf hc ht hf) rfl (evalNode_ite hwf hc ht hf)

end

/-- An arm that repeats the condition may be replaced by its own arm. -/
theorem then_arm (hwf : ctx.WF) (ht : ctx.Has w t) :
    ctx.Has w (if (ctx.node t).op = .ite ∧ (ctx.node t).a = c then (ctx.node t).b else t) ∧
      ∀ vars, ctx.val vars c ≠ 0#64 → ctx.bv vars w
        (if (ctx.node t).op = .ite ∧ (ctx.node t).a = c then (ctx.node t).b else t) =
          ctx.bv vars w t := by
  split
  · rename_i hcond
    obtain ⟨-, hb, -, -, -, -, hval⟩ := hwf.ite_node ht hcond.1
    refine ⟨hb, fun vars hc => ?_⟩
    rw [bv_eq_cut, bv_eq_cut, hval, hcond.2, if_neg hc]
  · exact ⟨ht, fun _ _ => rfl⟩

theorem else_arm (hwf : ctx.WF) (hf : ctx.Has w f) :
    ctx.Has w (if (ctx.node f).op = .ite ∧ (ctx.node f).a = c then (ctx.node f).c else f) ∧
      ∀ vars, ctx.val vars c = 0#64 → ctx.bv vars w
        (if (ctx.node f).op = .ite ∧ (ctx.node f).a = c then (ctx.node f).c else f) =
          ctx.bv vars w f := by
  split
  · rename_i hcond
    obtain ⟨-, -, hc', -, -, -, hval⟩ := hwf.ite_node hf hcond.1
    refine ⟨hc', fun vars hc => ?_⟩
    rw [bv_eq_cut, bv_eq_cut, hval, hcond.2, if_pos hc]
  · exact ⟨hf, fun _ _ => rfl⟩

theorem makes_iteOp (hwf : ctx.WF) (hc : ctx.Has 1 c) (ht : ctx.Has w t) (hf : ctx.Has w f) :
    Makes (Make.ite c t f) ctx w (iteBv ctx w c t f) := by
  induction c using Nat.strongRecOn generalizing t f with
  | ind c ih =>
    apply makes_ite
    unfold makeIte
    dsimp only
    by_cases heq : t = f
    · subst heq
      rw [if_pos rfl]
      exact makes_pure hwf ht (fun vars => (ite_self _).symm)
    rw [if_neg heq]
    by_cases hconst : (ctx.node c).op = .const
    · rw [if_pos hconst]
      obtain ⟨-, hval⟩ := hwf.const_node hc hconst
      unfold iteBv
      simp only [hval]
      by_cases h0 : (ctx.node c).imm = 0
      · rw [if_neg (not_not.mpr h0)]
        exact makes_pure hwf hf (fun vars => (if_pos h0).symm)
      · rw [if_pos h0]
        exact makes_pure hwf ht (fun vars => (if_neg h0).symm)
    rw [if_neg hconst]
    by_cases hnot : (ctx.node c).op = .not
    · rw [if_pos hnot]
      obtain ⟨hx, hlt, hbv⟩ := hwf.not_node hc hnot
      refine (ih _ hlt hx hf ht).congr (fun vars => ?_)
      -- The negation of a bit exchanges the arms.
      have hval : ctx.val vars c = lift (~~~cut 1 (ctx.val vars (ctx.node c).a)) := by
        rw [hwf.val_eq_lift hc, hbv, bv_eq_cut]
      unfold iteBv
      rw [hval]
      rcases bit_cases hwf hx vars with h | h <;> rw [h] <;> rfl
    rw [if_neg hnot]
    obtain ⟨ht', hbvt⟩ := then_arm (c := c) hwf ht
    obtain ⟨hf', hbvf⟩ := else_arm (c := c) hwf hf
    refine (makes_iteArms hwf hc ht' hf').congr (fun vars => ?_)
    unfold iteBv
    split
    · rename_i h0
      exact hbvf vars h0
    · rename_i h0
      exact hbvt vars h0

end Brass.Verify.Bv
