import Brass.Verify.BvArith
import Brass.Verify.BvExtend

/-!
# Extraction and concatenation

`make_extract` and `make_concat` are right. The value of an extraction is `part`: the bits
of the operand from `lo` on, cut to the width of the result.
-/

namespace Brass.Verify.Bv

open Brass.Util BVContext BitVec

variable {ctx ctx' : BVContext} {op : BVOp} {w aw bw a b hi lo : Nat}

def part (w lo : Nat) (x : U64) : BitVec w := cut w (x >>> lo)

theorem getLsbD_part (x : U64) (i : Nat) :
    (part w lo x).getLsbD i = (decide (i < w) && x.getLsbD (lo + i)) := by
  rw [part, getLsbD_cut, getLsbD_ushiftRight]

theorem part_zero (x : U64) : part w 0 x = cut w x := by
  rw [part, ushiftRight_zero]

theorem part_congr {lo' : Nat} {x y : U64}
    (h : ∀ i < w, x.getLsbD (lo + i) = y.getLsbD (lo' + i)) : part w lo x = part w lo' y := by
  apply eq_of_getLsbD_eq
  intro i hi
  rw [getLsbD_part, getLsbD_part, h i hi]

/-! ## The bits of a node -/

theorem extract_bits (hwf : ctx.WF) (ha : ctx.Has aw a) (hop : (ctx.node a).op = .extract)
    (vars : List U64) {i : Nat} (hi : i < aw) : (ctx.val vars a).getLsbD i =
      (ctx.val vars (ctx.node a).a).getLsbD ((ctx.node a).extra + i) := by
  obtain ⟨-, -, -, -, hbv⟩ := hwf.extract_node ha hop
  rw [hwf.val_eq_lift ha vars, getLsbD_lift (hwf.w_le ha), hbv, getLsbD_cut,
    getLsbD_ushiftRight, decide_eq_true hi, Bool.true_and]

theorem sext_bits (hwf : ctx.WF) (ha : ctx.Has aw a) (hop : (ctx.node a).op = .sext)
    (vars : List U64) {i : Nat} (hi : i < ctx.width (ctx.node a).a) :
    (ctx.val vars a).getLsbD i = (ctx.val vars (ctx.node a).a).getLsbD i := by
  obtain ⟨-, hw, hbv⟩ := hwf.sext_node ha hop
  rw [hwf.val_eq_lift ha vars, getLsbD_lift (hwf.w_le ha), hbv, getLsbD_signExtend,
    if_pos hi, bv_eq_cut, getLsbD_cut, decide_eq_true hi, decide_eq_true (by omega)]
  rfl

theorem concat_bits (hwf : ctx.WF) (ha : ctx.Has aw a) (hop : (ctx.node a).op = .concat)
    (vars : List U64) (i : Nat) (hi : i < aw) : (ctx.val vars a).getLsbD i =
      if i < ctx.width (ctx.node a).b then (ctx.val vars (ctx.node a).b).getLsbD i
      else (ctx.val vars (ctx.node a).a).getLsbD (i - ctx.width (ctx.node a).b) := by
  obtain ⟨-, -, hw, hval⟩ := hwf.concat_node ha hop
  have hle := hwf.w_le ha
  rw [hval, getLsbD_lift (by omega), getLsbD_append]
  split
  · rename_i h
    rw [bv_eq_cut, getLsbD_cut, decide_eq_true h, Bool.true_and]
  · rename_i h
    rw [bv_eq_cut, getLsbD_cut, decide_eq_true (by omega), Bool.true_and]

/-! ## Operators on low bits -/

theorem makes_lowBits (ho : isLowBitsOp op = true) (hwf : ctx.WF) (ha : ctx.Has w a)
    (hb : ctx.Has w b) : MakesArith op ctx w a b := by
  cases op <;> first | exact absurd ho (by decide) | skip
  · exact makes_and hwf ha hb
  · exact makes_or hwf ha hb
  · exact makes_xor hwf ha hb
  · exact makes_add hwf ha hb
  · exact makes_sub hwf ha hb
  · exact makes_mul hwf ha hb

theorem cut_lift_arith (ho : isLowBitsOp op = true) (hw : w ≤ aw) (h : aw ≤ 64) (x y : U64) :
    cut w (lift (arith op (cut aw x) (cut aw y))) = arith op (cut w x) (cut w y) := by
  have hcut : ∀ z : BitVec aw, cut w (lift z) = z.setWidth w := by
    intro z
    exact setWidth_setWidth_of_le _ (by omega)
  have hcut' : ∀ z : U64, (cut aw z).setWidth w = cut w z := by
    intro z
    exact setWidth_setWidth_of_le _ hw
  rw [hcut]
  cases op <;> first | exact absurd ho (by decide) | simp only [arith]
  · rw [setWidth_and, hcut', hcut']
  · rw [setWidth_or, hcut', hcut']
  · rw [setWidth_xor, hcut', hcut']
  · rw [setWidth_add _ _ hw, hcut', hcut']
  · rw [sub_eq_add_neg, setWidth_add _ _ hw, setWidth_neg_of_le hw, hcut', hcut', sub_eq_add_neg]
  · rw [setWidth_mul _ _ hw, hcut', hcut']

theorem isArith_of_isLowBitsOp (ho : isLowBitsOp op = true) : isArith op = true := by
  cases op <;> first | exact absurd ho (by decide) | rfl

/-! ## Extract -/

theorem legal_extract (hwf : ctx.WF) (ha : ctx.Has aw a) (hlo : lo ≤ hi) (hhi : hi < aw)
    (hw : w = hi - lo + 1) :
    ctx.Legal { op := .extract, width := w, a := a, imm := BitVec.ofNat 64 hi, extra := lo } := by
  have hle := hwf.w_le ha
  have himm : (BitVec.ofNat 64 hi).toNat = hi := by
    rw [BitVec.toNat_ofNat, Nat.mod_eq_of_lt (by omega)]
  refine ⟨Or.inr (Or.inr ⟨ha.1, hwf.nonempty, hwf.nonempty⟩), ?_, ?_, ?_⟩
  · show lo ≤ (BitVec.ofNat 64 hi).toNat ∧ (BitVec.ofNat 64 hi).toNat < ctx.width a ∧
      w = (BitVec.ofNat 64 hi).toNat - lo + 1
    rw [himm, ha.2]
    exact ⟨hlo, hhi, hw⟩
  · show 0 < w
    omega
  · show w ≤ 64
    omega

theorem evalNode_extract (hwf : ctx.WF) (ha : ctx.Has aw a) (h : w ≤ 64) (imm : U64)
    (vars : List U64) :
    cut w (ctx.evalNode vars { op := .extract, width := w, a := a, imm := imm, extra := lo }) =
      part w lo (ctx.val vars a) := by
  rw [hwf.evalNode_eq (by simp) (by simp) ha.1 hwf.nonempty hwf.nonempty,
    evalOp_extract (w := w) rfl rfl h, cut_lift h]
  rfl

def MakesExtract (ctx : BVContext) (a hi lo : Nat) : Prop :=
  Makes (Make.extract a hi lo) ctx (hi - lo + 1)
    (fun vars => part (hi - lo + 1) lo (ctx.val vars a))

/-- It is right for all operands before `a`. -/
def ExtractBelow (a : Nat) : Prop :=
  ∀ (ctx : BVContext) (x hi lo : Nat), x < a → ctx.WF → x < ctx.nodes.length → lo ≤ hi →
    hi < ctx.width x → MakesExtract ctx x hi lo

section Rules

variable (hwf : ctx.WF) (ha : ctx.Has aw a) (hlo : lo ≤ hi) (hhi : hi < aw)
include hwf ha hlo hhi

omit hlo hhi in
theorem makes_extract_operand {x hi' lo' : Nat} (ih : ExtractBelow a) (hlt : x < a)
    (hhi' : hi' < ctx.width x) (hlo' : lo' ≤ hi') (hw : hi' - lo' = hi - lo)
    (hbits : ∀ vars, ∀ i < hi - lo + 1,
      (ctx.val vars x).getLsbD (lo' + i) = (ctx.val vars a).getLsbD (lo + i)) :
    Makes (Make.extract x hi' lo') ctx (hi - lo + 1)
      (fun vars => part (hi - lo + 1) lo (ctx.val vars a)) := by
  have hx : x < ctx.nodes.length := by
    have := ha.1
    omega
  have hmake := ih ctx x hi' lo' hlt hwf hx hlo' hhi'
  unfold MakesExtract at hmake
  rw [hw] at hmake
  exact hmake.congr (fun vars => part_congr (hbits vars))

theorem makes_extract_ite (ih : ExtractBelow a) (hop : (ctx.node a).op = .ite) :
    Makes (Make.extract (ctx.node a).b hi lo >>= fun t => Make.extract (ctx.node a).c hi lo >>=
      fun f => Make.ite (ctx.node a).a t f) ctx (hi - lo + 1)
      (fun vars => part (hi - lo + 1) lo (ctx.val vars a)) := by
  obtain ⟨hc, ht, hf, -, hltt, hltf, hval⟩ := hwf.ite_node ha hop
  refine makes_bind (ih ctx _ hi lo hltt hwf ht.1 hlo (by rw [ht.2]; exact hhi))
    (fun t ctx₁ hm₁ => ?_)
  have hf₁ := hm₁.ext.has hf
  refine makes_bind (ih ctx₁ _ hi lo hltf hm₁.wf hf₁.1 hlo (by rw [hf₁.2]; exact hhi))
    (fun f ctx₂ hm₂ => ?_)
  have hext := hm₁.ext.trans hm₂.ext
  refine (makes_iteOp hm₂.wf (hext.has hc) (hm₂.ext.has hm₁.has) hm₂.has).congr (fun vars => ?_)
  unfold iteBv
  rw [hext.val hm₂.wf.ordered hc.1, hm₂.ext.bv hm₂.wf hm₁.has, hm₁.bv, hm₂.bv,
    hm₁.ext.val hm₁.wf.ordered hf.1, hval]
  split <;> rfl

theorem makes_extract_lowBits (ih : ExtractBelow a) (ho : isLowBitsOp (ctx.node a).op = true)
    (hzero : lo = 0) :
    Makes (Make.extract (ctx.node a).a hi 0 >>= fun x => Make.extract (ctx.node a).b hi 0 >>=
      fun y => Make.binary (ctx.node a).op x y (hi - lo + 1)) ctx (hi - lo + 1)
      (fun vars => part (hi - lo + 1) lo (ctx.val vars a)) := by
  subst hzero
  obtain ⟨hx, hy, hltx, hlty, hbv⟩ := hwf.arith_node ha rfl (isArith_of_isLowBitsOp ho)
  refine makes_bind (ih ctx _ hi 0 hltx hwf hx.1 hlo (by rw [hx.2]; exact hhi))
    (fun x ctx₁ hm₁ => ?_)
  have hy₁ := hm₁.ext.has hy
  refine makes_bind (ih ctx₁ _ hi 0 hlty hm₁.wf hy₁.1 hlo (by rw [hy₁.2]; exact hhi))
    (fun y ctx₂ hm₂ => ?_)
  refine Makes.congr (makes_lowBits ho hm₂.wf (hm₂.ext.has hm₁.has) hm₂.has) (fun vars => ?_)
  rw [hm₂.ext.bv hm₂.wf hm₁.has, hm₁.bv, hm₂.bv, hm₁.ext.val hm₁.wf.ordered hy.1, part_zero,
    part_zero, part_zero, hwf.val_eq_lift ha, hbv]
  exact (cut_lift_arith ho (by omega) (hwf.w_le ha) _ _).symm

theorem makes_extract_shl (ih : ExtractBelow a) (hop : (ctx.node a).op = .shl)
    (hk : (ctx.node (ctx.node a).b).op = .const) (hzero : lo = 0)
    (hlt : ((ctx.node (ctx.node a).b).imm &&& BitVec.ofNat 64 (shiftMask aw)).toNat < hi - lo + 1) :
    Makes (Make.extract (ctx.node a).a hi 0 >>= fun x =>
      Make.const ((ctx.node (ctx.node a).b).imm &&& BitVec.ofNat 64 (shiftMask aw)) (hi - lo + 1) >>=
      fun y => Make.binary .shl x y (hi - lo + 1)) ctx (hi - lo + 1)
      (fun vars => part (hi - lo + 1) lo (ctx.val vars a)) := by
  subst hzero
  have h := hwf.w_le ha
  obtain ⟨hx, hltx, hltb, hbv⟩ := hwf.shift_node ha hop rfl
  have hb : (ctx.node a).b < ctx.nodes.length := by
    have := ha.1
    omega
  have hamount := shiftAmount_const (w := aw) hwf hb hk
  generalize (ctx.node (ctx.node a).b).imm &&& BitVec.ofNat 64 (shiftMask aw) = s at *
  have hfits : Fits (hi - 0 + 1) s := by
    unfold Fits
    have : hi - 0 + 1 < 2 ^ (hi - 0 + 1) := Nat.lt_two_pow_self
    omega
  refine makes_bind (ih ctx _ hi 0 hltx hwf hx.1 hlo (by rw [hx.2]; exact hhi))
    (fun x ctx₁ hm₁ => ?_)
  refine makes_bind_const hm₁.wf (by omega) (by omega) (fun y ctx₂ hm₂ => ?_)
  refine Makes.congr (makes_shiftOp hm₂.wf rfl (hm₂.ext.has hm₁.has) hm₂.has.1) (fun vars => ?_)
  rw [hm₂.ext.bv hm₂.wf hm₁.has, hm₁.bv, hm₂.val hfits, shiftAmount_of_lt (by omega) hlt,
    part_zero, part_zero, hwf.val_eq_lift ha, hbv, hamount]
  show cut _ _ <<< s.toNat = cut _ (lift (cut aw _ <<< s.toNat))
  apply BitVec.eq_of_getLsbD_eq
  intro i hi'
  rw [BitVec.getLsbD_shiftLeft, getLsbD_cut, getLsbD_cut, getLsbD_lift h,
    BitVec.getLsbD_shiftLeft, getLsbD_cut]
  rw [Nat.sub_zero] at hi' ⊢
  by_cases hs : i < s.toNat
  · simp [hs]
  · simp [hi', hs, show i < aw by omega, show i - s.toNat < aw by omega,
      show i - s.toNat < hi + 1 by omega]

theorem makes_makeExtract (ih : ExtractBelow a) : MakesExtract ctx a hi lo := by
  have hle := hwf.w_le ha
  have hwa : (ctx.node a).width = aw := ha.2
  apply makes_extract
  unfold makeExtract
  dsimp only
  by_cases h₁ : lo = 0 ∧ hi + 1 = (ctx.node a).width
  · rw [if_pos h₁]
    refine makes_pure hwf ⟨ha.1, by rw [ha.2]; omega⟩ (fun vars => ?_)
    rw [h₁.1, part_zero]
    rfl
  rw [if_neg h₁]
  by_cases h₂ : (ctx.node a).op = .const
  · rw [if_pos h₂]
    refine makes_const hwf (by omega) (by omega) (fun vars => ?_)
    rw [cut_and_widthMask (by omega), (hwf.const_node ha h₂).2]
    rfl
  rw [if_neg h₂]
  by_cases h₃ : ((ctx.interval a).knownZeros >>> lo) &&& widthMask (hi - lo + 1) =
      widthMask (hi - lo + 1)
  · rw [if_pos h₃]
    refine makes_const hwf (by omega) (by omega) (fun vars => ?_)
    apply BitVec.eq_of_getLsbD_eq
    intro i hi'
    have hz : (ctx.interval a).knownZeros.getLsbD (lo + i) = true := by
      rw [← BitVec.getLsbD_ushiftRight]
      refine and_eq_right_iff.mp h₃ i ?_
      rw [getLsbD_widthMask (by omega), decide_eq_true hi']
    rw [getLsbD_part, (hwf.holds a ha.1 vars).zeros _ hz]
    simp [cut]
  rw [if_neg h₃]
  by_cases h₄ : (ctx.node a).op = .ite
  · rw [if_pos h₄]
    exact makes_extract_ite hwf ha hlo hhi ih h₄
  rw [if_neg h₄]
  by_cases h₅ : (ctx.node a).op = .extract
  · rw [if_pos h₅]
    obtain ⟨hlt, hle₁, hle₂, hw', -⟩ := hwf.extract_node ha h₅
    refine makes_extract_operand hwf ha ih hlt (by omega) (by omega) (by omega)
      (fun vars i hi' => ?_)
    rw [extract_bits hwf ha h₅ vars (by omega), Nat.add_assoc]
  rw [if_neg h₅]
  by_cases h₆ : ((ctx.node a).op = .zext ∨ (ctx.node a).op = .sext) ∧ hi < ctx.width (ctx.node a).a
  · rw [if_pos h₆]
    obtain ⟨hop, hlt'⟩ := h₆
    rcases hop with hop | hop
    · obtain ⟨hlt, -, -, hval⟩ := hwf.zext_node ha hop
      refine makes_extract_operand hwf ha ih hlt hlt' hlo rfl (fun vars i hi' => ?_)
      rw [hval]
    · obtain ⟨hlt, -, -⟩ := hwf.sext_node ha hop
      refine makes_extract_operand hwf ha ih hlt hlt' hlo rfl (fun vars i hi' => ?_)
      rw [sext_bits hwf ha hop vars (by omega)]
  rw [if_neg h₆]
  by_cases h₇ : (ctx.node a).op = .zext ∧ lo ≥ ctx.width (ctx.node a).a
  · rw [if_pos h₇]
    obtain ⟨hlt, -, -, hval⟩ := hwf.zext_node ha h₇.1
    have hfits' := hwf.fits (has_width (show (ctx.node a).a < ctx.nodes.length by
      have := ha.1
      omega))
    refine makes_const hwf (by omega) (by omega) (fun vars => ?_)
    apply BitVec.eq_of_getLsbD_eq
    intro i hi'
    rw [getLsbD_part, hval, (hfits' vars).getLsbD (by omega)]
    simp [cut]
  rw [if_neg h₇]
  by_cases h₈ : (ctx.node a).op = .concat ∧ hi < ctx.width (ctx.node a).b
  · rw [if_pos h₈]
    obtain ⟨-, hlt, -, -⟩ := hwf.concat_node ha h₈.1
    refine makes_extract_operand hwf ha ih hlt h₈.2 hlo rfl (fun vars i hi' => ?_)
    rw [concat_bits hwf ha h₈.1 vars _ (by omega), if_pos (by omega)]
  rw [if_neg h₈]
  by_cases h₉ : (ctx.node a).op = .concat ∧ lo ≥ ctx.width (ctx.node a).b
  · rw [if_pos h₉]
    obtain ⟨hlt, -, hw', -⟩ := hwf.concat_node ha h₉.1
    refine makes_extract_operand hwf ha ih hlt (by omega) (by omega) (by omega)
      (fun vars i hi' => ?_)
    rw [concat_bits hwf ha h₉.1 vars _ (by omega), if_neg (by omega)]
    congr 1
    omega
  rw [if_neg h₉]
  by_cases h₁₀ : lo = 0 ∧ isLowBitsOp (ctx.node a).op = true
  · rw [if_pos h₁₀]
    exact makes_extract_lowBits hwf ha hlo hhi ih h₁₀.2 h₁₀.1
  rw [if_neg h₁₀, hwa]
  by_cases h₁₁ : lo = 0 ∧ (ctx.node a).op = .shl ∧ (ctx.node (ctx.node a).b).op = .const ∧
      ((ctx.node (ctx.node a).b).imm &&& BitVec.ofNat 64 (shiftMask aw)).toNat < hi - lo + 1
  · rw [if_pos h₁₁]
    exact makes_extract_shl hwf ha hlo hhi ih h₁₁.2.1 h₁₁.2.2.1 h₁₁.1 h₁₁.2.2.2
  rw [if_neg h₁₁]
  exact makes_intern hwf (legal_extract hwf ha hlo hhi rfl) rfl
    (evalNode_extract hwf ha (by omega) _)

end Rules

theorem makes_extractOp (hwf : ctx.WF) (ha : ctx.Has aw a) (hlo : lo ≤ hi) (hhi : hi < aw) :
    MakesExtract ctx a hi lo := by
  induction a using Nat.strongRecOn generalizing ctx aw hi lo with
  | ind a ih =>
    refine makes_makeExtract hwf ha hlo hhi ?_
    intro ctx' x hi' lo' hlt hwf' hx hlo' hhi'
    exact ih x hlt hwf' ⟨hx, rfl⟩ hlo' hhi'

/-! ## Concat -/

/-- The value of `make_concat`. -/
def concatWord (bw : Nat) (x y : U64) : U64 := (x <<< bw) ||| y

theorem getLsbD_cut_concatWord (h : w ≤ 64) {x y : U64} (hy : Fits bw y) {i : Nat} (hi : i < w) :
    (cut w (concatWord bw x y)).getLsbD i = if i < bw then y.getLsbD i else x.getLsbD (i - bw) := by
  rw [getLsbD_cut, concatWord, getLsbD_or, getLsbD_shiftLeft, decide_eq_true hi]
  split
  · rename_i hb
    simp [hb]
  · rename_i hb
    rw [hy.getLsbD (by omega)]
    simp [hb, show i < 64 by omega]

theorem legal_concat (hwf : ctx.WF) (ha : ctx.Has aw a) (hb : ctx.Has bw b) (hw : w = aw + bw)
    (h : w ≤ 64) : ctx.Legal { op := .concat, width := w, a := a, b := b } := by
  have hpos := hwf.w_pos ha
  refine ⟨Or.inr (Or.inr ⟨ha.1, hb.1, hwf.nonempty⟩), ?_, ?_, h⟩
  · show w = ctx.width a + ctx.width b
    rw [ha.2, hb.2, hw]
  · show 0 < w
    omega

theorem evalNode_concat (hwf : ctx.WF) (ha : a < ctx.nodes.length) (hb : ctx.Has bw b) (h : w ≤ 64) (vars : List U64) :
    cut w (ctx.evalNode vars { op := .concat, width := w, a := a, b := b }) =
      cut w (concatWord bw (ctx.val vars a) (ctx.val vars b)) := by
  rw [hwf.evalNode_eq (by simp) (by simp) ha hb.1 hwf.nonempty]
  show cut w (evalOp _ (ctx.width a) (ctx.width b) _ _ _) = _
  simp only [evalOp]
  rw [cut_and_widthMask h, hb.2, (hwf.fits hb vars).and_widthMask (hwf.w_le hb), concatWord]

theorem makes_concatOp (hwf : ctx.WF) (ha : ctx.Has aw a) (hb : ctx.Has bw b) (hw : w = aw + bw)
    (h : w ≤ 64) : Makes (Make.concat a b) ctx w
      (fun vars => cut w (concatWord bw (ctx.val vars a) (ctx.val vars b))) := by
  have hpos := hwf.w_pos ha
  have hposb := hwf.w_pos hb
  have hwa : (ctx.node a).width = aw := ha.2
  have hwb : (ctx.node b).width = bw := hb.2
  apply makes_concat
  unfold makeConcat
  dsimp only
  rw [hwa, hwb, ← hw]
  by_cases h₁ : (ctx.node a).op = .const ∧ (ctx.node b).op = .const
  · rw [if_pos h₁]
    obtain ⟨hfa, hva⟩ := hwf.const_node ha h₁.1
    obtain ⟨hfb, hvb⟩ := hwf.const_node hb h₁.2
    refine makes_const hwf (by omega) h (fun vars => ?_)
    rw [hfa.and_widthMask (by omega), hfb.and_widthMask (by omega), hva, hvb, concatWord]
  rw [if_neg h₁]
  by_cases h₂ : (ctx.node a).op = .const ∧ (ctx.node a).imm = 0
  · rw [if_pos h₂]
    refine (makes_zextOp hwf hb (by omega) h).congr (fun vars => ?_)
    rw [(hwf.const_node ha h₂.1).2, h₂.2, bv_eq_cut, concatWord]
    simp
  rw [if_neg h₂]
  by_cases h₃ : (ctx.node a).op = .extract ∧ (ctx.node b).op = .extract ∧
      (ctx.node a).a = (ctx.node b).a ∧
      (ctx.node b).imm + 1 = BitVec.ofNat 64 (ctx.node a).extra
  · rw [if_pos h₃]
    obtain ⟨hopa, hopb, hsame, hnext⟩ := h₃
    obtain ⟨hlt, hle₁, hle₂, hwa', -⟩ := hwf.extract_node ha hopa
    obtain ⟨-, hle₃, hle₄, hwb', -⟩ := hwf.extract_node hb hopb
    have hx : (ctx.node a).a < ctx.nodes.length := by
      have := ha.1
      omega
    have hle := hwf.le _ hx
    -- The parts are adjacent: neither of the additions wraps.
    have hadj : (ctx.node b).imm.toNat + 1 = (ctx.node a).extra := by
      have := congrArg BitVec.toNat hnext
      rw [BitVec.toNat_add, BitVec.toNat_ofNat, show (1 : U64).toNat = 1 from rfl] at this
      rw [← hsame] at hle₄
      omega
    have hmake : MakesExtract ctx _ (ctx.node a).imm.toNat (ctx.node b).extra :=
      makes_extractOp hwf (has_width hx) (by omega) hle₂
    unfold MakesExtract at hmake
    rw [show (ctx.node a).imm.toNat - (ctx.node b).extra + 1 = w by omega] at hmake
    refine hmake.congr (fun vars => ?_)
    apply BitVec.eq_of_getLsbD_eq
    intro i hi
    rw [getLsbD_part, getLsbD_cut_concatWord h (hwf.fits hb vars) hi, decide_eq_true hi,
      Bool.true_and]
    split
    · rename_i hib
      rw [extract_bits hwf hb hopb vars hib, ← hsame]
    · rename_i hib
      rw [extract_bits hwf ha hopa vars (by omega)]
      congr 1
      omega
  rw [if_neg h₃]
  exact makes_intern hwf (legal_concat hwf ha hb hw h) rfl (evalNode_concat hwf ha.1 hb h)

end Brass.Verify.Bv
