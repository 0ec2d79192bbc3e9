import Brass.Verify.BvCompare
import Brass.Verify.BvMagic
import Brass.Verify.BvParts

/-!
# Divisions and remainders

`UDiv`, `SDiv`, `URem` and `SRem` are right, the unsigned ones by a constant of 32 bits only
when the search for its magic constants succeeds. A signed operator with a positive constant
works on the absolute value.
-/

namespace Brass.Verify.Bv

open Brass.Util BVContext BitVec

variable {ctx ctx' : BVContext} {w a b x : Nat}

/-! ## Multiplication by magic constants -/

variable {d k m : Nat} {mag : MagicConstU32} {op : BVOp} {y : BitVec w}

theorem makes_lshr_const (hwf : ctx.WF) (hx : ctx.Has w x) (hk : k < w) :
    Makes (Make.const (BitVec.ofNat 64 k) w >>= fun s => Make.binary .lshr x s w) ctx w
      (fun vars => ctx.bv vars w x >>> k) := by
  have h := hwf.w_le hx
  have htoNat : (BitVec.ofNat 64 k).toNat = k := by
    rw [BitVec.toNat_ofNat, Nat.mod_eq_of_lt (by omega)]
  have hfits : Fits w (BitVec.ofNat 64 k) := by
    unfold Fits
    have : w < 2 ^ w := Nat.lt_two_pow_self
    omega
  refine makes_bind_const hwf (hwf.w_pos hx) h (fun s ctx' hm => ?_)
  refine Makes.congr (makes_shiftOp hm.wf rfl (hm.ext.has hx) hm.has.1) (fun vars => ?_)
  rw [hm.ext.bv hm.wf hx, hm.val hfits, shiftAmount_of_lt h (by omega), htoNat]
  rfl

theorem makes_shiftDown (hwf : ctx.WF) (hx : ctx.Has 32 x) (hk : k < 32) :
    Makes (shiftDown x k) ctx 32 (fun vars => ctx.bv vars 32 x >>> k) := by
  unfold shiftDown
  split
  · exact makes_lshr_const hwf hx hk
  · obtain rfl : k = 0 := by omega
    exact makes_pure hwf hx (fun vars => (ushiftRight_zero _).symm)

/-- The upper half of the product of two 32-bit values. -/
def mulHigh (x m : Nat) : Nat := x * m / 2 ^ 32

theorem mulHigh_le {x : Nat} (hm : m < 2 ^ 32) : mulHigh x m ≤ x := by
  unfold mulHigh
  have : x * m ≤ x * 2 ^ 32 := Nat.mul_le_mul_left x (by omega)
  exact Nat.div_le_of_le_mul (by omega)

/-- `hi32`: extended to 64 bits, multiplied, and the upper half taken. -/
theorem makes_mulHigh {m : Nat} {f : Nat → Make Nat} {g : List U64 → BitVec w} (hwf : ctx.WF)
    (hx : ctx.Has 32 x) (hm : m < 2 ^ 32)
    (hf : ∀ (hi : Nat) (ctx' : BVContext), ctx.Extends ctx' → ctx'.WF → ctx'.Has 32 hi →
      (∀ vars, ctx'.bv vars 32 hi = BitVec.ofNat 32 (mulHigh (ctx.bv vars 32 x).toNat m)) →
      Makes (f hi) ctx' w g) :
    Makes (Make.zext x 32 >>= fun x64 => Make.const (BitVec.ofNat 64 m) 64 >>= fun c =>
      Make.binary .mul x64 c 64 >>= fun prod64 => Make.extract prod64 63 32 >>= f) ctx w g := by
  refine makes_bind (v := 64) (makes_zextOp hwf hx rfl (by omega)) (fun x64 ctx₁ hm₁ => ?_)
  refine makes_bind_const hm₁.wf (by omega) (by omega) (fun c ctx₂ hm₂ => ?_)
  refine makes_bind (makes_mul hm₂.wf (hm₂.ext.has hm₁.has) hm₂.has) (fun prod ctx₃ hm₃ => ?_)
  have hextract : MakesExtract ctx₃ prod 63 32 :=
    makes_extractOp hm₃.wf hm₃.has (by omega) (by omega)
  refine makes_bind hextract (fun hi ctx₄ hm₄ => ?_)
  refine (hf hi ctx₄ ?_ hm₄.wf hm₄.has (fun vars => ?_)).congr (fun _ => rfl)
  · exact hm₁.ext.trans (hm₂.ext.trans (hm₃.ext.trans hm₄.ext))
  · have hX := (ctx.bv vars 32 x).isLt
    have hx64 : (ctx₁.bv vars 64 x64).toNat = (ctx.bv vars 32 x).toNat := by
      rw [hm₁.bv, bv_eq_cut, bv_eq_cut, (hwf.fits hx vars).toNat_cut_of_le (by omega),
        (hwf.fits hx vars).toNat_cut]
    have hlt : (ctx.bv vars 32 x).toNat * m < 2 ^ 64 := by
      calc (ctx.bv vars 32 x).toNat * m ≤ (ctx.bv vars 32 x).toNat * 2 ^ 32 :=
            Nat.mul_le_mul_left _ (by omega)
        _ < 2 ^ 32 * 2 ^ 32 := Nat.mul_lt_mul_of_pos_right hX (by norm_num)
    have hprod : (ctx₃.val vars prod).toNat = (ctx.bv vars 32 x).toNat * m := by
      rw [hm₃.wf.val_eq_lift hm₃.has, toNat_lift (by omega), hm₃.bv, hm₂.ext.bv hm₂.wf hm₁.has,
        toNat_mul, hx64, hm₂.bv, toNat_cut, toNat_ofNat,
        Nat.mod_eq_of_lt (show m % 2 ^ 64 < 2 ^ 64 from Nat.mod_lt _ (by norm_num)),
        Nat.mod_eq_of_lt (show m < 2 ^ 64 by omega), Nat.mod_eq_of_lt hlt]
    rw [hm₄.bv]
    apply eq_of_toNat_eq
    rw [part, toNat_cut, toNat_ushiftRight, hprod, Nat.shiftRight_eq_div_pow, toNat_ofNat, mulHigh]

/-- `build_magic_udiv_u32`: the quotient by `d`. -/
theorem makes_magicUdiv (hwf : ctx.WF) (hx : ctx.Has 32 x) (hmag : mag.Divides d) :
    Makes (buildMagicUdivU32 x mag) ctx 32
      (fun vars => BitVec.ofNat 32 ((ctx.bv vars 32 x).toNat / d)) := by
  have hm := hmag.multiplierLt
  unfold buildMagicUdivU32
  refine makes_bind (makes_shiftDown hwf hx hmag.preLt) (fun y ctx₁ hm₁ => ?_)
  refine makes_mulHigh hm₁.wf hm₁.has hm (fun hi ctx₂ hext hwf₂ hhi hbv => ?_)
  have hy : ∀ vars, (ctx₁.bv vars 32 y).toNat = (ctx.bv vars 32 x).toNat / 2 ^ mag.preShift := by
    intro vars
    rw [hm₁.bv, BitVec.toNat_ushiftRight, Nat.shiftRight_eq_div_pow]
  have hylt : ∀ vars, (ctx₁.bv vars 32 y).toNat < 2 ^ 32 := fun vars => (ctx₁.bv vars 32 y).isLt
  have hhigh : ∀ vars, mulHigh (ctx₁.bv vars 32 y).toNat mag.multiplier ≤
      (ctx₁.bv vars 32 y).toNat := fun vars => mulHigh_le hm
  have hhi' : ∀ vars, (ctx₂.bv vars 32 hi).toNat =
      mulHigh (ctx₁.bv vars 32 y).toNat mag.multiplier := by
    intro vars
    have h₁ := hylt vars
    have h₂ := hhigh vars
    rw [hbv, BitVec.toNat_ofNat, Nat.mod_eq_of_lt (by omega)]
  split
  · rename_i hadd
    refine (makes_shiftDown hwf₂ hhi hmag.postLt).congr (fun vars => ?_)
    apply BitVec.eq_of_toNat_eq
    have hX := (ctx.bv vars 32 x).isLt
    have hdir := hmag.direct hadd _ hX
    have hq := Nat.div_le_self (ctx.bv vars 32 x).toNat d
    rw [BitVec.toNat_ushiftRight, Nat.shiftRight_eq_div_pow, hhi', hy, mulHigh, hdir,
      BitVec.toNat_ofNat, Nat.mod_eq_of_lt (by omega)]
  · rename_i hadd
    obtain ⟨hpre, hpost, hdiv⟩ := hmag.added (by simpa using hadd)
    have hpostLt := hmag.postLt
    have hy₂ := hext.has hm₁.has
    refine makes_bind (makes_sub hwf₂ hy₂ hhi) (fun t ctx₃ hm₃ => ?_)
    refine makes_bind_const hm₃.wf (by omega) (by omega) (fun one ctx₄ hm₄ => ?_)
    refine makes_bind (makes_shiftOp hm₄.wf rfl (hm₄.ext.has hm₃.has) hm₄.has.1)
      (fun t₂ ctx₅ hm₅ => ?_)
    have hhi₅ := (hm₃.ext.trans (hm₄.ext.trans hm₅.ext)).has hhi
    refine makes_bind (makes_add hm₅.wf hm₅.has hhi₅) (fun t₃ ctx₆ hm₆ => ?_)
    -- `t₃` is half of the sum of `y` and `hi32`, without its carry.
    have ht₃ : ∀ vars, (ctx₆.bv vars 32 t₃).toNat =
        ((ctx.bv vars 32 x).toNat + mulHigh (ctx.bv vars 32 x).toNat mag.multiplier) / 2 := by
      intro vars
      have h₁ := hylt vars
      have h₂ := hhigh vars
      have h₃ := hhi' vars
      have h₄ : (ctx₁.bv vars 32 y).toNat = (ctx.bv vars 32 x).toNat := by
        rw [hy, hpre, pow_zero, Nat.div_one]
      have hsub : (ctx₂.bv vars 32 y - ctx₂.bv vars 32 hi).toNat =
          (ctx₁.bv vars 32 y).toNat - (ctx₂.bv vars 32 hi).toNat := by
        rw [hext.bv hwf₂ hm₁.has, BitVec.toNat_sub_of_le (by rw [BitVec.le_def]; omega)]
      have hshift : (ctx₅.bv vars 32 t₂).toNat =
          ((ctx₁.bv vars 32 y).toNat - (ctx₂.bv vars 32 hi).toNat) / 2 := by
        have hone : shiftAmount 32 1 = 1 := shiftAmount_of_lt (by omega) (by decide)
        rw [hm₅.bv, hm₄.ext.bv hm₄.wf hm₃.has, hm₃.bv, hm₄.val (fits_one (by omega)), hone]
        show ((ctx₂.bv vars 32 y - ctx₂.bv vars 32 hi) >>> 1).toNat = _
        rw [BitVec.toNat_ushiftRight, hsub, Nat.shiftRight_eq_div_pow, pow_one]
      rw [hm₆.bv, BitVec.toNat_add, hshift,
        (hm₃.ext.trans (hm₄.ext.trans hm₅.ext)).bv hm₅.wf hhi, h₃,
        Magic.half_add (hhigh vars), h₄, Nat.mod_eq_of_lt]
      rw [h₄] at h₁ h₂
      omega
    have hfinal : ∀ vars, ctx₆.bv vars 32 t₃ >>> (mag.postShift - 1) =
        BitVec.ofNat 32 ((ctx.bv vars 32 x).toNat / d) := by
      intro vars
      apply BitVec.eq_of_toNat_eq
      have hX := (ctx.bv vars 32 x).isLt
      have hq := Nat.div_le_self (ctx.bv vars 32 x).toNat d
      rw [BitVec.toNat_ushiftRight, Nat.shiftRight_eq_div_pow, ht₃, mulHigh, hdiv _ hX,
        BitVec.toNat_ofNat, Nat.mod_eq_of_lt (by omega)]
    exact (makes_shiftDown hm₆.wf hm₆.has (by omega)).congr hfinal

/-! ## Signed operators with a positive constant -/

/-- A function on values, built by `mk` on any later table. -/
def MakesEach (mk : Nat → Make Nat) (ctx : BVContext) (w : Nat) (f : BitVec w → BitVec w) : Prop :=
  ∀ (ctx' : BVContext) (x : Nat), ctx.Extends ctx' → ctx'.WF → ctx'.Has w x →
    Makes (mk x) ctx' w (fun vars => f (ctx'.bv vars w x))

/-- `signedByUnsigned` applies `f` to the absolute value and restores the sign. -/
theorem makes_signedByUnsigned {mk : Nat → Make Nat} {f : BitVec w → BitVec w} (hwf : ctx.WF)
    (ha : ctx.Has w a) (hmk : MakesEach mk ctx w f) :
    Makes (signedByUnsigned a w mk) ctx w (fun vars => if (ctx.bv vars w a).msb
      then -f (-ctx.bv vars w a) else f (ctx.bv vars w a)) := by
  unfold signedByUnsigned
  refine makes_bind_const hwf (hwf.w_pos ha) (hwf.w_le ha) (fun z ctx₁ hm₁ => ?_)
  refine makes_bind (makes_sge hm₁.wf (hm₁.ext.has ha) hm₁.has) (fun c ctx₂ hm₂ => ?_)
  have h₂ := hm₁.ext.trans hm₂.ext
  refine makes_bind (hmk ctx₂ a h₂ hm₂.wf (h₂.has ha)) (fun p ctx₃ hm₃ => ?_)
  have h₃ := h₂.trans hm₃.ext
  refine makes_bind (makes_neg hm₃.wf (h₃.has ha)) (fun n ctx₄ hm₄ => ?_)
  have h₄ := h₃.trans hm₄.ext
  refine makes_bind (hmk ctx₄ n h₄ hm₄.wf hm₄.has) (fun q ctx₅ hm₅ => ?_)
  refine makes_bind (makes_neg hm₅.wf hm₅.has) (fun r ctx₆ hm₆ => ?_)
  have h₃₆ := hm₄.ext.trans (hm₅.ext.trans hm₆.ext)
  have hp := h₃₆.has hm₃.has
  have hc := (hm₃.ext.trans h₃₆).has hm₂.has
  refine (makes_iteOp hm₆.wf hc hp hm₆.has).congr (fun vars => ?_)
  have hcond : ctx₆.val vars c = ofBool (!(ctx.bv vars w a).msb) := by
    rw [hm₆.wf.val_eq_lift hc, (hm₃.ext.trans h₃₆).bv hm₆.wf hm₂.has, hm₂.bv, lift_ofBool,
      hm₁.ext.bv hm₁.wf ha, hm₁.bv]
    rw [BitVec.msb_eq_toInt, show cut w (0 : U64) = 0#w from cut_zero]
    simp [BitVec.slt]
  have hpos : ctx₆.bv vars w p = f (ctx.bv vars w a) := by
    rw [h₃₆.bv hm₆.wf hm₃.has, hm₃.bv, h₂.bv hm₂.wf ha]
  have hneg : ctx₆.bv vars w r = -f (-ctx.bv vars w a) := by
    rw [hm₆.bv, hm₅.bv, hm₄.bv, h₃.bv hm₃.wf ha]
  unfold iteBv
  rw [hcond, hpos, hneg]
  cases (ctx.bv vars w a).msb <;> rfl

/-! ## Optional expansions -/

/-- The expansion makes the node, or it only made constants and gives up. -/
def MakesOpt (p : Make (Option Nat)) (ctx : BVContext) (w : Nat) (g : List U64 → BitVec w) : Prop :=
  Prog.Yields body p ctx (fun r ctx' => match r with
    | some id => Made ctx w g id ctx'
    | none => ctx.Extends ctx' ∧ ctx'.WF)

variable {g : List U64 → BitVec w}

theorem makesOpt_map {p : Make Nat} (hp : Makes p ctx w g) : MakesOpt (some <$> p) ctx w g :=
  Prog.yields_bind hp (fun _ _ hm => Prog.yields_pure hm)

theorem makesOpt_some (hwf : ctx.WF) (ha : ctx.Has w a) (hg : ∀ vars, ctx.bv vars w a = g vars) :
    MakesOpt (pure (some a)) ctx w g := Prog.yields_pure ⟨Extends.refl ctx, hwf, ha, hg⟩

theorem makesOpt_none (hwf : ctx.WF) : MakesOpt (pure none) ctx w g :=
  Prog.yields_pure ⟨Extends.refl ctx, hwf⟩

theorem makesOpt_bind_const {w₁ : Nat} {c : U64} {f : Nat → Make (Option Nat)} (hwf : ctx.WF)
    (h0 : 0 < w₁) (h : w₁ ≤ 64)
    (hf : ∀ id ctx', MadeConst ctx w₁ c id ctx' → MakesOpt (f id) ctx' w g) :
    MakesOpt (Make.const c w₁ >>= f) ctx w g := by
  refine Prog.yields_bind (yields_const hwf h0 h c) (fun id ctx' hm => ?_)
  refine (hf id ctx' hm).mono (fun r ctx'' hr => ?_)
  cases r with
  | none => exact ⟨hm.ext.trans hr.1, hr.2⟩
  | some r => exact hr.trans hm.ext

theorem makes_expandOrIntern {p : Make (Option Nat)} (ho : isArith op = true) (ha : ctx.Has w a)
    (hb : ctx.Has w b)
    (hp : MakesOpt p ctx w (fun vars => arith op (ctx.bv vars w a) (ctx.bv vars w b))) :
    Makes (expandOrIntern p op a b w) ctx w
      (fun vars => arith op (ctx.bv vars w a) (ctx.bv vars w b)) := by
  refine Prog.yields_bind hp (fun r ctx' hr => ?_)
  cases r with
  | some id => exact Prog.yields_pure hr
  | none =>
    obtain ⟨hext, hwf'⟩ := hr
    have ha' := hext.has ha
    have hb' := hext.has hb
    have hmake : Makes (internBinary op a b w) ctx' w
        (fun vars => arith op (ctx.bv vars w a) (ctx.bv vars w b)) := by
      refine makes_intern hwf' (legal_arith hwf' ho ha' hb') rfl (fun vars => ?_)
      rw [← hext.bv hwf' ha, ← hext.bv hwf' hb]
      exact bv_binary_arith hwf' ho ha' hb' vars
    exact hmake.mono (fun _ _ hm => hm.trans hext)

/-! ## Division -/

def divOp (signed : Bool) : BVOp := if signed then .sdiv else .udiv

theorem sdiv_of_msb {x : BitVec w} (hy : y.msb = false) :
    x.sdiv y = if x.msb then -(-x / y) else x / y := by
  rw [sdiv_eq, hy]
  cases x.msb <;> rfl

theorem udiv_eq_ushiftRight {x : BitVec w} (hy : y.toNat = 2 ^ k) : x / y = x >>> k := by
  apply eq_of_toNat_eq
  rw [toNat_udiv, hy, toNat_ushiftRight, Nat.shiftRight_eq_div_pow]

theorem msb_of_toNat_lt (hy : y.toNat < 2 ^ (w - 1)) : y.msb = false := by
  rw [msb_eq_decide, decide_eq_false_iff_not]
  omega

theorem toNat_bv_const (hwf : ctx.WF) (hb : ctx.Has w b) (hop : (ctx.node b).op = .const)
    (vars : List U64) : (ctx.bv vars w b).toNat = (ctx.node b).imm.toNat := by
  rw [hwf.bv_const hb hop, (hwf.const_node hb hop).1.toNat_cut]

theorem makesEach_lshr {s : Nat} (hk : k < w) (h : w ≤ 64)
    (hm : MadeConst ctx w (BitVec.ofNat 64 k) s ctx') :
    MakesEach (fun x => Make.binary .lshr x s w) ctx' w (fun x => x >>> k) := by
  have htoNat : (BitVec.ofNat 64 k).toNat = k := by
    rw [BitVec.toNat_ofNat, Nat.mod_eq_of_lt (by omega)]
  have hfits : Fits w (BitVec.ofNat 64 k) := by
    unfold Fits
    have : w < 2 ^ w := Nat.lt_two_pow_self
    omega
  intro ctx'' x hext hwf'' hx
  refine Makes.congr (makes_shiftOp hwf'' rfl hx (hext.lt hm.has.1)) (fun vars => ?_)
  rw [hext.val hwf''.ordered hm.has.1, hm.val hfits, shiftAmount_of_lt h (by omega), htoNat]
  rfl

theorem makesEach_magicUdiv (hmag : mag.Divides d) :
    MakesEach (fun x => buildMagicUdivU32 x mag) ctx 32 (fun x => BitVec.ofNat 32 (x.toNat / d)) :=
  fun _ _ _ hwf hx => makes_magicUdiv hwf hx hmag

theorem ofNat_div_eq {x : BitVec w} : BitVec.ofNat w (x.toNat / y.toNat) = x / y := by
  apply BitVec.eq_of_toNat_eq
  rw [toNat_ofNat, toNat_udiv, Nat.mod_eq_of_lt (Nat.lt_of_le_of_lt (Nat.div_le_self _ _) x.isLt)]

theorem magic_divisor_eq (hwf : ctx.WF) (hb : ctx.Has 32 b) (hop : (ctx.node b).op = .const) :
    ((ctx.node b).imm &&& 0xFFFFFFFF).toNat = (ctx.node b).imm.toNat := by
  have hfits := (hwf.const_node hb hop).1
  rw [show (0xFFFFFFFF : U64) = widthMask 32 by decide, hfits.and_widthMask (by omega)]

theorem magic_divides {signed : Bool} (hwf : ctx.WF) (hb : ctx.Has 32 b)
    (hop : (ctx.node b).op = .const)
    (hdiv : magicDivisor signed (ctx.node b).imm.toNat = true)
    (hfound : signed = false → magicFound (ctx.node b).imm.toNat = true) :
    (computeMagicConstU32 (ctx.node b).imm.toNat).Divides (ctx.node b).imm.toNat ∧
      (signed = true → ∀ vars, (ctx.bv vars 32 b).msb = false) := by
  have hlt : (ctx.node b).imm.toNat < 2 ^ 32 := (hwf.const_node hb hop).1
  unfold magicDivisor at hdiv
  rw [Bool.and_eq_true] at hdiv
  obtain ⟨hrange, -⟩ := hdiv
  cases signed with
  | false =>
    rw [if_neg (by decide), decide_eq_true_iff] at hrange
    exact ⟨computeMagicConstU32_divides hrange hlt (hfound rfl), nofun⟩
  | true =>
    rw [if_pos rfl, decide_eq_true_iff] at hrange
    refine ⟨computeMagicConstU32_divides hrange.1 hlt (magicFound_of_le (by omega) (by omega)),
      fun _ vars => msb_of_toNat_lt ?_⟩
    rw [toNat_bv_const hwf hb hop]
    exact hrange.2

theorem power_divisor (hwf : ctx.WF) (hb : ctx.Has w b) (hop : (ctx.node b).op = .const)
    (hsingle : hasSingleBit (ctx.node b).imm = true) :
    countrZero (ctx.node b).imm < w ∧
      ∀ vars, (ctx.bv vars w b).toNat = 2 ^ countrZero (ctx.node b).imm := by
  obtain ⟨-, -, heq⟩ := hasSingleBit_eq hsingle
  have hfits : (ctx.node b).imm.toNat < 2 ^ w := (hwf.const_node hb hop).1
  rw [heq] at hfits
  refine ⟨(Nat.pow_lt_pow_iff_right (by omega)).mp hfits, fun vars => ?_⟩
  rw [toNat_bv_const hwf hb hop, heq]

theorem bv_ne_zero (hwf : ctx.WF) (ha : ctx.Has w a) (hmin : (ctx.interval a).umin > 0)
    (vars : List U64) : ctx.bv vars w a ≠ 0#w := by
  intro hzero
  have hle := (hwf.holds a ha.1 vars).umin_le
  have hval : (ctx.val vars a).toNat = 0 := by
    rw [hwf.val_eq_lift ha, hzero, lift_zero]
    rfl
  rw [gt_iff_lt, lt_def] at hmin
  rw [hval] at hle
  exact absurd hmin (by simpa using hle)

theorem makesOpt_expandDiv (signed : Bool) (hwf : ctx.WF) (ha : ctx.Has w a) (hb : ctx.Has w b)
    (hfound : signed = false → w = 32 → (ctx.node b).op = .const →
      magicFound (ctx.node b).imm.toNat = true) :
    MakesOpt (expandDiv ctx signed a b w) ctx w
      (fun vars => arith (divOp signed) (ctx.bv vars w a) (ctx.bv vars w b)) := by
  have h0 := hwf.w_pos ha
  have h := hwf.w_le ha
  have hone : cut w (1 : U64) = 1#w := eq_of_toNat_eq (by simp [cut])
  unfold expandDiv
  dsimp only
  by_cases h₁ : (ctx.node b).op = .const ∧ (ctx.node b).imm = 1
  · rw [if_pos h₁]
    refine makesOpt_some hwf ha (fun vars => ?_)
    rw [hwf.bv_const hb h₁.1, h₁.2, hone]
    cases signed
    · exact udiv_one.symm
    · exact sdiv_one.symm
  rw [if_neg h₁]
  by_cases h₂ : a = b ∧ (ctx.interval b).umin > 0
  · rw [if_pos h₂]
    obtain ⟨rfl, hmin⟩ := h₂
    refine makesOpt_map (makes_const hwf h0 h (fun vars => ?_))
    have hne := beq_eq_false_iff_ne.mpr (bv_ne_zero hwf ha hmin vars)
    rw [hone]
    cases signed
    · show _ = ctx.bv vars w a / ctx.bv vars w a
      rw [udiv_self, hne]
      rfl
    · show _ = (ctx.bv vars w a).sdiv (ctx.bv vars w a)
      rw [sdiv_self, hne]
      rfl
  rw [if_neg h₂]
  by_cases h₃ : (ctx.node b).op = .const ∧ hasSingleBit (ctx.node b).imm = true ∧ signed = false
  · rw [if_pos h₃]
    obtain ⟨hop, hsingle, rfl⟩ := h₃
    obtain ⟨hlt, htoNat⟩ := power_divisor hwf hb hop hsingle
    refine makesOpt_bind_const hwf h0 h (fun s ctx' hm => makesOpt_map ?_)
    refine (makesEach_lshr hlt h hm ctx' a (Extends.refl _) hm.wf (hm.ext.has ha)).congr
      (fun vars => ?_)
    rw [hm.ext.bv hm.wf ha]
    exact (udiv_eq_ushiftRight (htoNat vars)).symm
  rw [if_neg h₃]
  by_cases h₄ : (ctx.node b).op = .const ∧ hasSingleBit (ctx.node b).imm = true ∧
      countrZero (ctx.node b).imm > 0 ∧ countrZero (ctx.node b).imm + 1 < w
  · rw [if_pos h₄]
    obtain ⟨hop, hsingle, -, hsmall⟩ := h₄
    have hsigned : signed = true := by
      cases signed
      · exact absurd ⟨hop, hsingle, rfl⟩ h₃
      · rfl
    subst hsigned
    obtain ⟨hlt, htoNat⟩ := power_divisor hwf hb hop hsingle
    refine makesOpt_bind_const hwf h0 h (fun s ctx' hm => makesOpt_map ?_)
    refine (makes_signedByUnsigned hm.wf (hm.ext.has ha) (makesEach_lshr hlt h hm)).congr
      (fun vars => ?_)
    have hmsb : (ctx.bv vars w b).msb = false := by
      refine msb_of_toNat_lt ?_
      rw [htoNat]
      exact Nat.pow_lt_pow_right (by decide) (by omega)
    rw [hm.ext.bv hm.wf ha]
    show _ = (ctx.bv vars w a).sdiv (ctx.bv vars w b)
    rw [sdiv_of_msb hmsb, udiv_eq_ushiftRight (htoNat vars), udiv_eq_ushiftRight (htoNat vars)]
  rw [if_neg h₄]
  by_cases h₅ : w = 32 ∧ (ctx.node b).op = .const ∧
      magicDivisor signed ((ctx.node b).imm &&& 0xFFFFFFFF).toNat = true
  · rw [if_pos h₅]
    obtain ⟨rfl, hop, hdiv⟩ := h₅
    rw [magic_divisor_eq hwf hb hop] at hdiv ⊢
    obtain ⟨hmag, hmsb⟩ := magic_divides hwf hb hop hdiv (fun hs => hfound hs rfl hop)
    have heq : ∀ vars (x : BitVec 32), BitVec.ofNat 32 (x.toNat / (ctx.node b).imm.toNat) =
        x / ctx.bv vars 32 b := by
      intro vars x
      rw [← toNat_bv_const hwf hb hop vars, ofNat_div_eq]
    cases signed with
    | false =>
      rw [if_neg (by decide)]
      refine makesOpt_map ((makes_magicUdiv hwf ha hmag).congr (fun vars => ?_))
      exact heq vars _
    | true =>
      rw [if_pos rfl]
      refine makesOpt_map ((makes_signedByUnsigned hwf ha (makesEach_magicUdiv hmag)).congr
        (fun vars => ?_))
      show _ = (ctx.bv vars 32 a).sdiv (ctx.bv vars 32 b)
      rw [sdiv_of_msb (hmsb rfl vars), heq vars, heq vars]
  rw [if_neg h₅]
  exact makesOpt_none hwf

/-! ## Remainder -/

def remOp (signed : Bool) : BVOp := if signed then .srem else .urem

theorem srem0_of_msb {x : BitVec w} (hy : y.msb = false) (hne : y ≠ 0#w) :
    srem0 x y = if x.msb then -(-x % y) else x % y := by
  rw [srem0, if_neg hne, srem_eq, hy]
  cases x.msb <;> rfl

theorem umod_eq_and_of_pow {x : BitVec w} (hy : y.toNat = 2 ^ k) (h0 : 0 < w) :
    x % y = x &&& (y - 1#w) := by
  apply eq_of_toNat_eq
  have hone : (1#w).toNat = 1 := by
    rw [toNat_ofNat, Nat.mod_eq_of_lt (Nat.one_lt_two_pow (by omega))]
  have hpos := Nat.two_pow_pos k
  have hle : 1#w ≤ y := by
    rw [le_def, hone, hy]
    omega
  rw [toNat_umod, hy, toNat_and, toNat_sub_of_le hle, hone, hy, Nat.and_two_pow_sub_one_eq_mod]

theorem umod_eq_sub (x y : BitVec w) : x - x / y * y = x % y := by
  apply eq_of_toNat_eq
  have hdiv := Nat.div_add_mod x.toNat y.toNat
  have hmul : (x / y * y).toNat = x.toNat / y.toNat * y.toNat := by
    rw [toNat_mul, toNat_udiv,
      Nat.mod_eq_of_lt (Nat.lt_of_le_of_lt (Nat.div_mul_le_self _ _) x.isLt)]
  have hle : x / y * y ≤ x := by
    rw [le_def, hmul]
    exact Nat.div_mul_le_self _ _
  rw [toNat_sub_of_le hle, hmul, toNat_umod, Nat.mul_comm]
  omega

theorem makesEach_magicRem {y : BitVec 32} (hmag : mag.Divides d) (hb : ctx.Has 32 b)
    (hy : ∀ vars, ctx.bv vars 32 b = y) (hd : y.toNat = d) :
    MakesEach (magicRem b mag) ctx 32 (fun x => x % y) := by
  intro ctx' x hext hwf' hx
  unfold magicRem
  refine makes_bind (makes_magicUdiv hwf' hx hmag) (fun q ctx₁ hm₁ => ?_)
  have hext₁ := hext.trans hm₁.ext
  refine makes_bind (makes_mul hm₁.wf hm₁.has (hext₁.has hb)) (fun p ctx₂ hm₂ => ?_)
  have hext₂ := hm₁.ext.trans hm₂.ext
  refine (makes_sub hm₂.wf (hext₂.has hx) hm₂.has).congr (fun vars => ?_)
  rw [hext₂.bv hm₂.wf hx, hm₂.bv, hm₁.bv, hext₁.bv hm₁.wf hb, hy, ← hd, ofNat_div_eq]
  exact umod_eq_sub _ _

theorem makesEach_and {c : U64} (hm : MadeConst ctx w c m ctx') :
    MakesEach (fun x => Make.binary .and x m w) ctx' w (fun x => x &&& cut w c) := by
  intro ctx'' x hext hwf'' hx
  refine (makes_and hwf'' hx (hext.has hm.has)).congr (fun vars => ?_)
  rw [hext.bv hwf'' hm.has, hm.bv]

theorem makesOpt_expandMagicRem {signed : Bool} {ctx₀ : BVContext} (hext : ctx₀.Extends ctx)
    (hwf₀ : ctx₀.WF) (hwf : ctx.WF) (ha : ctx₀.Has w a) (hb : ctx₀.Has w b)
    (hfound : signed = false → w = 32 → (ctx₀.node b).op = .const →
      magicFound (ctx₀.node b).imm.toNat = true) :
    MakesOpt (expandMagicRem ctx₀ signed a b w) ctx w
      (fun vars => arith (remOp signed) (ctx₀.bv vars w a) (ctx₀.bv vars w b)) := by
  unfold expandMagicRem
  dsimp only
  split
  · rename_i hcond
    obtain ⟨rfl, hop, hdiv⟩ := hcond
    rw [magic_divisor_eq hwf₀ hb hop] at hdiv ⊢
    obtain ⟨hmag, hmsb⟩ := magic_divides hwf₀ hb hop hdiv (fun hs => hfound hs rfl hop)
    have hconst : ∀ vars, ctx.bv vars 32 b = cut 32 (ctx₀.node b).imm := by
      intro vars
      rw [hext.bv hwf hb, hwf₀.bv_const hb hop]
    have htoNat : (cut 32 (ctx₀.node b).imm).toNat = (ctx₀.node b).imm.toNat :=
      (hwf₀.const_node hb hop).1.toNat_cut
    have hmk := makesEach_magicRem hmag (hext.has hb) hconst htoNat
    have hne : cut 32 (ctx₀.node b).imm ≠ 0#32 := by
      intro hzero
      rw [hzero] at htoNat
      unfold magicDivisor at hdiv
      rw [← htoNat] at hdiv
      cases signed <;> exact absurd hdiv (by simp)
    cases signed with
    | false =>
      rw [if_neg (by decide)]
      refine makesOpt_map ((hmk ctx a (Extends.refl _) hwf (hext.has ha)).congr (fun vars => ?_))
      show _ = urem0 _ _
      rw [hext.bv hwf ha, hwf₀.bv_const hb hop, urem0, if_neg hne]
    | true =>
      rw [if_pos rfl]
      refine makesOpt_map ((makes_signedByUnsigned hwf (hext.has ha) hmk).congr (fun vars => ?_))
      show _ = srem0 _ _
      have hmsb' := hmsb rfl vars
      rw [hwf₀.bv_const hb hop] at hmsb' ⊢
      rw [hext.bv hwf ha, srem0_of_msb hmsb' hne]
  · exact makesOpt_none hwf

theorem makesOpt_expandRem (signed : Bool) (hwf : ctx.WF) (ha : ctx.Has w a) (hb : ctx.Has w b)
    (hfound : signed = false → w = 32 → (ctx.node b).op = .const →
      magicFound (ctx.node b).imm.toNat = true) :
    MakesOpt (expandRem ctx signed a b w) ctx w
      (fun vars => arith (remOp signed) (ctx.bv vars w a) (ctx.bv vars w b)) := by
  have h0 := hwf.w_pos ha
  have h := hwf.w_le ha
  have hone : cut w (1 : U64) = 1#w := eq_of_toNat_eq (by simp [cut])
  have hzero : cut w (0 : U64) = 0#w := cut_zero
  unfold expandRem
  dsimp only
  by_cases h₁ : (ctx.node b).op = .const ∧ (ctx.node b).imm = 1
  · rw [if_pos h₁]
    refine makesOpt_map (makes_const hwf h0 h (fun vars => ?_))
    rw [hwf.bv_const hb h₁.1, h₁.2, hone, hzero]
    cases signed
    · show _ = urem0 _ _
      rw [urem0, umod_one, ite_self]
    · show _ = srem0 _ _
      rw [srem0, srem_one, ite_self]
  rw [if_neg h₁]
  by_cases h₂ : a = b ∧ (ctx.interval b).umin > 0
  · rw [if_pos h₂]
    obtain ⟨rfl, -⟩ := h₂
    refine makesOpt_map (makes_const hwf h0 h (fun vars => ?_))
    rw [hzero]
    cases signed
    · show _ = urem0 _ _
      rw [urem0, umod_self, ite_self]
    · show _ = srem0 _ _
      rw [srem0, srem_self, ite_self]
  rw [if_neg h₂]
  by_cases h₃ : (ctx.node b).op = .const ∧ hasSingleBit (ctx.node b).imm = true
  · rw [if_pos h₃]
    obtain ⟨hop, hsingle⟩ := h₃
    obtain ⟨hlt, htoNat⟩ := power_divisor hwf hb hop hsingle
    have hmask : ∀ vars, cut w ((ctx.node b).imm - 1) = ctx.bv vars w b - 1#w := by
      intro vars
      rw [cut_sub _ _ h, hone, hwf.bv_const hb hop]
    have hne : ∀ vars, ctx.bv vars w b ≠ 0#w := by
      intro vars hz
      have hpos := Nat.two_pow_pos (countrZero (ctx.node b).imm)
      have hval := htoNat vars
      rw [hz, toNat_ofNat, Nat.zero_mod] at hval
      omega
    refine makesOpt_bind_const hwf h0 h (fun m ctx' hm => ?_)
    have ha' := hm.ext.has ha
    cases signed with
    | false =>
      rw [if_pos rfl]
      refine makesOpt_map ((makesEach_and hm ctx' a (Extends.refl _) hm.wf ha').congr
        (fun vars => ?_))
      show _ = urem0 _ _
      rw [hm.ext.bv hm.wf ha, hmask vars, urem0, if_neg (hne vars),
        umod_eq_and_of_pow (htoNat vars) h0]
    | true =>
      rw [if_neg (by decide)]
      split
      · rename_i hsmall
        refine makesOpt_map ((makes_signedByUnsigned hm.wf ha' (makesEach_and hm)).congr
          (fun vars => ?_))
        have hmsb : (ctx.bv vars w b).msb = false := by
          refine msb_of_toNat_lt ?_
          rw [htoNat]
          exact Nat.pow_lt_pow_right (by omega) (by omega)
        show _ = srem0 _ _
        rw [hm.ext.bv hm.wf ha, hmask vars, srem0_of_msb hmsb (hne vars),
          umod_eq_and_of_pow (htoNat vars) h0, umod_eq_and_of_pow (htoNat vars) h0]
      · exact makesOpt_expandMagicRem hm.ext hwf hm.wf ha hb hfound
  · rw [if_neg h₃]
    exact makesOpt_expandMagicRem (Extends.refl ctx) hwf hwf ha hb hfound

/-! ## The four operators -/

/-- An unsigned operator on 32 bits, by a constant for which there are no magic constants. -/
def magicMissing (ctx : BVContext) (op : BVOp) (a b w : Nat) : Bool :=
  (op == .udiv || op == .urem) && w == 32 && (ctx.node a).op != .const &&
    (ctx.node b).op == .const && !magicFound (ctx.node b).imm.toNat

theorem magicFound_of_not_missing (hop : op = .udiv ∨ op = .urem)
    (hmiss : magicMissing ctx op a b w = false) (hw : w = 32) (hca : (ctx.node a).op ≠ .const)
    (hcb : (ctx.node b).op = .const) : magicFound (ctx.node b).imm.toNat = true := by
  unfold magicMissing at hmiss
  rcases hop with rfl | rfl <;> simpa [hw, hca, hcb] using hmiss

theorem makes_division (hop : op = .udiv ∨ op = .sdiv ∨ op = .urem ∨ op = .srem) (hwf : ctx.WF)
    (ha : ctx.Has w a) (hb : ctx.Has w b) (hmiss : magicMissing ctx op a b w = false) :
    MakesArith op ctx w a b := by
  have ho : isArith op = true := by rcases hop with rfl | rfl | rfl | rfl <;> rfl
  refine makes_arith hwf ho ha hb (fun a' b' ha' hb' hops => ?_)
  obtain ⟨rfl, rfl⟩ | ⟨hc, -⟩ := hops.perm
  · have hca : (ctx.node b').op = .const → (ctx.node a').op ≠ .const :=
      fun hcb hca => hops.notBoth hca hcb
    rcases hop with rfl | rfl | rfl | rfl
    · exact makes_expandOrIntern rfl ha hb (makesOpt_expandDiv false hwf ha hb
        (fun _ hw hcb => magicFound_of_not_missing (Or.inl rfl) hmiss hw (hca hcb) hcb))
    · exact makes_expandOrIntern rfl ha hb (makesOpt_expandDiv true hwf ha hb nofun)
    · exact makes_expandOrIntern rfl ha hb (makesOpt_expandRem false hwf ha hb
        (fun _ hw hcb => magicFound_of_not_missing (Or.inr rfl) hmiss hw (hca hcb) hcb))
    · exact makes_expandOrIntern rfl ha hb (makesOpt_expandRem true hwf ha hb nofun)
  · rcases hop with rfl | rfl | rfl | rfl <;> cases hc

end Brass.Verify.Bv
