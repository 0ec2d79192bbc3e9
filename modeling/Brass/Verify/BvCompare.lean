import Brass.Verify.BvBitwise

/-!
# Comparisons

`Eq`, `Ult` and `Slt` are right, and with them the comparisons that are expressed by them.
The rules look through additions and extensions and use the intervals of the operands.
-/

namespace Brass.Verify.Bv

open Brass.Util BVContext

variable {ctx ctx' : BVContext} {op : BVOp} {w a b : Nat} {g : List U64 → BitVec 1}

def compareBv (op : BVOp) (x y : BitVec w) : Bool :=
  match op with
  | .eq => x == y
  | .ult => x.ult y
  | .slt => x.slt y
  | _ => false

def isCompare (op : BVOp) : Bool := op == .eq || op == .ult || op == .slt

/-! ## The frame -/

theorem legal_pred (hwf : ctx.WF) (ho : isPred op = true) (ha : ctx.Has w a) (hb : ctx.Has w b) :
    ctx.Legal (binaryNode op 1 a b) := by
  refine ⟨Or.inr (Or.inr ⟨ha.1, hb.1, hwf.nonempty⟩), ?_, Nat.zero_lt_one, ?_⟩
  · cases op <;> first | exact absurd ho (by decide) | exact ⟨rfl, hb.2.trans ha.2.symm⟩
  · show 1 ≤ 64
    omega

theorem bv_binary_compare (hwf : ctx.WF) (ho : isCompare op = true) (ha : ctx.Has w a)
    (hb : ctx.Has w b) (vars : List U64) :
    cut 1 (ctx.evalNode vars (binaryNode op 1 a b)) =
      BitVec.ofBool (compareBv op (ctx.bv vars w a) (ctx.bv vars w b)) := by
  have hne : op ≠ .const ∧ op ≠ .var := by
    cases op <;> first | exact absurd ho (by decide) | decide
  rw [evalNode_binary hwf hne.1 hne.2 ha.1 hb.1, ha.2, ← cut_ofBool]
  congr 1
  cases op <;> first | exact absurd ho (by decide) | skip
  · exact evalOp_eq rfl (hwf.fits ha vars) (hwf.fits hb vars)
  · exact evalOp_ult rfl (hwf.fits ha vars) (hwf.fits hb vars)
  · exact evalOp_slt rfl (hwf.w_pos ha) (hwf.w_le ha)

def MakesCompare (op : BVOp) (ctx : BVContext) (w a b : Nat) : Prop :=
  Makes (Make.binary op a b 1) ctx 1
    (fun vars => BitVec.ofBool (compareBv op (ctx.bv vars w a) (ctx.bv vars w b)))

def CompareBelow (op : BVOp) (k : Nat) : Prop :=
  ∀ (ctx : BVContext) (w a b : Nat), ctx.WF → ctx.Has w a → ctx.Has w b →
    ctx.weight a + ctx.weight b < k → MakesCompare op ctx w a b

theorem makesCompare_of_rules (ho : isCompare op = true)
    (rules : BVContext → Nat → Nat → U64 → Option (Make Nat))
    (hsimp : ∀ ctx a b m, simplifyBinary ctx op a b 1 m = orIntern (rules ctx a b m) op a b 1)
    (hrules : ∀ (ctx : BVContext) (w a b : Nat), ctx.WF → ctx.Has w a → ctx.Has w b →
      CompareBelow op (ctx.weight a + ctx.weight b) →
      ∀ p, rules ctx a b (widthMask w) = some p → Makes p ctx 1
        (fun vars => BitVec.ofBool (compareBv op (ctx.bv vars w a) (ctx.bv vars w b))))
    (hwf : ctx.WF) (ha : ctx.Has w a) (hb : ctx.Has w b) : MakesCompare op ctx w a b := by
  have hd : isDirect op = true := by
    cases op <;> first | exact absurd ho (by decide) | rfl
  have hpred : isPred op = true := by
    cases op <;> first | exact absurd ho (by decide) | rfl
  induction hk : ctx.weight a + ctx.weight b using Nat.strongRecOn generalizing ctx w a b with
  | ind k ih =>
    refine Makes.congr (makes_direct hwf hd (legal_pred hwf hpred ha hb) ha.1 hb.1
      (fun _ => by rw [ha.2, hb.2]) (fun a' b' hops => ?_)) (bv_binary_compare hwf ho ha hb)
    obtain ⟨ha', hb'⟩ := hops.has ha hb
    have hbv := bv_binary_compare hwf ho ha' hb'
    rw [hsimp, ha.2]
    refine makes_orIntern hwf (legal_pred hwf hpred ha' hb') (fun _ => rfl) (fun p hp => ?_)
    refine (hrules ctx w a' b' hwf ha' hb' ?_ p hp).congr (fun vars => (hbv vars).symm)
    intro ctx' w' x y hwf' hx hy hlt
    rw [hops.weight] at hlt
    exact ih _ (hk ▸ hlt) hwf' hx hy rfl

/-! ## Eq -/

theorem val_eq_iff (hwf : ctx.WF) (ha : ctx.Has w a) (hb : ctx.Has w b) (vars : List U64) :
    ctx.bv vars w a = ctx.bv vars w b ↔ ctx.val vars a = ctx.val vars b :=
  ⟨fun h => (hwf.fits ha vars).ext (hwf.fits hb vars) h, fun h => by rw [bv_eq_cut, h, bv_eq_cut]⟩

theorem intervalsApart_ne (hwf : ctx.WF) (ha : ctx.Has w a) (hb : ctx.Has w b)
    (h : intervalsApart (ctx.interval a) (ctx.interval b) = true) (vars : List U64) :
    ctx.bv vars w a ≠ ctx.bv vars w b := by
  intro heq
  have hval := (val_eq_iff hwf ha hb vars).mp heq
  have hia := hwf.holds a ha.1 vars
  have hib := hwf.holds b hb.1 vars
  rw [ha.2] at hia
  rw [hb.2, ← hval] at hib
  have h₁ := hia.umin_le
  have h₂ := hia.le_umax
  have h₃ := hib.umin_le
  have h₄ := hib.le_umax
  have h₅ := hia.smin
  have h₆ := hia.smax
  have h₇ := hib.smin
  have h₈ := hib.smax
  -- A bit cannot be known to be one and known to be zero.
  have hbits : ∀ {x y : BVInterval}, x.Holds w (ctx.val vars a) → y.Holds w (ctx.val vars a) →
      x.knownOnes &&& y.knownZeros = 0#64 := by
    intro x y hx hy
    rw [and_eq_zero_iff]
    intro i hi
    by_contra hone
    have := hy.zeros i hi
    rw [hx.ones i (by simpa using hone)] at this
    cases this
  unfold intervalsApart at h
  rw [hbits hia hib, hbits hib hia] at h
  simp only [Bool.or_eq_true, decide_eq_true_iff, BitVec.lt_def] at h
  rcases h with ((((h | h) | h) | h) | h) | h
  · omega
  · omega
  · omega
  · omega
  · exact absurd h (by decide)
  · exact absurd h (by decide)

theorem makes_ofBool_const (hwf : ctx.WF) {c : Bool} {d : U64} (hd : d = ofBool c)
    (hg : ∀ vars, BitVec.ofBool c = g vars) : Makes (Make.const d 1) ctx 1 g := by
  refine makes_const hwf Nat.zero_lt_one (by omega) (fun vars => ?_)
  rw [hd, cut_ofBool, hg]

theorem makesCompare_older {w' x y : Nat} {opa opb : BVOp} (hwf : ctx.WF)
    (ih : CompareBelow op (ctx.weight a + ctx.weight b)) (hopa : (ctx.node a).op = opa)
    (hopb : (ctx.node b).op = opb) (hca : opa ≠ .const) (hcb : opb ≠ .const)
    (hx : ctx.Has w' x) (hy : ctx.Has w' y) (hxa : x < a) (hyb : y < b)
    (heq : ∀ vars, compareBv op (ctx.bv vars w' x) (ctx.bv vars w' y) =
      compareBv op (ctx.bv vars w a) (ctx.bv vars w b)) : Makes (Make.binary op x y 1) ctx 1
      (fun vars => BitVec.ofBool (compareBv op (ctx.bv vars w a) (ctx.bv vars w b))) := by
  refine Makes.congr (ih ctx w' x y hwf hx hy ?_) (fun vars => by rw [heq])
  have h₁ := weight_le ctx x
  have h₂ := weight_le ctx y
  rw [weight_of_op hopa hca, weight_of_op hopb hcb]
  omega

section

variable (hwf : ctx.WF) (ha : ctx.Has w a) (hb : ctx.Has w b)
include hwf ha hb

theorem ext_pair_eq (hext : ((ctx.node a).op = .zext ∧ (ctx.node b).op = .zext ∧
        ctx.width (ctx.node a).a = ctx.width (ctx.node b).a) ∨
      ((ctx.node a).op = .sext ∧ (ctx.node b).op = .sext ∧
        ctx.width (ctx.node a).a = ctx.width (ctx.node b).a)) :
    (ctx.node a).a < a ∧ (ctx.node b).a < b ∧ ctx.Has (ctx.width (ctx.node a).a) (ctx.node a).a ∧
      ctx.Has (ctx.width (ctx.node a).a) (ctx.node b).a ∧
      ∀ vars, ctx.bv vars (ctx.width (ctx.node a).a) (ctx.node a).a =
        ctx.bv vars (ctx.width (ctx.node a).a) (ctx.node b).a ↔
          ctx.bv vars w a = ctx.bv vars w b := by
  have hla := ha.1
  have hlb := hb.1
  rcases hext with ⟨hopa, hopb, hwab⟩ | ⟨hopa, hopb, hwab⟩
  · obtain ⟨hlta, -, -, hva⟩ := hwf.zext_node ha hopa
    obtain ⟨hltb, -, -, hvb⟩ := hwf.zext_node hb hopb
    have hx : ctx.Has (ctx.width (ctx.node a).a) (ctx.node a).a := ⟨by omega, rfl⟩
    have hy : ctx.Has (ctx.width (ctx.node a).a) (ctx.node b).a := ⟨by omega, hwab.symm⟩
    refine ⟨hlta, hltb, hx, hy, fun vars => ?_⟩
    rw [val_eq_iff hwf hx hy, val_eq_iff hwf ha hb, hva, hvb]
  · obtain ⟨hlta, hw, hva⟩ := hwf.sext_node ha hopa
    obtain ⟨hltb, -, hvb⟩ := hwf.sext_node hb hopb
    have hx : ctx.Has (ctx.width (ctx.node a).a) (ctx.node a).a := ⟨by omega, rfl⟩
    have hy : ctx.Has (ctx.width (ctx.node a).a) (ctx.node b).a := ⟨by omega, hwab.symm⟩
    refine ⟨hlta, hltb, hx, hy, fun vars => ?_⟩
    rw [hva, hvb, ← hwab]
    constructor
    · intro h
      rw [h]
    · intro h
      have := congrArg BitVec.toInt h
      rw [BitVec.toInt_signExtend_of_le (by omega), BitVec.toInt_signExtend_of_le (by omega)] at this
      exact BitVec.eq_of_toInt_eq this

theorem makes_eq_bit (hop : (ctx.node a).op = .zext) (hbit : ctx.width (ctx.node a).a = 1)
    (hcb : (ctx.node b).op = .const) :
    Makes (if (ctx.node b).imm = 0 then Make.unary .not (ctx.node a).a 1
        else if (ctx.node b).imm = 1 then pure (ctx.node a).a
        else Make.const 0 1) ctx 1
      (fun vars => BitVec.ofBool (compareBv .eq (ctx.bv vars w a) (ctx.bv vars w b))) := by
  obtain ⟨hlt, -, -, hva⟩ := hwf.zext_node ha hop
  have hla := ha.1
  have hx : ctx.Has 1 (ctx.node a).a := ⟨by omega, hbit⟩
  obtain ⟨-, hvb⟩ := hwf.const_node hb hcb
  have hcmp : ∀ vars, compareBv .eq (ctx.bv vars w a) (ctx.bv vars w b) =
      (ctx.val vars (ctx.node a).a == (ctx.node b).imm) := by
    intro vars
    show (ctx.bv vars w a == ctx.bv vars w b) = _
    rw [Bool.eq_iff_iff, beq_iff_eq, beq_iff_eq, val_eq_iff hwf ha hb, hva, hvb]
  have hcases := bit_cases hwf hx
  split
  · rename_i h0
    refine (makes_not hwf hx).congr (fun vars => ?_)
    rw [hcmp, h0, bv_eq_cut]
    rcases hcases vars with h | h <;> rw [h] <;> rfl
  · split
    · rename_i h1
      refine makes_pure hwf hx (fun vars => ?_)
      rw [hcmp, h1, bv_eq_cut]
      rcases hcases vars with h | h <;> rw [h] <;> rfl
    · rename_i h0 h1
      refine makes_ofBool_const hwf (c := false) rfl (fun vars => ?_)
      rw [hcmp]
      congr 1
      rcases hcases vars with h | h <;> rw [h]
      · simpa using fun h' => h0 h'.symm
      · simpa using fun h' => h1 h'.symm

theorem makes_eqRules (ih : CompareBelow .eq (ctx.weight a + ctx.weight b)) {p : Make Nat}
    (hp : eqRules ctx a b (widthMask w) = some p) : Makes p ctx 1
      (fun vars => BitVec.ofBool (compareBv .eq (ctx.bv vars w a) (ctx.bv vars w b))) := by
  have h0 := hwf.w_pos ha
  have h := hwf.w_le ha
  unfold eqRules at hp
  dsimp only at hp
  obtain ⟨h₁, rfl⟩ | ⟨-, hp⟩ := rule_cases hp
  · subst h₁
    refine makes_ofBool_const hwf (c := true) rfl (fun vars => ?_)
    simp [compareBv]
  obtain ⟨⟨hopa, hopb, hsame⟩, rfl⟩ | ⟨-, hp⟩ := rule_cases hp
  · obtain ⟨hxa, hya, -, hlta, hbva⟩ := hwf.arith_node ha hopa rfl
    obtain ⟨-, hyb, -, hltb, hbvb⟩ := hwf.arith_node hb hopb rfl
    refine makesCompare_older hwf ih hopa hopb (by decide) (by decide) hya hyb hlta hltb
      (fun vars => beq_eq_beq.2 ?_)
    rw [hbva, hbvb, hsame]
    exact (add_right_inj _).symm
  obtain ⟨⟨hopa, hopb, hsame⟩, rfl⟩ | ⟨-, hp⟩ := rule_cases hp
  · obtain ⟨hxa, -, hlta, -, hbva⟩ := hwf.arith_node ha hopa rfl
    obtain ⟨hxb, -, hltb, -, hbvb⟩ := hwf.arith_node hb hopb rfl
    refine makesCompare_older hwf ih hopa hopb (by decide) (by decide) hxa hxb hlta hltb
      (fun vars => beq_eq_beq.2 ?_)
    rw [hbva, hbvb, hsame]
    exact (add_left_inj _).symm
  obtain ⟨⟨hopa, hopb, hsame⟩, rfl⟩ | ⟨-, hp⟩ := rule_cases hp
  · obtain ⟨-, hya, -, hlta, hbva⟩ := hwf.arith_node ha hopa rfl
    obtain ⟨hxb, -, hltb, -, hbvb⟩ := hwf.arith_node hb hopb rfl
    refine makesCompare_older hwf ih hopa hopb (by decide) (by decide) hya hxb hlta hltb
      (fun vars => beq_eq_beq.2 ?_)
    rw [hbva, hbvb, hsame]
    show _ ↔ _ + _ = _ + _
    rw [add_comm (ctx.bv vars w (ctx.node b).a), add_right_inj]
  obtain ⟨⟨hopa, hopb, hsame⟩, rfl⟩ | ⟨-, hp⟩ := rule_cases hp
  · obtain ⟨hxa, -, hlta, -, hbva⟩ := hwf.arith_node ha hopa rfl
    obtain ⟨-, hyb, -, hltb, hbvb⟩ := hwf.arith_node hb hopb rfl
    refine makesCompare_older hwf ih hopa hopb (by decide) (by decide) hxa hyb hlta hltb
      (fun vars => beq_eq_beq.2 ?_)
    rw [hbva, hbvb, hsame]
    show _ ↔ _ + _ = _ + _
    rw [add_comm (ctx.bv vars w (ctx.node b).a), add_left_inj]
  obtain ⟨⟨hop, hk, hcb⟩, rfl⟩ | ⟨-, hp⟩ := rule_cases hp
  · obtain ⟨hha, hhb, hlt, -, hbv⟩ := hwf.arith_node ha hop rfl
    rw [show (ctx.node a).width = w from ha.2]
    refine makes_bind_const hwf h0 h (fun c ctx' hm => ?_)
    refine Makes.congr (ih ctx' w _ c hm.wf (hm.ext.has hha) hm.has ?_) (fun vars => ?_)
    · have hle := weight_le ctx (ctx.node a).a
      rw [hm.ext.weight hha.1, weight_const hm.op, weight_of_op hop (by decide)]
      omega
    · refine congrArg BitVec.ofBool (beq_eq_beq.2 ?_)
      rw [hm.ext.bv hm.wf hha, hm.bv, hbv, hwf.bv_const hb hcb, hwf.bv_const hhb hk,
        cut_and_widthMask h, cut_sub _ _ h]
      exact eq_sub_iff_add_eq
  obtain ⟨hext, rfl⟩ | ⟨-, hp⟩ := rule_cases hp
  · obtain ⟨hlta, hltb, hx, hy, hiff⟩ := ext_pair_eq hwf ha hb hext
    have hopa : (ctx.node a).op ≠ .const := by rcases hext with h | h <;> rw [h.1] <;> decide
    have hopb : (ctx.node b).op ≠ .const := by rcases hext with h | h <;> rw [h.2.1] <;> decide
    exact makesCompare_older hwf ih rfl rfl hopa hopb hx hy hlta hltb
      (fun vars => beq_eq_beq.2 (hiff vars))
  obtain ⟨⟨hop, hbit, hcb⟩, rfl⟩ | ⟨-, hp⟩ := rule_cases hp
  · exact makes_eq_bit hwf ha hb hop hbit hcb
  obtain ⟨hapart, rfl⟩ | ⟨-, hp⟩ := rule_cases hp
  · refine makes_ofBool_const hwf (c := false) rfl (fun vars => ?_)
    refine congrArg BitVec.ofBool ?_
    exact (beq_eq_false_iff_ne.mpr (intervalsApart_ne hwf ha hb hapart vars)).symm
  cases hp

theorem makes_eq : Makes (Make.binary .eq a b 1) ctx 1
      (fun vars => BitVec.ofBool (ctx.bv vars w a == ctx.bv vars w b)) :=
  makesCompare_of_rules rfl eqRules (fun _ _ _ _ => rfl)
    (fun _ _ _ _ hwf ha hb ih _ hp => makes_eqRules hwf ha hb ih hp) hwf ha hb

end

/-! ## Ult and Slt -/

section

variable (hwf : ctx.WF) (ha : ctx.Has w a) (hb : ctx.Has w b)
include hwf ha hb

theorem makes_ultRules (ih : CompareBelow .ult (ctx.weight a + ctx.weight b)) {p : Make Nat}
    (hp : ultRules ctx a b = some p) : Makes p ctx 1
      (fun vars => BitVec.ofBool (compareBv .ult (ctx.bv vars w a) (ctx.bv vars w b))) := by
  have hcmp : ∀ vars, compareBv .ult (ctx.bv vars w a) (ctx.bv vars w b) =
      decide ((ctx.val vars a).toNat < (ctx.val vars b).toNat) := by
    intro vars
    show BitVec.ult _ _ = _
    rw [BitVec.ult, bv_eq_cut, bv_eq_cut, (hwf.fits ha vars).toNat_cut, (hwf.fits hb vars).toNat_cut]
  unfold ultRules at hp
  dsimp only at hp
  obtain ⟨h₁, rfl⟩ | ⟨-, hp⟩ := rule_cases hp
  · subst h₁
    refine makes_ofBool_const hwf (c := false) rfl (fun vars => ?_)
    rw [hcmp]
    simp
  obtain ⟨h₂, rfl⟩ | ⟨-, hp⟩ := rule_cases hp
  · refine makes_ofBool_const hwf (c := true) rfl (fun vars => ?_)
    have h₃ := (hwf.holds a ha.1 vars).le_umax
    have h₄ := (hwf.holds b hb.1 vars).umin_le
    rw [BitVec.lt_def] at h₂
    rw [hcmp, decide_eq_true (by omega)]
  obtain ⟨h₂, rfl⟩ | ⟨-, hp⟩ := rule_cases hp
  · refine makes_ofBool_const hwf (c := false) rfl (fun vars => ?_)
    have h₃ := (hwf.holds a ha.1 vars).umin_le
    have h₄ := (hwf.holds b hb.1 vars).le_umax
    rw [ge_iff_le, BitVec.le_def] at h₂
    rw [hcmp, decide_eq_false (by omega)]
  obtain ⟨⟨hopa, hopb, hwab⟩, rfl⟩ | ⟨-, hp⟩ := rule_cases hp
  · obtain ⟨hlta, -, -, hva⟩ := hwf.zext_node ha hopa
    obtain ⟨hltb, -, -, hvb⟩ := hwf.zext_node hb hopb
    have hla := ha.1
    have hlb := hb.1
    have hx : ctx.Has (ctx.width (ctx.node a).a) (ctx.node a).a := ⟨by omega, rfl⟩
    have hy : ctx.Has (ctx.width (ctx.node a).a) (ctx.node b).a := ⟨by omega, hwab.symm⟩
    refine makesCompare_older hwf ih hopa hopb (by decide) (by decide) hx hy hlta hltb
      (fun vars => ?_)
    rw [hcmp, hva, hvb]
    show BitVec.ult _ _ = _
    rw [BitVec.ult, bv_eq_cut, bv_eq_cut, (hwf.fits hx vars).toNat_cut, (hwf.fits hy vars).toNat_cut]
  cases hp

theorem makes_ult : Makes (Make.binary .ult a b 1) ctx 1
      (fun vars => BitVec.ofBool ((ctx.bv vars w a).ult (ctx.bv vars w b))) :=
  makesCompare_of_rules rfl (fun ctx a b _ => ultRules ctx a b) (fun _ _ _ _ => rfl)
    (fun _ _ _ _ hwf ha hb ih _ hp => makes_ultRules hwf ha hb ih hp) hwf ha hb

theorem makes_sltRules (ih : CompareBelow .slt (ctx.weight a + ctx.weight b)) {p : Make Nat}
    (hp : sltRules ctx a b = some p) : Makes p ctx 1
      (fun vars => BitVec.ofBool (compareBv .slt (ctx.bv vars w a) (ctx.bv vars w b))) := by
  have hcmp : ∀ vars, compareBv .slt (ctx.bv vars w a) (ctx.bv vars w b) =
      decide ((ctx.bv vars w a).toInt < (ctx.bv vars w b).toInt) := fun _ => rfl
  have hia := fun vars => hwf.holds a ha.1 vars
  have hib := fun vars => hwf.holds b hb.1 vars
  rw [ha.2] at hia
  rw [hb.2] at hib
  unfold sltRules at hp
  dsimp only at hp
  obtain ⟨h₁, rfl⟩ | ⟨-, hp⟩ := rule_cases hp
  · subst h₁
    refine makes_ofBool_const hwf (c := false) rfl (fun vars => ?_)
    rw [hcmp]
    simp
  obtain ⟨h₂, rfl⟩ | ⟨-, hp⟩ := rule_cases hp
  · refine makes_ofBool_const hwf (c := true) rfl (fun vars => ?_)
    have h₃ : (ctx.bv vars w a).toInt ≤ _ := (hia vars).smax
    have h₄ : _ ≤ (ctx.bv vars w b).toInt := (hib vars).smin
    rw [hcmp, decide_eq_true (by omega)]
  obtain ⟨h₂, rfl⟩ | ⟨-, hp⟩ := rule_cases hp
  · refine makes_ofBool_const hwf (c := false) rfl (fun vars => ?_)
    have h₃ : _ ≤ (ctx.bv vars w a).toInt := (hia vars).smin
    have h₄ : (ctx.bv vars w b).toInt ≤ _ := (hib vars).smax
    rw [hcmp, decide_eq_false (by omega)]
  obtain ⟨⟨hopa, hopb, hwab⟩, rfl⟩ | ⟨-, hp⟩ := rule_cases hp
  · obtain ⟨hlta, hw, hva⟩ := hwf.sext_node ha hopa
    obtain ⟨hltb, -, hvb⟩ := hwf.sext_node hb hopb
    have hla := ha.1
    have hlb := hb.1
    have hx : ctx.Has (ctx.width (ctx.node a).a) (ctx.node a).a := ⟨by omega, rfl⟩
    have hy : ctx.Has (ctx.width (ctx.node a).a) (ctx.node b).a := ⟨by omega, hwab.symm⟩
    refine makesCompare_older hwf ih hopa hopb (by decide) (by decide) hx hy hlta hltb
      (fun vars => ?_)
    rw [hcmp, hva, hvb, ← hwab, BitVec.toInt_signExtend_of_le (by omega),
      BitVec.toInt_signExtend_of_le (by omega)]
    rfl
  cases hp

theorem makes_slt : Makes (Make.binary .slt a b 1) ctx 1
      (fun vars => BitVec.ofBool ((ctx.bv vars w a).slt (ctx.bv vars w b))) :=
  makesCompare_of_rules rfl (fun ctx a b _ => sltRules ctx a b) (fun _ _ _ _ => rfl)
    (fun _ _ _ _ hwf ha hb ih _ hp => makes_sltRules hwf ha hb ih hp) hwf ha hb

end

/-! ## The other comparisons -/

/-- The comparisons that are expressed by `Eq`, `Ult` and `Slt`: which one, whether the
operands are exchanged and whether the result is negated. -/
def viaCompare (op : BVOp) : Option (BVOp × Bool × Bool) :=
  match op with
  | .ne => some (.eq, false, true)
  | .ugt => some (.ult, true, false)
  | .uge => some (.ult, false, true)
  | .ule => some (.ult, true, true)
  | .sgt => some (.slt, true, false)
  | .sge => some (.slt, false, true)
  | .sle => some (.slt, true, true)
  | _ => none

theorem makes_compare (ho : isCompare op = true) (hwf : ctx.WF) (ha : ctx.Has w a)
    (hb : ctx.Has w b) : MakesCompare op ctx w a b := by
  cases op <;> first | exact absurd ho (by decide) | skip
  · exact makes_eq hwf ha hb
  · exact makes_ult hwf ha hb
  · exact makes_slt hwf ha hb

theorem makes_makeNot {p : Make Nat} {c : List U64 → Bool}
    (hp : Makes p ctx 1 (fun vars => BitVec.ofBool (c vars))) :
    Makes (makeNot p) ctx 1 (fun vars => BitVec.ofBool (!c vars)) := by
  refine makes_bind hp (fun r ctx' hm => ?_)
  refine (makes_not hm.wf hm.has).congr (fun vars => ?_)
  rw [hm.bv]
  cases c vars <;> rfl

theorem makes_viaCompare {base : BVOp} {swap neg : Bool}
    (ho : viaCompare op = some (base, swap, neg)) (hwf : ctx.WF) (ha : ctx.Has w a)
    (hb : ctx.Has w b) (k : Nat) :
    Makes (Make.binary op a b k) ctx 1 (fun vars => BitVec.ofBool
      (neg ^^ compareBv base (ctx.bv vars w (if swap then b else a))
        (ctx.bv vars w (if swap then a else b)))) := by
  apply makes_binary
  have hcmp : ∀ op', isCompare op' = true → MakesCompare op' ctx w a b ∧ MakesCompare op' ctx w b a :=
    fun op' ho' => ⟨makes_compare ho' hwf ha hb, makes_compare ho' hwf hb ha⟩
  cases op <;> simp only [viaCompare, Option.some.injEq, Prod.mk.injEq, reduceCtorEq] at ho <;>
    obtain ⟨rfl, rfl, rfl⟩ := ho <;>
    simp only [Bool.false_xor, Bool.true_xor, Bool.false_eq_true, if_true, if_false]
  · exact makes_makeNot (hcmp .eq rfl).1
  · exact makes_makeNot (hcmp .ult rfl).2
  · exact (hcmp .ult rfl).2
  · exact makes_makeNot (hcmp .ult rfl).1
  · exact makes_makeNot (hcmp .slt rfl).2
  · exact (hcmp .slt rfl).2
  · exact makes_makeNot (hcmp .slt rfl).1

/-- The value of these operators in words is the value that is built. -/
theorem bv_binary_viaCompare {base : BVOp} {swap neg : Bool}
    (ho : viaCompare op = some (base, swap, neg)) (hwf : ctx.WF) (ha : ctx.Has w a)
    (hb : ctx.Has w b) (vars : List U64) :
    cut 1 (ctx.evalNode vars (binaryNode op 1 a b)) = BitVec.ofBool
      (neg ^^ compareBv base (ctx.bv vars w (if swap then b else a))
        (ctx.bv vars w (if swap then a else b))) := by
  have hne : op ≠ .const ∧ op ≠ .var := by
    constructor <;> rintro rfl <;> cases ho
  have hcomp : isCompare base = true := by
    cases op <;> simp only [viaCompare, Option.some.injEq, Prod.mk.injEq, reduceCtorEq] at ho <;>
      obtain ⟨rfl, -, -⟩ := ho <;> rfl
  have hbase : ∀ {x y : Nat}, ctx.Has w x → ctx.Has w y → evalOp (binaryNode base 1 x y) w w
      (ctx.val vars x) (ctx.val vars y) 0 =
        ofBool (compareBv base (ctx.bv vars w x) (ctx.bv vars w y)) := by
    intro x y hx hy
    cases base <;> first | exact absurd hcomp (by decide) | skip
    · exact evalOp_eq rfl (hwf.fits hx vars) (hwf.fits hy vars)
    · exact evalOp_ult rfl (hwf.fits hx vars) (hwf.fits hy vars)
    · exact evalOp_slt rfl (hwf.w_pos hx) (hwf.w_le hx)
  have hnot : ∀ {c c' : Bool}, ofBool c = ofBool c' → c = c' := by decide
  have hule : ∀ x y : U64, decide (x ≤ y) = !decide (y < x) := by
    intro x y
    rw [← decide_not, decide_eq_decide]
    exact BitVec.not_lt.symm
  have hsle : ∀ x y : Int, decide (x ≤ y) = !decide (y < x) := by
    intro x y
    rw [← decide_not, decide_eq_decide]
    exact Int.not_lt.symm
  rw [evalNode_binary hwf hne.1 hne.2 ha.1 hb.1, ha.2, hb.2, ← cut_ofBool]
  congr 1
  have hab := hbase ha hb
  have hba := hbase hb ha
  cases op <;> simp only [viaCompare, Option.some.injEq, Prod.mk.injEq, reduceCtorEq] at ho <;>
    obtain ⟨rfl, rfl, rfl⟩ := ho <;>
    simp only [Bool.false_xor, Bool.true_xor, Bool.false_eq_true, if_true, if_false] <;>
    simp only [evalOp, binaryNode] at hab hba ⊢
  · rw [← hnot hab, bne]
  · rw [← hnot hba, hule]
  · rw [← hnot hba]
  · rw [← hnot hab, ← hule]
  · rw [← hnot hba, hsle]
  · rw [← hnot hba]
  · rw [← hnot hab, ← hsle]

theorem makes_sge (hwf : ctx.WF) (ha : ctx.Has w a) (hb : ctx.Has w b) :
    Makes (Make.binary .sge a b 1) ctx 1
      (fun vars => BitVec.ofBool (!(ctx.bv vars w a).slt (ctx.bv vars w b))) :=
  (makes_viaCompare (show viaCompare .sge = some (.slt, false, true) from rfl) hwf ha hb 1).congr (fun _ => by rw [Bool.true_xor]; rfl)

end Brass.Verify.Bv
