import Brass.Verify.BvBinary

/-!
# Bitwise operators

`Not`, `And`, `Or` and `Xor` are right: the node that the constructors return has the value
of the operator. A rule that calls a constructor again does so on operands of smaller
weight, where constants weigh nothing.
-/

namespace Brass.Verify.Bv

open Brass.Util BVContext BitVec

variable {ctx ctx' : BVContext} {op : BVOp} {w a b id : Nat} {g : List U64 → BitVec w}

/-! ## Weights -/

def BVContext.weight (ctx : BVContext) (id : Nat) : Nat :=
  if (ctx.node id).op = .const then 0 else id

namespace BVContext

theorem weight_const (hop : (ctx.node id).op = .const) : ctx.weight id = 0 := if_pos hop

theorem weight_le (ctx : BVContext) (id : Nat) : ctx.weight id ≤ id := by
  unfold weight
  split <;> omega

theorem weight_of_op {op : BVOp} (hop : (ctx.node id).op = op) (hne : op ≠ .const) :
    ctx.weight id = id := if_neg (hop ▸ hne)

theorem Extends.weight (h : ctx.Extends ctx') (hid : id < ctx.nodes.length) :
    ctx'.weight id = ctx.weight id := by
  unfold BVContext.weight
  rw [h.node hid]

end BVContext

theorem Operands.weight {a' b' : Nat} (h : Operands ctx op a b a' b') :
    ctx.weight a' + ctx.weight b' = ctx.weight a + ctx.weight b := by
  rcases h.perm with ⟨rfl, rfl⟩ | ⟨-, rfl, rfl⟩
  · rfl
  · exact Nat.add_comm _ _

def MakesArith (op : BVOp) (ctx : BVContext) (w a b : Nat) : Prop :=
  Makes (Make.binary op a b w) ctx w (fun vars => arith op (ctx.bv vars w a) (ctx.bv vars w b))

def ArithBelow (op : BVOp) (w k : Nat) : Prop :=
  ∀ (ctx : BVContext) (a b : Nat), ctx.WF → ctx.Has w a → ctx.Has w b →
    ctx.weight a + ctx.weight b < k → MakesArith op ctx w a b

/-- It is right on all operands of small weight of which the second is a constant. -/
def ConstBelow (op : BVOp) (w k : Nat) : Prop :=
  ∀ (ctx : BVContext) (a b : Nat), ctx.WF → ctx.Has w a → ctx.Has w b →
    (ctx.node b).op = .const → ctx.weight a + ctx.weight b < k → MakesArith op ctx w a b

theorem ArithBelow.constBelow {k : Nat} (h : ArithBelow op w k) : ConstBelow op w k :=
  fun ctx a b hwf ha hb _ hlt => h ctx a b hwf ha hb hlt

/-- An operator whose rules only call it on operands of smaller weight. -/
theorem makesArith_of_rules (ho : isArith op = true)
    (hrules : ∀ (ctx : BVContext) (a b : Nat), ctx.WF → ctx.Has w a → ctx.Has w b →
      ArithBelow op w (ctx.weight a + ctx.weight b) →
      Makes (simplifyBinary ctx op a b w (widthMask w)) ctx w
        (fun vars => arith op (ctx.bv vars w a) (ctx.bv vars w b)))
    (hwf : ctx.WF) (ha : ctx.Has w a) (hb : ctx.Has w b) : MakesArith op ctx w a b := by
  induction hk : ctx.weight a + ctx.weight b using Nat.strongRecOn generalizing ctx a b with
  | ind k ih =>
    refine makes_arith hwf ho ha hb (fun a' b' ha' hb' hops => ?_)
    refine hrules ctx a' b' hwf ha' hb' ?_
    intro ctx' x y hwf' hx hy hlt
    rw [hops.weight] at hlt
    exact ih _ (hk ▸ hlt) hwf' hx hy rfl

theorem makes_reassoc (hwf : ctx.WF) (ho : isArith op = true) (ha : ctx.Has w a) (hb : ctx.Has w b)
    (ih : ConstBelow op w (ctx.weight a + ctx.weight b)) (hop : (ctx.node a).op = op)
    (hk : (ctx.node (ctx.node a).b).op = .const) (hcb : (ctx.node b).op = .const) {c : U64}
    (hc : cut w c = arith op (cut w (ctx.node (ctx.node a).b).imm) (cut w (ctx.node b).imm))
    (hassoc : ∀ x y z : BitVec w, arith op (arith op x y) z = arith op x (arith op y z)) :
    Makes (Make.const c w >>= fun c => Make.binary op (ctx.node a).a c w) ctx w
      (fun vars => arith op (ctx.bv vars w a) (ctx.bv vars w b)) := by
  obtain ⟨hha, hhb, hlt, -, hbv⟩ := hwf.arith_node ha hop ho
  refine makes_bind_const hwf (hwf.w_pos ha) (hwf.w_le ha) (fun c ctx' hm => ?_)
  refine Makes.congr (ih ctx' _ c hm.wf (hm.ext.has hha) hm.has hm.op ?_) (fun vars => ?_)
  · have hle := weight_le ctx (ctx.node a).a
    have hne : op ≠ .const := by
      rintro rfl
      exact absurd ho (by decide)
    rw [hm.ext.weight hha.1, weight_const hm.op, weight_of_op hop hne]
    omega
  · rw [hm.ext.bv hm.wf hha, hm.bv, hc, hbv, hwf.bv_const hb hcb, hwf.bv_const hhb hk, hassoc]

/-! ## Known bits -/

theorem bv_zero_bit (hwf : ctx.WF) (ha : ctx.Has w a) {i : Nat}
    (hz : (ctx.interval a).knownZeros.getLsbD i = true) (vars : List U64) :
    (ctx.bv vars w a).getLsbD i = false := by
  rw [bv_eq_cut, getLsbD_cut, (hwf.holds a ha.1 vars).zeros i hz, Bool.and_false]

theorem bit_cases (hwf : ctx.WF) (ha : ctx.Has 1 a) (vars : List U64) :
    ctx.val vars a = 0#64 ∨ ctx.val vars a = 1#64 := by
  have hfits : (ctx.val vars a).toNat < 2 ^ 1 := hwf.fits ha vars
  rcases Nat.lt_or_ge (ctx.val vars a).toNat 1 with h | h
  · exact .inl (eq_of_toNat_eq (by simp; omega))
  · exact .inr (eq_of_toNat_eq (by simp; omega))

/-! ## Unary operators -/

def unaryNode (op : BVOp) (w a : Nat) : BVNode := { op := op, width := w, a := a }

theorem legal_unary (hwf : ctx.WF) (ho : isUnaryOp op = true) (ha : ctx.Has w a) :
    ctx.Legal (unaryNode op w a) := by
  refine ⟨.inr (.inr ⟨ha.1, hwf.nonempty, hwf.nonempty⟩), ?_, hwf.w_pos ha, hwf.w_le ha⟩
  cases op <;> first | exact absurd ho (by decide) | exact ha.2

theorem evalNode_unary (hwf : ctx.WF) (ho : isUnaryOp op = true) (ha : ctx.Has w a)
    (vars : List U64) :
    ctx.evalNode vars (unaryNode op w a) =
      evalOp (unaryNode op w a) w (ctx.width 0) (ctx.val vars a) (ctx.val vars 0)
        (ctx.val vars 0) := by
  have hne : op ≠ .const ∧ op ≠ .var := by
    cases op <;> first | exact absurd ho (by decide) | decide
  rw [hwf.evalNode_eq (n := unaryNode op w a) hne.1 hne.2 ha.1 hwf.nonempty hwf.nonempty]
  show evalOp _ (ctx.width a) _ _ _ _ = _
  rw [ha.2]
  rfl

theorem evalOp_unary (ho : isUnaryOp op = true) (aw bw bw' : Nat) (va vb vb' vc vc' : U64) :
    evalOp (unaryNode op w a) aw bw va vb vc = evalOp (unaryNode op w a) aw bw' va vb' vc' := by
  cases op <;> first | exact absurd ho (by decide) | rfl

theorem fold_unary (hwf : ctx.WF) (ho : isUnaryOp op = true) (ha : ctx.Has w a)
    (hca : (ctx.node a).op = .const) (vars : List U64) :
    evalNodeConcrete ctx.nodes (unaryNode op w a) (ctx.node a).imm 0 0 =
      ctx.evalNode vars (unaryNode op w a) := by
  obtain ⟨hfits, hva⟩ := hwf.const_node ha hca
  rw [evalNode_unary hwf ho ha, hva]
  unfold evalNodeConcrete
  rw [show (unaryNode op w a).a = a from rfl, widthAt_eq ha.1, ha.2,
    hfits.and_widthMask (hwf.w_le ha)]
  exact evalOp_unary ho _ _ _ _ _ _ _ _

theorem bv_unary_not (hwf : ctx.WF) (ha : ctx.Has w a) (vars : List U64) :
    cut w (ctx.evalNode vars (unaryNode .not w a)) = ~~~ctx.bv vars w a := by
  rw [evalNode_unary hwf rfl ha, evalOp_not (w := w) rfl rfl (hwf.w_le ha), cut_lift (hwf.w_le ha)]
  rfl

theorem bv_unary_neg (hwf : ctx.WF) (ha : ctx.Has w a) (vars : List U64) :
    cut w (ctx.evalNode vars (unaryNode .neg w a)) = -ctx.bv vars w a := by
  rw [evalNode_unary hwf rfl ha, evalOp_neg (w := w) rfl rfl (hwf.w_le ha), cut_lift (hwf.w_le ha)]
  rfl

/-- Every unary operator but the negation, which is a subtraction. -/
theorem makes_unaryOp (hwf : ctx.WF) (ho : isUnaryOp op = true) (hneg : op ≠ .neg)
    (ha : ctx.Has w a) :
    Makes (Make.unary op a w) ctx w (fun vars => cut w (ctx.evalNode vars (unaryNode op w a))) := by
  have hw : w ≠ 0 := Nat.pos_iff_ne_zero.mp (hwf.w_pos ha)
  apply makes_unary
  unfold makeUnary
  dsimp only
  rw [if_pos hw]
  split
  · rename_i hca
    refine makes_const hwf (hwf.w_pos ha) (hwf.w_le ha) (fun vars => ?_)
    exact congrArg (cut w) (fold_unary hwf ho ha hca vars)
  · split
    · rename_i hnn
      obtain ⟨hha, -, hbv⟩ := hwf.not_node ha hnn.2
      refine makes_pure hwf hha (fun vars => ?_)
      rw [hnn.1, bv_unary_not hwf ha, hbv, BitVec.not_not]
    · exact makes_intern hwf (legal_unary hwf ho ha) rfl (fun _ => rfl)

theorem makes_not (hwf : ctx.WF) (ha : ctx.Has w a) :
    Makes (Make.unary .not a w) ctx w (fun vars => ~~~ctx.bv vars w a) :=
  (makes_unaryOp hwf rfl (by decide) ha).congr (bv_unary_not hwf ha)

/-! ## And -/

/-- One rule of a chain of rules: it applies, or one of the rules after it does. -/
theorem rule_cases {α : Type} {c : Prop} [Decidable c] {p q : α} {rest : Option α}
    (h : (if c then some p else rest) = some q) : (c ∧ p = q) ∨ (¬c ∧ rest = some q) := by
  by_cases hc : c
  · rw [if_pos hc] at h
    exact .inl ⟨hc, Option.some.inj h⟩
  · rw [if_neg hc] at h
    exact .inr ⟨hc, h⟩

section

variable (hwf : ctx.WF) (ha : ctx.Has w a)
include hwf ha

theorem and_eq_left_of_zeros {c : U64}
    (h : (ctx.interval a).knownZeros ||| ~~~c = (ctx.interval a).knownZeros) (vars : List U64) :
    ctx.bv vars w a = ctx.bv vars w a &&& cut w c := by
  apply eq_of_getLsbD_eq
  intro i hi
  have hle := hwf.w_le ha
  rw [getLsbD_and, getLsbD_cut]
  have hbit := congrArg (fun x => getLsbD x i) h
  simp only [getLsbD_or, getLsbD_not, show i < 64 by omega, decide_true, Bool.true_and] at hbit
  cases hc : c.getLsbD i
  · rw [hc, Bool.not_false, Bool.or_true] at hbit
    rw [bv_zero_bit hwf ha hbit.symm]
    rfl
  · simp [hi]

theorem and_eq_zero_of_zeros {c : U64}
    (h : (ctx.interval a).knownZeros &&& c = c) (vars : List U64) :
    0#w = ctx.bv vars w a &&& cut w c := by
  apply eq_of_getLsbD_eq
  intro i hi
  rw [getLsbD_and, getLsbD_cut, getLsbD_zero]
  cases hc : c.getLsbD i
  · simp
  · rw [bv_zero_bit hwf ha (and_eq_right_iff.mp h i hc)]
    rfl

theorem makes_andRules (hb : ctx.Has w b) (ih : ArithBelow .and w (ctx.weight a + ctx.weight b))
    {p : Make Nat} (hp : andRules ctx a b w (widthMask w) = some p) :
    Makes p ctx w (fun vars => ctx.bv vars w a &&& ctx.bv vars w b) := by
  have h0 := hwf.w_pos ha
  have h := hwf.w_le ha
  have hconst := hwf.bv_const hb
  unfold andRules at hp
  dsimp only at hp
  obtain ⟨h₁, rfl⟩ | ⟨-, hp⟩ := rule_cases hp
  · subst h₁
    exact makes_pure hwf ha (fun vars => and_self.symm)
  obtain ⟨h₂, rfl⟩ | ⟨-, hp⟩ := rule_cases hp
  · refine makes_const hwf h0 h (fun vars => ?_)
    rw [hconst h₂.1, h₂.2]
    simp
  obtain ⟨h₃, rfl⟩ | ⟨-, hp⟩ := rule_cases hp
  · refine makes_pure hwf ha (fun vars => ?_)
    rw [hconst h₃.1, h₃.2, cut_widthMask h, and_allOnes]
  obtain ⟨h₄, rfl⟩ | ⟨-, hp⟩ := rule_cases hp
  · refine makes_pure hwf ha (fun vars => ?_)
    rw [hconst h₄.1]
    exact and_eq_left_of_zeros hwf ha h₄.2 vars
  obtain ⟨h₅, rfl⟩ | ⟨-, hp⟩ := rule_cases hp
  · refine makes_const hwf h0 h (fun vars => ?_)
    rw [hconst h₅.1]
    refine Eq.trans ?_ (and_eq_zero_of_zeros hwf ha h₅.2 vars)
    simp
  obtain ⟨h₆, rfl⟩ | ⟨-, hp⟩ := rule_cases hp
  · obtain ⟨-, -, hbv⟩ := hwf.not_node ha h₆.1
    refine makes_const hwf h0 h (fun vars => ?_)
    rw [hbv, h₆.2]
    simp
  obtain ⟨h₇, rfl⟩ | ⟨-, hp⟩ := rule_cases hp
  · obtain ⟨-, -, hbv⟩ := hwf.not_node hb h₇.1
    refine makes_const hwf h0 h (fun vars => ?_)
    rw [hbv, h₇.2]
    simp
  obtain ⟨⟨hop, hk, hcb⟩, rfl⟩ | ⟨-, hp⟩ := rule_cases hp
  · exact makes_reassoc hwf rfl ha hb ih.constBelow hop hk hcb (cut_and _ _) and_assoc
  cases hp

theorem makes_and (hb : ctx.Has w b) :
    Makes (Make.binary .and a b w) ctx w (fun vars => ctx.bv vars w a &&& ctx.bv vars w b) := by
  refine makesArith_of_rules rfl (fun ctx a b hwf ha hb ih => ?_) hwf ha hb
  exact makes_arith_rules hwf rfl ha hb (fun p hp => makes_andRules hwf ha hb ih hp)

end

/-! ## Or -/

theorem makes_orOfAnds {x y z : Nat} (hx : ctx.Has w x)
    (hor : Makes (Make.binary .or y z w) ctx w (fun vars => ctx.bv vars w y ||| ctx.bv vars w z)) :
    Makes (orOfAnds w x y z) ctx w
      (fun vars => ctx.bv vars w x &&& (ctx.bv vars w y ||| ctx.bv vars w z)) := by
  refine makes_bind hor (fun r ctx' hm => ?_)
  refine (makes_and hm.wf (hm.ext.has hx) hm.has).congr (fun vars => ?_)
  rw [hm.ext.bv hm.wf hx, hm.bv]

theorem makes_orRules (hwf : ctx.WF) (ha : ctx.Has w a) (hb : ctx.Has w b)
    (ih : ArithBelow .or w (ctx.weight a + ctx.weight b))
    {p : Make Nat} (hp : orRules ctx a b w (widthMask w) = some p) :
    Makes p ctx w (fun vars => ctx.bv vars w a ||| ctx.bv vars w b) := by
  have h0 := hwf.w_pos ha
  have h := hwf.w_le ha
  have hconst := hwf.bv_const hb
  -- The last four rules, for operands `x & y` and `x & z` in any order.
  have hands : ∀ x y z, ctx.Has w x → ctx.Has w y → ctx.Has w z →
      y < a → z < b → (ctx.node a).op = .and → (ctx.node b).op = .and →
      (∀ vars, ctx.bv vars w x &&& (ctx.bv vars w y ||| ctx.bv vars w z) =
        ctx.bv vars w a ||| ctx.bv vars w b) →
      Makes (orOfAnds w x y z) ctx w (fun vars => ctx.bv vars w a ||| ctx.bv vars w b) := by
    intro x y z hx hy hz hya hzb hopa hopb heq
    refine (makes_orOfAnds hx (ih ctx y z hwf hy hz ?_)).congr heq
    have h₁ := weight_le ctx y
    have h₂ := weight_le ctx z
    rw [weight_of_op hopa (by decide), weight_of_op hopb (by decide)]
    omega
  unfold orRules at hp
  dsimp only at hp
  obtain ⟨h₁, rfl⟩ | ⟨-, hp⟩ := rule_cases hp
  · subst h₁
    exact makes_pure hwf ha (fun vars => or_self.symm)
  obtain ⟨h₂, rfl⟩ | ⟨-, hp⟩ := rule_cases hp
  · refine makes_pure hwf ha (fun vars => ?_)
    rw [hconst h₂.1, h₂.2]
    simp
  obtain ⟨h₃, rfl⟩ | ⟨-, hp⟩ := rule_cases hp
  · refine makes_const hwf h0 h (fun vars => ?_)
    rw [hconst h₃.1, h₃.2, cut_widthMask h, or_allOnes]
  obtain ⟨h₄, rfl⟩ | ⟨-, hp⟩ := rule_cases hp
  · obtain ⟨-, -, hbv⟩ := hwf.not_node ha h₄.1
    refine makes_const hwf h0 h (fun vars => ?_)
    rw [hbv, h₄.2, cut_widthMask h]
    simp
  obtain ⟨h₅, rfl⟩ | ⟨-, hp⟩ := rule_cases hp
  · obtain ⟨-, -, hbv⟩ := hwf.not_node hb h₅.1
    refine makes_const hwf h0 h (fun vars => ?_)
    rw [hbv, h₅.2, cut_widthMask h]
    simp
  obtain ⟨⟨hop, hk, hcb⟩, rfl⟩ | ⟨-, hp⟩ := rule_cases hp
  · exact makes_reassoc hwf rfl ha hb ih.constBelow hop hk hcb (cut_or _ _) or_assoc
  obtain ⟨h₇, rfl⟩ | ⟨-, hp⟩ := rule_cases hp
  · obtain ⟨hxa, hya, -, hyalt, hbva⟩ := hwf.arith_node ha h₇.1 rfl
    obtain ⟨-, hyb, -, hyblt, hbvb⟩ := hwf.arith_node hb h₇.2.1 rfl
    refine hands _ _ _ hxa hya hyb hyalt hyblt h₇.1 h₇.2.1 (fun vars => ?_)
    rw [hbva, hbvb, ← h₇.2.2]
    exact and_or_distrib_left
  obtain ⟨h₈, rfl⟩ | ⟨-, hp⟩ := rule_cases hp
  · obtain ⟨hxa, hya, -, hyalt, hbva⟩ := hwf.arith_node ha h₈.1 rfl
    obtain ⟨hxb, -, hxblt, -, hbvb⟩ := hwf.arith_node hb h₈.2.1 rfl
    refine hands _ _ _ hxa hya hxb hyalt hxblt h₈.1 h₈.2.1 (fun vars => ?_)
    rw [hbva, hbvb, ← h₈.2.2]
    show _ = _ ||| (_ &&& _)
    rw [and_comm (ctx.bv vars w (ctx.node b).a)]
    exact and_or_distrib_left
  obtain ⟨h₉, rfl⟩ | ⟨-, hp⟩ := rule_cases hp
  · obtain ⟨hxa, hya, hxalt, -, hbva⟩ := hwf.arith_node ha h₉.1 rfl
    obtain ⟨-, hyb, -, hyblt, hbvb⟩ := hwf.arith_node hb h₉.2.1 rfl
    refine hands _ _ _ hya hxa hyb hxalt hyblt h₉.1 h₉.2.1 (fun vars => ?_)
    rw [hbva, hbvb, ← h₉.2.2]
    show _ = (_ &&& _) ||| _
    rw [and_comm (ctx.bv vars w (ctx.node a).a)]
    exact and_or_distrib_left
  obtain ⟨h₁₀, rfl⟩ | ⟨-, hp⟩ := rule_cases hp
  · obtain ⟨hxa, hya, hxalt, -, hbva⟩ := hwf.arith_node ha h₁₀.1 rfl
    obtain ⟨hxb, -, hxblt, -, hbvb⟩ := hwf.arith_node hb h₁₀.2.1 rfl
    refine hands _ _ _ hya hxa hxb hxalt hxblt h₁₀.1 h₁₀.2.1 (fun vars => ?_)
    rw [hbva, hbvb, ← h₁₀.2.2]
    show _ = (_ &&& _) ||| (_ &&& _)
    rw [and_comm (ctx.bv vars w (ctx.node a).a), and_comm (ctx.bv vars w (ctx.node b).a)]
    exact and_or_distrib_left
  cases hp

theorem makes_or (hwf : ctx.WF) (ha : ctx.Has w a) (hb : ctx.Has w b) :
    Makes (Make.binary .or a b w) ctx w (fun vars => ctx.bv vars w a ||| ctx.bv vars w b) := by
  refine makesArith_of_rules rfl (fun ctx a b hwf ha hb ih => ?_) hwf ha hb
  exact makes_arith_rules hwf rfl ha hb (fun p hp => makes_orRules hwf ha hb ih hp)

/-! ## Xor -/

theorem xor_xor_right (x y : BitVec w) : x ^^^ y ^^^ y = x := by
  rw [BitVec.xor_assoc, BitVec.xor_self, BitVec.xor_zero]

theorem makes_xorRules (hwf : ctx.WF) (ha : ctx.Has w a) (hb : ctx.Has w b)
    (ih : ArithBelow .xor w (ctx.weight a + ctx.weight b))
    {p : Make Nat} (hp : xorRules ctx a b w (widthMask w) = some p) :
    Makes p ctx w (fun vars => ctx.bv vars w a ^^^ ctx.bv vars w b) := by
  have h0 := hwf.w_pos ha
  have h := hwf.w_le ha
  have hconst := hwf.bv_const hb
  unfold xorRules at hp
  dsimp only at hp
  obtain ⟨h₁, rfl⟩ | ⟨-, hp⟩ := rule_cases hp
  · subst h₁
    refine makes_const hwf h0 h (fun vars => ?_)
    rw [BitVec.xor_self]
    exact cut_zero
  obtain ⟨h₂, rfl⟩ | ⟨-, hp⟩ := rule_cases hp
  · refine makes_pure hwf ha (fun vars => ?_)
    rw [hconst h₂.1, h₂.2]
    simp
  obtain ⟨h₃, rfl⟩ | ⟨-, hp⟩ := rule_cases hp
  · refine (makes_not hwf ha).congr (fun vars => ?_)
    rw [hconst h₃.1, h₃.2, cut_widthMask h, xor_allOnes]
  obtain ⟨h₄, rfl⟩ | ⟨-, hp⟩ := rule_cases hp
  · obtain ⟨-, hhb, -, -, hbv⟩ := hwf.arith_node ha h₄.1 rfl
    refine makes_pure hwf hhb (fun vars => ?_)
    rw [hbv, h₄.2]
    show _ = (_ ^^^ _) ^^^ _
    rw [BitVec.xor_comm (ctx.bv vars w b), xor_xor_right]
  obtain ⟨h₅, rfl⟩ | ⟨-, hp⟩ := rule_cases hp
  · obtain ⟨hha, -, -, -, hbv⟩ := hwf.arith_node ha h₅.1 rfl
    refine makes_pure hwf hha (fun vars => ?_)
    rw [hbv, h₅.2]
    exact (xor_xor_right _ _).symm
  obtain ⟨h₆, rfl⟩ | ⟨-, hp⟩ := rule_cases hp
  · obtain ⟨-, hhb, -, -, hbv⟩ := hwf.arith_node hb h₆.1 rfl
    refine makes_pure hwf hhb (fun vars => ?_)
    rw [hbv, h₆.2, BitVec.xor_comm]
    show _ = (_ ^^^ _) ^^^ _
    rw [BitVec.xor_comm (ctx.bv vars w a), xor_xor_right]
  obtain ⟨h₇, rfl⟩ | ⟨-, hp⟩ := rule_cases hp
  · obtain ⟨hha, -, -, -, hbv⟩ := hwf.arith_node hb h₇.1 rfl
    refine makes_pure hwf hha (fun vars => ?_)
    rw [hbv, h₇.2, BitVec.xor_comm]
    exact (xor_xor_right _ _).symm
  obtain ⟨⟨hop, hk, hcb⟩, rfl⟩ | ⟨-, hp⟩ := rule_cases hp
  · exact makes_reassoc hwf rfl ha hb ih.constBelow hop hk hcb (cut_xor _ _) BitVec.xor_assoc
  cases hp

theorem makes_xor (hwf : ctx.WF) (ha : ctx.Has w a) (hb : ctx.Has w b) :
    Makes (Make.binary .xor a b w) ctx w (fun vars => ctx.bv vars w a ^^^ ctx.bv vars w b) := by
  refine makesArith_of_rules rfl (fun ctx a b hwf ha hb ih => ?_) hwf ha hb
  exact makes_arith_rules hwf rfl ha hb (fun p hp => makes_xorRules hwf ha hb ih hp)

end Brass.Verify.Bv
