import Brass.Verify.BvBuild

/-!
# The frame of `make_binary`

Before the rules of an operator are tried, `make_binary` exchanges the operands of a
commutative operator and folds two constants. Both keep the value, so an operator is right
as soon as its rules are (`makes_direct`).
-/

namespace Brass.Verify.Bv

open Brass.Util BVContext

def binaryNode (op : BVOp) (w a b : Nat) : BVNode := { op := op, width := w, a := a, b := b }

variable {ctx : BVContext} {op : BVOp} {w aw bw a b : Nat} {va vb vc : U64}
  {g : List U64 → BitVec w}

/-! ## Commutative operators -/

theorem evalOp_comm (hc : isCommutative op = true) (h : aw ≤ 64) (ha : Fits aw va)
    (hb : Fits aw vb) :
    evalOp (binaryNode op w b a) aw aw vb va vc = evalOp (binaryNode op w a b) aw aw va vb vc := by
  cases op <;> first | exact absurd hc (by decide) | simp only [evalOp, binaryNode]
  case and => rw [BitVec.and_comm vb va]
  case or => rw [BitVec.or_comm vb va]
  case xor => rw [BitVec.xor_comm vb va]
  case add => rw [BitVec.add_comm vb va]
  case mul => rw [BitVec.mul_comm vb va]
  case eq => rw [Bool.beq_comm]
  case ne => rw [bne, Bool.beq_comm, bne]
  case saddOvf =>
    rw [BitVec.add_comm vb va]
    congr 1
    rw [decide_eq_decide]
    constructor <;> rintro (⟨h₁, h₂, h₃⟩ | ⟨h₁, h₂, h₃⟩) <;> simp [h₁, h₂, h₃]
  case smulOvf =>
    rw [Int.mul_comm (signExtendBits vb aw)]
    congr 2
    rw [Bool.eq_iff_iff, mulS64Overflow_iff, mulS64Overflow_iff, Int.mul_comm]
  case uaddOvf =>
    congr 1
    rw [decide_eq_decide, carry_iff h hb ha, carry_iff h ha hb, Nat.add_comm]
  case umulOvf =>
    rw [BitVec.mul_comm vb va]
    congr 2
    rw [Bool.eq_iff_iff, mulU64Overflow_iff, mulU64Overflow_iff, Nat.mul_comm]

/-- The operators that `make_binary` handles itself. -/
def isDirect (op : BVOp) : Bool :=
  op == .eq || op == .ult || op == .slt || op == .uaddOvf || op == .usubOvf || op == .umulOvf ||
    op == .saddOvf || op == .ssubOvf || op == .smulOvf || isArith op || isShift op

theorem ne_of_isDirect (hd : isDirect op = true) : op ≠ .const ∧ op ≠ .var ∧ op ≠ .ite := by
  cases op <;> first | exact absurd hd (by decide) | decide

theorem evalNode_binary (hwf : ctx.WF) (hc : op ≠ .const) (hv : op ≠ .var)
    (ha : a < ctx.nodes.length) (hb : b < ctx.nodes.length) (vars : List U64) :
    ctx.evalNode vars (binaryNode op w a b) = evalOp (binaryNode op w a b) (ctx.width a)
      (ctx.width b) (ctx.val vars a) (ctx.val vars b) (ctx.val vars 0) :=
  hwf.evalNode_eq (n := binaryNode op w a b) hc hv ha hb hwf.nonempty

theorem evalNode_comm (hwf : ctx.WF) (hd : isDirect op = true) (hc : isCommutative op = true)
    (ha : ctx.Has aw a) (hb : ctx.Has aw b) (vars : List U64) :
    ctx.evalNode vars (binaryNode op w b a) = ctx.evalNode vars (binaryNode op w a b) := by
  obtain ⟨hconst, hvar, -⟩ := ne_of_isDirect hd
  rw [evalNode_binary hwf hconst hvar hb.1 ha.1, evalNode_binary hwf hconst hvar ha.1 hb.1, ha.2,
    hb.2]
  exact evalOp_comm hc (hwf.w_le ha) (hwf.fits ha vars) (hwf.fits hb vars)

/-! ## Constants -/

theorem evalOp_third (hite : op ≠ .ite) (va vb vc vc' : U64) :
    evalOp (binaryNode op w a b) aw bw va vb vc = evalOp (binaryNode op w a b) aw bw va vb vc' := by
  cases op <;> first | exact absurd rfl hite | rfl

theorem fold_eq (hwf : ctx.WF) (hd : isDirect op = true) (ha : a < ctx.nodes.length)
    (hb : b < ctx.nodes.length) (hca : (ctx.node a).op = .const) (hcb : (ctx.node b).op = .const)
    (vars : List U64) :
    evalNodeConcrete ctx.nodes (binaryNode op w a b) (ctx.node a).imm (ctx.node b).imm 0 =
      ctx.evalNode vars (binaryNode op w a b) := by
  obtain ⟨hconst, hvar, hite⟩ := ne_of_isDirect hd
  have hva := (hwf.const_node (has_width ha) hca).2 vars
  have hvb := (hwf.const_node (has_width hb) hcb).2 vars
  unfold BVContext.evalNode evalWith
  have hop : (binaryNode op w a b).op = op := rfl
  rw [hop]
  split
  · contradiction
  · contradiction
  · show evalNodeConcrete _ _ _ _ _ = evalNodeConcrete _ _ (ctx.val vars a) (ctx.val vars b) _
    rw [hva, hvb]
    exact evalOp_third hite _ _ _ _

/-! ## The frame -/

/-- The operands in the order in which the rules see them. -/
def orient (ctx : BVContext) (op : BVOp) (a b : Nat) : Nat × Nat :=
  if swapOperands ctx op a b then (b, a) else (a, b)

theorem makeBinary_eq (hd : isDirect op = true) (hw : w ≠ 0) : makeBinary ctx op a b w =
      if (ctx.node (orient ctx op a b).1).op = .const ∧
          (ctx.node (orient ctx op a b).2).op = .const then
        Make.const (evalNodeConcrete ctx.nodes
          (binaryNode op w (orient ctx op a b).1 (orient ctx op a b).2)
          (ctx.node (orient ctx op a b).1).imm (ctx.node (orient ctx op a b).2).imm 0) w
      else simplifyBinary ctx op (orient ctx op a b).1 (orient ctx op a b).2 w
        (widthMask (ctx.width a)) := by
  unfold makeBinary
  dsimp only
  rw [if_pos hw]
  cases op <;> first | exact absurd hd (by decide) | rfl

theorem orient_perm (ctx : BVContext) (op : BVOp) (a b : Nat) :
    ((orient ctx op a b).1 = a ∧ (orient ctx op a b).2 = b) ∨
      (isCommutative op = true ∧ (orient ctx op a b).1 = b ∧ (orient ctx op a b).2 = a) := by
  unfold orient
  split
  · rename_i hs
    unfold swapOperands at hs
    rw [Bool.and_eq_true] at hs
    exact .inr ⟨hs.1, rfl, rfl⟩
  · exact .inl ⟨rfl, rfl⟩

structure Operands (ctx : BVContext) (op : BVOp) (a b a' b' : Nat) : Prop where
  perm : (a' = a ∧ b' = b) ∨ (isCommutative op = true ∧ a' = b ∧ b' = a)
  notBoth : (ctx.node a').op = .const → (ctx.node b').op ≠ .const
  /-- A constant operand of a commutative operator is the second one. -/
  right : isCommutative op = true → (ctx.node a').op ≠ .const

theorem orient_operands (hne : ¬((ctx.node (orient ctx op a b).1).op = .const ∧
      (ctx.node (orient ctx op a b).2).op = .const)) :
    Operands ctx op a b (orient ctx op a b).1 (orient ctx op a b).2 := by
  refine ⟨orient_perm ctx op a b, fun h₁ h₂ => hne ⟨h₁, h₂⟩, fun hcomm hconst => ?_⟩
  unfold orient at hne hconst
  split at hne
  · rename_i hs
    rw [if_pos hs] at hconst
    have ha : (ctx.node a).op ≠ .const := fun ha => hne ⟨hconst, ha⟩
    replace hconst : (ctx.node b).op = .const := hconst
    simp [swapOperands, hconst, ha] at hs
  · rename_i hs
    rw [if_neg hs] at hconst
    have hb : (ctx.node b).op ≠ .const := fun hb => hne ⟨hconst, hb⟩
    replace hconst : (ctx.node a).op = .const := hconst
    simp [swapOperands, hcomm, hconst, hb] at hs

/-- A direct operator is right as soon as its rules are. -/
theorem makes_direct (hwf : ctx.WF) (hd : isDirect op = true)
    (hn : ctx.Legal (binaryNode op w a b)) (ha : a < ctx.nodes.length) (hb : b < ctx.nodes.length)
    (hcomm : isCommutative op = true → ctx.width b = ctx.width a)
    (hrules : ∀ a' b', Operands ctx op a b a' b' → Makes
      (simplifyBinary ctx op a' b' w (widthMask (ctx.width a))) ctx w
      (fun vars => cut w (ctx.evalNode vars (binaryNode op w a' b')))) :
    Makes (Make.binary op a b w) ctx w
      (fun vars => cut w (ctx.evalNode vars (binaryNode op w a b))) := by
  have hw : w ≠ 0 := Nat.pos_iff_ne_zero.mp hn.pos
  apply makes_binary
  rw [makeBinary_eq hd hw]
  have hperm := orient_perm ctx op a b
  -- The exchange of the operands does not change the value.
  have hpair : ∀ vars, ctx.evalNode vars
      (binaryNode op w (orient ctx op a b).1 (orient ctx op a b).2) =
        ctx.evalNode vars (binaryNode op w a b) := by
    intro vars
    rcases hperm with ⟨h₁, h₂⟩ | ⟨hc, h₁, h₂⟩ <;> rw [h₁, h₂]
    exact evalNode_comm hwf hd hc (has_width ha) ⟨hb, hcomm hc⟩ vars
  have hlt : (orient ctx op a b).1 < ctx.nodes.length ∧
      (orient ctx op a b).2 < ctx.nodes.length := by
    rcases hperm with ⟨h₁, h₂⟩ | ⟨-, h₁, h₂⟩ <;> rw [h₁, h₂]
    · exact ⟨ha, hb⟩
    · exact ⟨hb, ha⟩
  split
  · rename_i hconst
    refine makes_const hwf hn.pos hn.le (fun vars => ?_)
    rw [fold_eq hwf hd hlt.1 hlt.2 hconst.1 hconst.2 vars, hpair]
  · rename_i hne
    refine (hrules _ _ (orient_operands hne)).congr (fun vars => ?_)
    rw [hpair]

/-! ## Operators by kind -/

theorem legal_arith (hwf : ctx.WF) (ho : isArith op = true) (ha : ctx.Has w a) (hb : ctx.Has w b) :
    ctx.Legal (binaryNode op w a b) := by
  refine ⟨.inr (.inr ⟨ha.1, hb.1, hwf.nonempty⟩), ?_, hwf.w_pos ha, hwf.w_le ha⟩
  cases op <;> first | exact absurd ho (by decide) | exact ⟨ha.2, hb.2⟩

theorem bv_binary_arith (hwf : ctx.WF) (ho : isArith op = true) (ha : ctx.Has w a)
    (hb : ctx.Has w b) (vars : List U64) :
    cut w (ctx.evalNode vars (binaryNode op w a b)) =
      arith op (ctx.bv vars w a) (ctx.bv vars w b) := by
  have hne : op ≠ .const ∧ op ≠ .var := by
    cases op <;> first | exact absurd ho (by decide) | decide
  rw [evalNode_binary hwf hne.1 hne.2 ha.1 hb.1,
    evalOp_arith (n := binaryNode op w a b) (w := w) ho rfl (hwf.w_pos ha) (hwf.w_le ha) (hwf.fits ha vars)
      (hwf.fits hb vars), cut_lift (hwf.w_le ha)]
  rfl

theorem isDirect_of_isArith (ho : isArith op = true) : isDirect op = true := by
  cases op <;> first | exact absurd ho (by decide) | rfl

theorem Operands.has {a' b' : Nat} (h : Operands ctx op a b a' b') (ha : ctx.Has w a)
    (hb : ctx.Has w b) : ctx.Has w a' ∧ ctx.Has w b' := by
  rcases h.perm with ⟨rfl, rfl⟩ | ⟨-, rfl, rfl⟩
  · exact ⟨ha, hb⟩
  · exact ⟨hb, ha⟩

theorem makes_arith (hwf : ctx.WF) (ho : isArith op = true) (ha : ctx.Has w a) (hb : ctx.Has w b)
    (hrules : ∀ a' b', ctx.Has w a' → ctx.Has w b' → Operands ctx op a b a' b' →
      Makes (simplifyBinary ctx op a' b' w (widthMask w)) ctx w
        (fun vars => arith op (ctx.bv vars w a') (ctx.bv vars w b'))) :
    Makes (Make.binary op a b w) ctx w
      (fun vars => arith op (ctx.bv vars w a) (ctx.bv vars w b)) := by
  refine Makes.congr (makes_direct hwf (isDirect_of_isArith ho) (legal_arith hwf ho ha hb) ha.1 hb.1
    (fun _ => by rw [ha.2, hb.2]) (fun a' b' hops => ?_)) (bv_binary_arith hwf ho ha hb)
  obtain ⟨ha', hb'⟩ := hops.has ha hb
  rw [ha.2]
  exact (hrules a' b' ha' hb' hops).congr (fun vars => (bv_binary_arith hwf ho ha' hb' vars).symm)

theorem makes_orIntern {rules : Option (Make Nat)} (hwf : ctx.WF)
    (hn : ctx.Legal (binaryNode op w a b))
    (hg : ∀ vars, cut w (ctx.evalNode vars (binaryNode op w a b)) = g vars)
    (hrules : ∀ p, rules = some p → Makes p ctx w g) : Makes (orIntern rules op a b w) ctx w g := by
  unfold orIntern
  split
  · exact hrules _ rfl
  · exact makes_intern hwf hn rfl hg

theorem makes_arith_rules {rules : Option (Make Nat)} (hwf : ctx.WF) (ho : isArith op = true)
    (ha : ctx.Has w a) (hb : ctx.Has w b)
    (hrules : ∀ p, rules = some p →
      Makes p ctx w (fun vars => arith op (ctx.bv vars w a) (ctx.bv vars w b))) :
    Makes (orIntern rules op a b w) ctx w
      (fun vars => arith op (ctx.bv vars w a) (ctx.bv vars w b)) :=
  makes_orIntern hwf (legal_arith hwf ho ha hb) (bv_binary_arith hwf ho ha hb) hrules

section

variable (hwf : ctx.WF) (ho : isShift op = true) (ha : ctx.Has w a) (hb : b < ctx.nodes.length)
include hwf ho ha hb

theorem legal_shift : ctx.Legal (binaryNode op w a b) := by
  refine ⟨.inr (.inr ⟨ha.1, hb, hwf.nonempty⟩), ?_, hwf.w_pos ha, hwf.w_le ha⟩
  cases op <;> first | exact absurd ho (by decide) | exact ha.2

theorem bv_binary_shift (vars : List U64) : cut w (ctx.evalNode vars (binaryNode op w a b)) =
      shift op (ctx.bv vars w a) (shiftAmount w (ctx.val vars b)) := by
  have hne : op ≠ .const ∧ op ≠ .var := by
    cases op <;> first | exact absurd ho (by decide) | decide
  rw [evalNode_binary hwf hne.1 hne.2 ha.1 hb,
    evalOp_shift (n := binaryNode op w a b) (w := w) ho rfl (hwf.w_pos ha) (hwf.w_le ha) (hwf.fits ha vars),
    cut_lift (hwf.w_le ha)]
  rfl

theorem makes_shift (hrules : ((ctx.node a).op = .const → (ctx.node b).op ≠ .const) →
      Makes (simplifyBinary ctx op a b w (widthMask w)) ctx w
        (fun vars => shift op (ctx.bv vars w a) (shiftAmount w (ctx.val vars b)))) :
    Makes (Make.binary op a b w) ctx w
      (fun vars => shift op (ctx.bv vars w a) (shiftAmount w (ctx.val vars b))) := by
  have hd : isDirect op = true := by
    cases op <;> first | exact absurd ho (by decide) | rfl
  have hnc : isCommutative op = false := by
    cases op <;> first | exact absurd ho (by decide) | rfl
  refine Makes.congr (makes_direct hwf hd (legal_shift hwf ho ha hb) ha.1 hb
    (fun hc => by rw [hnc] at hc; cases hc) (fun a' b' hops => ?_)) (bv_binary_shift hwf ho ha hb)
  obtain ⟨rfl, rfl⟩ | ⟨hc, -⟩ := hops.perm
  · rw [ha.2]
    exact (hrules hops.notBoth).congr (fun vars => (bv_binary_shift hwf ho ha hb vars).symm)
  · rw [hnc] at hc
    cases hc

theorem makes_shift_rules {rules : Option (Make Nat)} (hrules : ∀ p, rules = some p → Makes p ctx w
      (fun vars => shift op (ctx.bv vars w a) (shiftAmount w (ctx.val vars b)))) :
    Makes (orIntern rules op a b w) ctx w
      (fun vars => shift op (ctx.bv vars w a) (shiftAmount w (ctx.val vars b))) :=
  makes_orIntern hwf (legal_shift hwf ho ha hb) (bv_binary_shift hwf ho ha hb) hrules

end

end Brass.Verify.Bv
