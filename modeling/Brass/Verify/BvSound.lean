import Brass.Verify.BvDivide

/-!
# The simplifier is sound

A run is a sequence of calls of the public constructors, from the table that the constructor
of `BVContext` makes. In the table that a run reaches, every node that it returned has the
value of the operator on the values of the operands (`run_right`), provided that no call
divided by a constant for which there are no magic constants. Without that condition it fails
(`run_magicMissing`).
-/

namespace Brass.Verify.Bv

open Brass.Util BVContext

variable {ctx ctx' : BVContext} {op : BVOp} {w a b : Nat}

/-! ## The calls of the public interface -/

def resultWidth (ctx : BVContext) (op : BVOp) (a : Nat) : Nat :=
  if isPred op then 1 else ctx.width a

/-- The node that stands for the call: its operator on its operands. -/
def Call.node (ctx : BVContext) : Call → BVNode
  | .extract a hi lo =>
    { op := .extract, width := hi - lo + 1, a := a, imm := BitVec.ofNat 64 hi, extra := lo }
  | .concat hi lo => { op := .concat, width := ctx.width hi + ctx.width lo, a := hi, b := lo }
  | .zext a k => { op := .zext, width := ctx.width a + k, a := a, extra := k }
  | .sext a k => { op := .sext, width := ctx.width a + k, a := a, extra := k }
  | .unary op a _ => unaryNode op (ctx.width a) a
  | .binary op a b _ => binaryNode op (resultWidth ctx op a) a b
  | .ite c t f => { op := .ite, width := ctx.width t, a := c, b := t, c := f }

/-- The widths that an operator expects. The width of the result may be left out (0), and a
shift takes an amount of any width. -/
def Call.Legal (ctx : BVContext) : Call → Prop
  | .extract a hi lo => a < ctx.nodes.length ∧ lo ≤ hi ∧ hi < ctx.width a
  | .concat hi lo =>
    hi < ctx.nodes.length ∧ lo < ctx.nodes.length ∧ ctx.width hi + ctx.width lo ≤ 64
  | .zext a k | .sext a k => a < ctx.nodes.length ∧ ctx.width a + k ≤ 64
  | .unary op a k =>
    a < ctx.nodes.length ∧ isUnaryOp op = true ∧ (k = 0 ∨ k = ctx.width a)
  | .binary op a b k =>
    a < ctx.nodes.length ∧ b < ctx.nodes.length ∧
      (isArith op = true ∨ isShift op = true ∨ isPred op = true) ∧
      (isShift op = true ∨ ctx.width b = ctx.width a) ∧
      (k = resultWidth ctx op a ∨ (k = 0 ∧ ctx.width b ≤ ctx.width a))
  | .ite c t f =>
    c < ctx.nodes.length ∧ t < ctx.nodes.length ∧ f < ctx.nodes.length ∧ ctx.width c = 1 ∧
      ctx.width f = ctx.width t

instance (ctx : BVContext) : (q : Call) → Decidable (q.Legal ctx)
  | .extract a hi lo => inferInstanceAs (Decidable (a < ctx.nodes.length ∧ lo ≤ hi ∧ hi < ctx.width a))
  | .concat hi lo => inferInstanceAs (Decidable (hi < ctx.nodes.length ∧ lo < ctx.nodes.length ∧
      ctx.width hi + ctx.width lo ≤ 64))
  | .zext a k | .sext a k => inferInstanceAs (Decidable (a < ctx.nodes.length ∧ ctx.width a + k ≤ 64))
  | .unary op a k => inferInstanceAs (Decidable (a < ctx.nodes.length ∧ isUnaryOp op = true ∧
      (k = 0 ∨ k = ctx.width a)))
  | .binary op a b k => inferInstanceAs (Decidable (a < ctx.nodes.length ∧ b < ctx.nodes.length ∧
      (isArith op = true ∨ isShift op = true ∨ isPred op = true) ∧
      (isShift op = true ∨ ctx.width b = ctx.width a) ∧
      (k = resultWidth ctx op a ∨ (k = 0 ∧ ctx.width b ≤ ctx.width a))))
  | .ite c t f => inferInstanceAs (Decidable (c < ctx.nodes.length ∧ t < ctx.nodes.length ∧
      f < ctx.nodes.length ∧ ctx.width c = 1 ∧ ctx.width f = ctx.width t))

/-- The call divides by a constant for which there are no magic constants. -/
def Call.missesMagic (ctx : BVContext) : Call → Bool
  | .binary op a b _ => magicMissing ctx op a b (ctx.width a)
  | _ => false

/-! ## One call -/

/-- The program makes the node of the call. -/
def MakesNode (p : Make Nat) (ctx : BVContext) (n : BVNode) : Prop :=
  Makes p ctx n.width (fun vars => cut n.width (ctx.evalNode vars n))

theorem makeUnary_zero (hw : ctx.width a ≠ 0) :
    makeUnary ctx op a 0 = makeUnary ctx op a (ctx.width a) := by
  unfold makeUnary
  simp only [ne_eq, not_true_eq_false, if_false, hw, not_false_eq_true, if_true]
  rfl

theorem makesNode_unary (hwf : ctx.WF) (ha : a < ctx.nodes.length) (ho : isUnaryOp op = true)
    {k : Nat} (hk : k = 0 ∨ k = ctx.width a) :
    MakesNode (Make.unary op a k) ctx (unaryNode op (ctx.width a) a) := by
  have hha := has_width ha
  have hmake : MakesNode (Make.unary op a (ctx.width a)) ctx (unaryNode op (ctx.width a) a) := by
    by_cases hneg : op = .neg
    · subst hneg
      exact Makes.congr (makes_neg hwf hha) (fun vars => (bv_unary_neg hwf hha vars).symm)
    · exact makes_unaryOp hwf ho hneg hha
  rcases hk with rfl | rfl
  · refine Makes.call_congr (q := .unary op a (ctx.width a)) rfl rfl ?_ hmake
    exact (makeUnary_zero (Nat.pos_iff_ne_zero.mp (hwf.pos a ha))).symm
  · exact hmake

theorem makeBinary_zero (hw : resultWidth ctx op a ≠ 0) (hb : ctx.width b ≤ ctx.width a) :
    makeBinary ctx op a b 0 = makeBinary ctx op a b (resultWidth ctx op a) := by
  have hwidth : (if isPred op then 1 else max (ctx.width a) (ctx.width b)) =
      resultWidth ctx op a := by
    unfold resultWidth
    rw [Nat.max_eq_left hb]
  unfold makeBinary
  simp only [ne_eq, not_true_eq_false, if_false, hw, not_false_eq_true, if_true, hwidth]

theorem makesNode_overflow (hwf : ctx.WF) (hd : isDirect op = true) (hp : isPred op = true)
    (hc : isCompare op = false) (ha : ctx.Has w a) (hb : ctx.Has w b) :
    MakesNode (Make.binary op a b 1) ctx (binaryNode op 1 a b) := by
  refine makes_direct hwf hd (legal_pred hwf hp ha hb) ha.1 hb.1 (fun _ => by rw [ha.2, hb.2])
    (fun a' b' hops => ?_)
  obtain ⟨ha', hb'⟩ := hops.has ha hb
  have hsimp : ∀ m, simplifyBinary ctx op a' b' 1 m = internBinary op a' b' 1 := by
    intro m
    cases op <;> first | exact absurd hp (by decide) | exact absurd hc (by decide) |
      exact absurd hd (by decide) | rfl
  rw [hsimp]
  exact makes_intern hwf (legal_pred hwf hp ha' hb') rfl (fun _ => rfl)

theorem makesNode_pred (hwf : ctx.WF) (hp : isPred op = true) (ha : ctx.Has w a)
    (hb : ctx.Has w b) : MakesNode (Make.binary op a b 1) ctx (binaryNode op 1 a b) := by
  by_cases hc : isCompare op = true
  · exact Makes.congr (makes_compare hc hwf ha hb)
      (fun vars => (bv_binary_compare hwf hc ha hb vars).symm)
  · by_cases hd : isDirect op = true
    · exact makesNode_overflow hwf hd hp (by simpa using hc) ha hb
    · obtain ⟨base, swap, neg, hvia⟩ : ∃ base swap neg, viaCompare op = some (base, swap, neg) := by
        cases op <;> first | exact absurd hp (by decide) | exact absurd rfl hd | exact ⟨_, _, _, rfl⟩
      exact Makes.congr (makes_viaCompare hvia hwf ha hb 1)
        (fun vars => (bv_binary_viaCompare hvia hwf ha hb vars).symm)

theorem makesNode_arith (hwf : ctx.WF) (ho : isArith op = true) (ha : ctx.Has w a)
    (hb : ctx.Has w b) (hmiss : magicMissing ctx op a b w = false) :
    MakesNode (Make.binary op a b w) ctx (binaryNode op w a b) := by
  refine Makes.congr ?_ (fun vars => (bv_binary_arith hwf ho ha hb vars).symm)
  by_cases hlow : isLowBitsOp op = true
  · exact makes_lowBits hlow hwf ha hb
  · refine makes_division ?_ hwf ha hb hmiss
    cases op <;> first | exact absurd ho (by decide) | exact absurd rfl hlow | simp

theorem makesNode_binary (hwf : ctx.WF) {k : Nat} (hlegal : (Call.binary op a b k).Legal ctx)
    (hmiss : magicMissing ctx op a b (ctx.width a) = false) :
    MakesNode (Make.binary op a b k) ctx (binaryNode op (resultWidth ctx op a) a b) := by
  obtain ⟨ha, hb, hkind, hwidth, hk⟩ := hlegal
  have hha := has_width ha
  have hpos := hwf.pos a ha
  have hmake : MakesNode (Make.binary op a b (resultWidth ctx op a)) ctx
      (binaryNode op (resultWidth ctx op a) a b) := by
    unfold resultWidth
    by_cases hp : isPred op = true
    · rw [if_pos hp]
      have hns : isShift op ≠ true := by
        cases op <;> first | exact absurd hp (by decide) | decide
      exact makesNode_pred hwf hp hha ⟨hb, hwidth.resolve_left hns⟩
    · rw [if_neg hp]
      rcases hkind with ho | ho | ho
      · have hns : isShift op ≠ true := by
          cases op <;> first | exact absurd ho (by decide) | decide
        exact makesNode_arith hwf ho hha ⟨hb, hwidth.resolve_left hns⟩ hmiss
      · exact Makes.congr (makes_shiftOp hwf ho hha hb)
          (fun vars => (bv_binary_shift hwf ho hha hb vars).symm)
      · exact absurd ho hp
  rcases hk with rfl | ⟨rfl, hle⟩
  · exact hmake
  · refine Makes.call_congr (q := .binary op a b (resultWidth ctx op a)) rfl rfl ?_ hmake
    refine (makeBinary_zero ?_ hle).symm
    unfold resultWidth
    split <;> omega

/-- Every constructor makes the node of its call. -/
theorem makesNode_call (hwf : ctx.WF) {q : Call} (hlegal : q.Legal ctx)
    (hmiss : q.missesMagic ctx = false) : MakesNode (Prog.callOf q) ctx (q.node ctx) := by
  cases q with
  | extract a hi lo =>
    obtain ⟨ha, hlo, hhi⟩ := hlegal
    have hle := hwf.le a ha
    exact Makes.congr (makes_extractOp hwf (has_width ha) hlo hhi)
      (fun vars => (evalNode_extract hwf (has_width ha) (by omega) _ vars).symm)
  | concat hi lo =>
    obtain ⟨ha, hb, hle⟩ := hlegal
    exact Makes.congr (makes_concatOp hwf (has_width ha) (has_width hb) rfl hle)
      (fun vars => (evalNode_concat hwf ha (has_width hb) hle vars).symm)
  | zext a k =>
    obtain ⟨ha, hle⟩ := hlegal
    refine Makes.congr (makes_zextOp hwf (has_width ha) rfl hle) (fun vars => ?_)
    rw [bv_eq_cut]
    exact congrArg (cut _) (evalNode_zext hwf (has_width ha) rfl hle vars).symm
  | sext a k =>
    obtain ⟨ha, hle⟩ := hlegal
    exact Makes.congr (makes_sextOp hwf (has_width ha) rfl hle)
      (fun vars => (evalNode_sext hwf (has_width ha) rfl hle vars).symm)
  | unary op a k =>
    obtain ⟨ha, ho, hk⟩ := hlegal
    exact makesNode_unary hwf ha ho hk
  | binary op a b k => exact makesNode_binary hwf hlegal hmiss
  | ite c t f =>
    obtain ⟨hc, ht, hf, hwc, hwf'⟩ := hlegal
    exact Makes.congr (makes_iteOp hwf ⟨hc, hwc⟩ (has_width ht) ⟨hf, hwf'⟩)
      (fun vars => (evalNode_ite hwf ⟨hc, hwc⟩ (has_width ht) ⟨hf, hwf'⟩ vars).symm)

/-! ## Runs -/

inductive MakeOp where
  | const (val : U64) (width : Nat)
  | var (name : String) (width : Nat) (isFloat : Bool)
  | call (q : Call)
  deriving DecidableEq, Repr

namespace MakeOp

def apply (fuel : Nat) (ctx : BVContext) : MakeOp → Option (Nat × BVContext)
  | const val width => some (ctx.makeConst val width)
  | var name width isFloat => some (ctx.makeVar name width isFloat)
  | call q => run fuel ctx q

/-- Widths are from 1 to 64, and those of the operands fit the operator. -/
def Legal (ctx : BVContext) : MakeOp → Prop
  | const _ width | var _ width _ => 0 < width ∧ width ≤ 64
  | call q => q.Legal ctx

instance (ctx : BVContext) : (op : MakeOp) → Decidable (op.Legal ctx)
  | const _ width | var _ width _ => inferInstanceAs (Decidable (0 < width ∧ width ≤ 64))
  | call q => inferInstanceAs (Decidable (q.Legal ctx))

def missesMagic (ctx : BVContext) : MakeOp → Bool
  | call q => q.missesMagic ctx
  | _ => false

/-- The node `id` has the value of the constructor: the constant, the value of a variable, or
the operator on the values of the operands. -/
def Right (ctx : BVContext) (id : Nat) : MakeOp → Prop
  | const val width => ∀ vars, evalConcrete ctx.nodes id vars = val &&& widthMask width
  | var _ width _ =>
    ∃ i, ∀ vars, evalConcrete ctx.nodes id vars = vars.getD i 0 &&& widthMask width
  | call q => ∀ vars, evalConcrete ctx.nodes id vars =
      evalNodeConcrete ctx.nodes (q.node ctx) (evalConcrete ctx.nodes (q.node ctx).a vars)
        (evalConcrete ctx.nodes (q.node ctx).b vars) (evalConcrete ctx.nodes (q.node ctx).c vars)

end MakeOp

/-- The calls that were made, with the nodes that they returned, and the table after them.
All calls satisfy `P`. -/
inductive Run (P : BVContext → MakeOp → Prop) : List (MakeOp × Nat) → BVContext → Prop
  | init : Run P [] BVContext.init
  | step {log : List (MakeOp × Nat)} {ctx ctx' : BVContext} {op : MakeOp} {fuel id : Nat} :
      Run P log ctx → P ctx op → op.apply fuel ctx = some (id, ctx') → Run P (log ++ [(op, id)]) ctx'

section RunOps

variable (P : BVContext → MakeOp → Prop) [∀ ctx op, Decidable (P ctx op)]

/-- The run of a list of calls, if all of them satisfy `P` and return. -/
def runOps (fuel : Nat) :
    List MakeOp → List (MakeOp × Nat) → BVContext → Option (List (MakeOp × Nat) × BVContext)
  | [], log, ctx => some (log, ctx)
  | op :: ops, log, ctx =>
    if P ctx op then
      (op.apply fuel ctx).bind (fun r => runOps fuel ops (log ++ [(op, r.1)]) r.2)
    else none

theorem Run.runOps {P : BVContext → MakeOp → Prop} [∀ ctx op, Decidable (P ctx op)] {fuel : Nat}
    (ops : List MakeOp) {log log' : List (MakeOp × Nat)} (h : Run P log ctx)
    (hr : runOps P fuel ops log ctx = some (log', ctx')) : Run P log' ctx' := by
  induction ops generalizing log ctx with
  | nil =>
    cases hr
    exact h
  | cons op ops ih =>
    rw [Bv.runOps] at hr
    split at hr
    · rename_i hP
      obtain ⟨r, happly, hr⟩ := Option.bind_eq_some_iff.mp hr
      exact ih (h.step hP happly) hr
    · cases hr

end RunOps

/-! ## Later tables -/

theorem Call.Legal.mono {q : Call} (h : q.Legal ctx) (hext : ctx.Extends ctx') : q.Legal ctx' := by
  cases q with
  | extract a hi lo =>
    obtain ⟨ha, h'⟩ := h
    refine ⟨hext.lt ha, ?_⟩
    rwa [hext.width ha]
  | concat hi lo =>
    obtain ⟨ha, hb, h'⟩ := h
    refine ⟨hext.lt ha, hext.lt hb, ?_⟩
    rwa [hext.width ha, hext.width hb]
  | zext a k =>
    obtain ⟨ha, h'⟩ := h
    refine ⟨hext.lt ha, ?_⟩
    rwa [hext.width ha]
  | sext a k =>
    obtain ⟨ha, h'⟩ := h
    refine ⟨hext.lt ha, ?_⟩
    rwa [hext.width ha]
  | unary op a k =>
    obtain ⟨ha, h'⟩ := h
    refine ⟨hext.lt ha, ?_⟩
    rwa [hext.width ha]
  | binary op a b k =>
    obtain ⟨ha, hb, h'⟩ := h
    refine ⟨hext.lt ha, hext.lt hb, ?_⟩
    unfold resultWidth at h' ⊢
    rwa [hext.width ha, hext.width hb]
  | ite c t f =>
    obtain ⟨hc, ht, hf, h'⟩ := h
    refine ⟨hext.lt hc, hext.lt ht, hext.lt hf, ?_⟩
    rwa [hext.width hc, hext.width ht, hext.width hf]

theorem Call.node_eq {q : Call} (h : q.Legal ctx) (hext : ctx.Extends ctx') :
    q.node ctx' = q.node ctx := by
  cases q with
  | extract a hi lo => rfl
  | concat hi lo => simp only [Call.node, hext.width h.1, hext.width h.2.1]
  | zext a k => simp only [Call.node, hext.width h.1]
  | sext a k => simp only [Call.node, hext.width h.1]
  | unary op a k => simp only [Call.node, hext.width h.1]
  | binary op a b k => simp only [Call.node, resultWidth, hext.width h.1]
  | ite c t f => simp only [Call.node, hext.width h.2.1]

/-- The operands of a legal call exist, and its node is an operator. -/
theorem Call.Legal.operator {q : Call} (hwf : ctx.WF) (h : q.Legal ctx) :
    (q.node ctx).op ≠ .const ∧ (q.node ctx).op ≠ .var ∧ (q.node ctx).a < ctx.nodes.length ∧
      (q.node ctx).b < ctx.nodes.length ∧ (q.node ctx).c < ctx.nodes.length := by
  have h0 := hwf.nonempty
  cases q with
  | extract a hi lo => exact ⟨nofun, nofun, h.1, h0, h0⟩
  | concat hi lo => exact ⟨nofun, nofun, h.1, h.2.1, h0⟩
  | zext a k => exact ⟨nofun, nofun, h.1, h0, h0⟩
  | sext a k => exact ⟨nofun, nofun, h.1, h0, h0⟩
  | unary op a k =>
    refine ⟨?_, ?_, h.1, h0, h0⟩
    · rintro rfl
      exact absurd h.2.1 (by decide)
    · rintro rfl
      exact absurd h.2.1 (by decide)
  | binary op a b k =>
    refine ⟨?_, ?_, h.1, h.2.1, h0⟩
    · rintro rfl
      exact absurd h.2.2.1 (by decide)
    · rintro rfl
      exact absurd h.2.2.1 (by decide)
  | ite c t f => exact ⟨nofun, nofun, h.1, h.2.1, h.2.2.1⟩

theorem BVContext.Extends.evalNode {n : BVNode} (hext : ctx.Extends ctx') (hwf' : ctx'.WF)
    (hn : n.Before ctx.nodes.length) (vars : List U64) :
    ctx'.evalNode vars n = ctx.evalNode vars n := by
  obtain ⟨more, hmore⟩ := hext.nodes
  unfold BVContext.evalNode
  rw [← hmore, evalWith_append hn]
  exact evalWith_congr hn (fun i hi => hext.val hwf'.ordered hi vars)

theorem right_call_iff {q : Call} {id : Nat} (hwf : ctx.WF) (h : q.Legal ctx) :
    (MakeOp.call q).Right ctx id ↔ ∀ vars, ctx.val vars id = ctx.evalNode vars (q.node ctx) := by
  obtain ⟨hc, hv, -⟩ := h.operator hwf
  have heq : ∀ vars, ctx.evalNode vars (q.node ctx) =
      evalNodeConcrete ctx.nodes (q.node ctx) (ctx.val vars (q.node ctx).a)
        (ctx.val vars (q.node ctx).b) (ctx.val vars (q.node ctx).c) := by
    intro vars
    unfold BVContext.evalNode evalWith
    split
    · contradiction
    · contradiction
    · rfl
  constructor
  · intro hr vars
    rw [heq]
    exact hr vars
  · intro hr vars
    have := hr vars
    rw [heq] at this
    exact this

theorem MakeOp.Legal.mono {op : MakeOp} (h : op.Legal ctx) (hext : ctx.Extends ctx') :
    op.Legal ctx' := by
  cases op with
  | const val width => exact h
  | var name width isFloat => exact h
  | call q => exact Call.Legal.mono h hext

theorem MakeOp.Right.mono {op : MakeOp} {id : Nat} (h : op.Right ctx id) (hlegal : op.Legal ctx)
    (hwf : ctx.WF) (hwf' : ctx'.WF) (hext : ctx.Extends ctx') (hid : id < ctx.nodes.length) :
    op.Right ctx' id := by
  have hval : ∀ vars, evalConcrete ctx'.nodes id vars = evalConcrete ctx.nodes id vars :=
    fun vars => hext.val hwf'.ordered hid vars
  cases op with
  | const val width =>
    intro vars
    rw [hval]
    exact h vars
  | var name width isFloat =>
    obtain ⟨i, hi⟩ := h
    refine ⟨i, fun vars => ?_⟩
    rw [hval]
    exact hi vars
  | call q =>
    have hq : q.Legal ctx := hlegal
    obtain ⟨-, -, ha, hb, hc⟩ := hq.operator hwf
    refine (right_call_iff hwf' (hq.mono hext)).mpr (fun vars => ?_)
    rw [Call.node_eq hq hext, hext.evalNode hwf' (.inr (.inr ⟨ha, hb, hc⟩))]
    exact (hval vars).trans ((right_call_iff hwf hq).mp h vars)

/-! ## One constructor -/

theorem init_wf : BVContext.init.WF := by
  have hnodes : BVContext.init.nodes = [{ op := .const, width := 1 }] := rfl
  have hzero : ∀ id < BVContext.init.nodes.length, id = 0 := by
    intro id hid
    rw [hnodes] at hid
    exact Nat.lt_one_iff.mp hid
  refine ⟨by rw [hnodes]; exact Nat.one_pos, ?_, ?_, ?_, ?_, rfl, ?_, ?_⟩
  · intro id n hn
    obtain rfl := hzero id (lt_of_getElem? hn)
    cases hn
    exact .inl rfl
  · intro id hid
    obtain rfl := hzero id hid
    exact Nat.one_pos
  · intro id hid
    obtain rfl := hzero id hid
    exact Nat.le_add_left 1 63
  · intro id hid
    obtain rfl := hzero id hid
    exact Nat.two_pos
  · intro id hid vars
    obtain rfl := hzero id hid
    exact constInterval_holds (w := 1) Nat.one_pos (Nat.le_add_left 1 63) 0
  · intro n id h
    have h' : Function.update (fun _ => none) { op := .const, width := 1 } (some 0) n = some id := h
    rw [Function.update_apply] at h'
    split at h'
    · rename_i heq
      cases h'
      rw [heq]
      rfl
    · cases h'

theorem BVContext.WF.with_vars (hwf : ctx.WF) (vs : List BVVarInfo) :
    ({ ctx with vars := vs } : BVContext).WF :=
  ⟨hwf.nonempty, hwf.ordered, hwf.pos, hwf.le, hwf.sorted, hwf.intervals, hwf.holds, hwf.memo⟩

/-- The call returned the node `id` and left the table `ctx'`. -/
structure MakeOp.Done (op : MakeOp) (ctx : BVContext) (id : Nat) (ctx' : BVContext) : Prop where
  ext : ctx.Extends ctx'
  wf : ctx'.WF
  lt : id < ctx'.nodes.length
  right : op.Right ctx' id

theorem Call.Legal.width {q : Call} (hwf : ctx.WF) (h : q.Legal ctx) :
    0 < (q.node ctx).width ∧ (q.node ctx).width ≤ 64 := by
  cases q with
  | extract a hi lo =>
    obtain ⟨ha, hlo, hhi⟩ := h
    have hle := hwf.le a ha
    exact ⟨Nat.succ_pos _, show hi - lo + 1 ≤ 64 by omega⟩
  | concat hi lo => exact ⟨Nat.add_pos_left (hwf.pos hi h.1) _, h.2.2⟩
  | zext a k => exact ⟨Nat.add_pos_left (hwf.pos a h.1) _, h.2⟩
  | sext a k => exact ⟨Nat.add_pos_left (hwf.pos a h.1) _, h.2⟩
  | unary op a k => exact ⟨hwf.pos a h.1, hwf.le a h.1⟩
  | binary op a b k =>
    show 0 < resultWidth ctx op a ∧ resultWidth ctx op a ≤ 64
    unfold resultWidth
    split
    · omega
    · exact ⟨hwf.pos a h.1, hwf.le a h.1⟩
  | ite c t f => exact ⟨hwf.pos t h.2.1, hwf.le t h.2.1⟩

theorem Call.Legal.evalNode_fits {q : Call} (hwf : ctx.WF) (h : q.Legal ctx) (vars : List U64) :
    Fits (q.node ctx).width (ctx.evalNode vars (q.node ctx)) := by
  obtain ⟨hc, hv, ha, hb, hc'⟩ := h.operator hwf
  obtain ⟨h0, hle⟩ := h.width hwf
  rw [hwf.evalNode_eq hc hv ha hb hc']
  exact fits_evalOp h0 hle

theorem done_const (hwf : ctx.WF) {width : Nat} (hw : 0 < width ∧ width ≤ 64) (val : U64) :
    (MakeOp.const val width).Done ctx (ctx.makeConst val width).1 (ctx.makeConst val width).2 := by
  obtain ⟨hext, hwf', hget, hval⟩ := hwf.intern (legal_const hw.1 hw.2 val)
  refine ⟨hext, hwf', lt_of_getElem? hget, fun vars => (hval vars).trans ?_⟩
  rw [evalNode_const rfl]
  exact (fits_and_widthMask hw.2 val).and_widthMask hw.2

theorem done_var (hwf : ctx.WF) {width : Nat} (hw : 0 < width ∧ width ≤ 64) (name : String)
    (isFloat : Bool) : (MakeOp.var name width isFloat).Done ctx
      (ctx.makeVar name width isFloat).1 (ctx.makeVar name width isFloat).2 := by
  have hlegal : ctx.Legal { op := .var, width := width, imm := BitVec.ofNat 64 ctx.vars.length } :=
    ⟨.inr (.inl rfl), trivial, hw.1, hw.2⟩
  obtain ⟨hext, hwf', hget, hval⟩ := hwf.intern hlegal
  refine ⟨⟨hext.nodes, hext.intervals⟩, hwf'.with_vars _, lt_of_getElem? hget, ?_⟩
  exact ⟨(BitVec.ofNat 64 ctx.vars.length).toNat, fun vars => (hval vars).trans (evalNode_var rfl)⟩

theorem done_call (hwf : ctx.WF) {q : Call} (hlegal : q.Legal ctx)
    (hmiss : q.missesMagic ctx = false) :
    Prog.Yields body (Prog.callOf q) ctx ((MakeOp.call q).Done ctx) := by
  refine (makesNode_call hwf hlegal hmiss).mono (fun id ctx' hm => ?_)
  refine ⟨hm.ext, hm.wf, hm.has.1, ?_⟩
  refine (right_call_iff hm.wf (hlegal.mono hm.ext)).mpr (fun vars => ?_)
  obtain ⟨-, -, ha, hb, hc⟩ := hlegal.operator hwf
  rw [Call.node_eq hlegal hm.ext, hm.ext.evalNode hm.wf (.inr (.inr ⟨ha, hb, hc⟩))]
  exact (hm.wf.fits hm.has vars).ext (hlegal.evalNode_fits hwf vars) (hm.bv vars)

/-- A legal constructor returns, and what it returns is right. -/
theorem MakeOp.done (hwf : ctx.WF) {op : MakeOp} (hlegal : op.Legal ctx)
    (hmiss : op.missesMagic ctx = false) :
    (∃ fuel id ctx', op.apply fuel ctx = some (id, ctx')) ∧
      ∀ fuel id ctx', op.apply fuel ctx = some (id, ctx') → op.Done ctx id ctx' := by
  cases op with
  | const val width =>
    refine ⟨⟨0, _, _, rfl⟩, fun fuel id ctx' h => ?_⟩
    have hd := done_const hwf hlegal val
    rwa [Option.some.inj h] at hd
  | var name width isFloat =>
    refine ⟨⟨0, _, _, rfl⟩, fun fuel id ctx' h => ?_⟩
    have hd := done_var hwf hlegal name isFloat
    rwa [Option.some.inj h] at hd
  | call q =>
    have hy := done_call hwf hlegal hmiss
    refine ⟨?_, fun fuel id ctx' h => ?_⟩
    · obtain ⟨fuel, id, ctx', hrun, -⟩ := hy.of_call
      exact ⟨fuel + 1, id, ctx', hrun⟩
    · have hcall : Prog.exec (Prog.runCall body fuel) (Prog.callOf q) ctx = some (id, ctx') := by
        show (Prog.runCall body fuel q ctx).bind _ = _
        rw [show Prog.runCall body fuel q ctx = some (id, ctx') from h]
        rfl
      exact hy.run_eq hcall

/-! ## Runs are right -/

theorem Run.invariant {log : List (MakeOp × Nat)}
    (h : Run (fun ctx op => op.Legal ctx ∧ op.missesMagic ctx = false) log ctx) :
    ctx.WF ∧ ∀ e ∈ log, e.2 < ctx.nodes.length ∧ e.1.Legal ctx ∧ e.1.Right ctx e.2 := by
  induction h with
  | init => exact ⟨init_wf, by simp⟩
  | @step log ctx ctx' op fuel id _ hP happly ih =>
    obtain ⟨hwf, hlog⟩ := ih
    have hd := (MakeOp.done hwf hP.1 hP.2).2 fuel id ctx' happly
    refine ⟨hd.wf, fun e he => ?_⟩
    rcases List.mem_append.mp he with he | he
    · obtain ⟨hlt, hl, hr⟩ := hlog e he
      exact ⟨hd.ext.lt hlt, hl.mono hd.ext, hr.mono hl hwf hd.wf hd.ext hlt⟩
    · obtain rfl := List.mem_singleton.mp he
      exact ⟨hd.lt, hP.1.mono hd.ext, hd.right⟩

/-- In every run in which no division by a constant misses its magic constants, every node
that a constructor returned has the value of its operator, and the next constructor
returns. -/
theorem run_right {log : List (MakeOp × Nat)}
    (h : Run (fun ctx op => op.Legal ctx ∧ op.missesMagic ctx = false) log ctx) :
    (∀ e ∈ log, e.1.Right ctx e.2) ∧
      ∀ op : MakeOp, op.Legal ctx → op.missesMagic ctx = false →
        ∃ fuel id ctx', op.apply fuel ctx = some (id, ctx') := by
  obtain ⟨hwf, hlog⟩ := h.invariant
  exact ⟨fun e he => (hlog e he).2.2, fun op hl hm => (MakeOp.done hwf hl hm).1⟩

def divideBy (d : U64) : List MakeOp :=
  [.var "x" 32 false, .const d 32, .call (.binary .udiv 1 2 32)]

theorem run_right_divideBy_seven :
    ∃ r, runOps (fun ctx op => op.Legal ctx ∧ op.missesMagic ctx = false) 30 (divideBy 7) []
        BVContext.init = some r ∧ r.1.length = 3 ∧ ∀ e ∈ r.1, e.1.Right r.2 e.2 := by
  have hrun : (runOps (fun ctx op => op.Legal ctx ∧ op.missesMagic ctx = false) 30 (divideBy 7) []
      BVContext.init).map (fun r => r.1.length) = some 3 := by decide +kernel
  obtain ⟨r, hr, hlen⟩ := Option.map_eq_some_iff.mp hrun
  exact ⟨r, hr, hlen, (run_right (Run.init.runOps _ hr)).1⟩

/-- There are no magic constants for 4294901759: the quotient becomes `x >> 1`. -/
theorem run_magicMissing :
    ¬ ∀ log ctx, Run (fun ctx op => op.Legal ctx) log ctx → ∀ e ∈ log, e.1.Right ctx e.2 := by
  intro hall
  have hrun : (runOps (fun ctx op => op.Legal ctx) 30 (divideBy 4294901759) []
      BVContext.init).map (fun r => (r.1[2]?, evalConcrete r.2.nodes 7 [100],
        evalNodeConcrete r.2.nodes (binaryNode .udiv (resultWidth r.2 .udiv 1) 1 2)
          (evalConcrete r.2.nodes 1 [100]) (evalConcrete r.2.nodes 2 [100])
          (evalConcrete r.2.nodes 0 [100]))) =
      some (some (.call (.binary .udiv 1 2 32), 7), 50, 0) := by decide +kernel
  obtain ⟨r, hr, heq⟩ := Option.map_eq_some_iff.mp hrun
  simp only [Prod.mk.injEq] at heq
  obtain ⟨hlast, h50, h0⟩ := heq
  have hright := hall _ _ (Run.init.runOps _ hr) _ (List.mem_of_getElem? hlast) [100]
  have : (50 : U64) = 0 := h50.symm.trans (hright.trans h0)
  exact absurd this (by decide)

end Brass.Verify.Bv
