import Brass.Verify.BvTable

/-!
# What a constructor returns

`Made ctx w g id ctx'`: from the table `ctx` the node `id` of width `w` was made, its value
is `g`, and the table `ctx'` extends `ctx`. The rules `made_pure`, `made_const`,
`made_intern` and `made_bind` prove it for the programs of the simplifying constructors.
-/

namespace Brass.Verify.Bv

open Brass.Util BVContext Prog

variable {ctx ctx' : BVContext} {w aw id a b : Nat} {n : BVNode}

/-! ## The values of the nodes of a table -/

namespace BVContext

section

variable (hwf : ctx.WF) (hid : ctx.Has w id)
include hwf hid

theorem WF.w_pos : 0 < w := hid.2 ▸ hwf.pos id hid.1

theorem WF.w_le : w ≤ 64 := hid.2 ▸ hwf.le id hid.1

theorem WF.const_node (hop : (ctx.node id).op = .const) :
    Fits w (ctx.node id).imm ∧ ∀ vars, ctx.val vars id = (ctx.node id).imm := by
  have hs := hwf.sorted id hid.1
  have hw : (ctx.node id).width = w := hid.2
  simp only [BVNode.Sorted, hop, hw] at hs
  refine ⟨hs, fun vars => ?_⟩
  rw [hwf.val_eq hid.1, evalNode_const hop, hw, hs.and_widthMask (hwf.w_le hid)]

theorem WF.bv_const (hop : (ctx.node id).op = .const)
    (vars : List U64) : ctx.bv vars w id = cut w (ctx.node id).imm := by
  rw [bv_eq_cut, (hwf.const_node hid hop).2]

end

section

variable (hwf : ctx.WF) (hid : ctx.Has w id)
include hwf hid

/-- What holds of every node but the constants and the variables. -/
theorem WF.op_node {op : BVOp} (hop : (ctx.node id).op = op) (hc : op ≠ .const) (hv : op ≠ .var) :
    ((ctx.node id).a < id ∧ (ctx.node id).b < id ∧ (ctx.node id).c < id) ∧
      id < ctx.nodes.length ∧ (ctx.node id).width = w ∧ (ctx.node id).Sorted ctx.width ∧
      ∀ vars, ctx.val vars id = evalOp (ctx.node id) (ctx.width (ctx.node id).a)
        (ctx.width (ctx.node id).b) (ctx.val vars (ctx.node id).a)
        (ctx.val vars (ctx.node id).b) (ctx.val vars (ctx.node id).c) :=
  ⟨hwf.typed.before hid.1 (hop ▸ hc) (hop ▸ hv), hid.1, hid.2, hwf.sorted id hid.1,
    hwf.typed.val_op hid.1 (hop ▸ hc) (hop ▸ hv)⟩

theorem WF.arith_node {op : BVOp} (hop : (ctx.node id).op = op) (ho : isArith op = true) :
    ctx.Has w (ctx.node id).a ∧ ctx.Has w (ctx.node id).b ∧ (ctx.node id).a < id ∧
      (ctx.node id).b < id ∧ ∀ vars, ctx.bv vars w id =
        arith op (ctx.bv vars w (ctx.node id).a) (ctx.bv vars w (ctx.node id).b) := by
  obtain ⟨⟨ha, hb, -⟩, hlt, hw, hs, hval⟩ :=
    hwf.op_node hid hop (by rintro rfl; cases ho) (by rintro rfl; cases ho)
  obtain ⟨hwa, hwb⟩ := hs.arith (hop ▸ ho)
  have hha : ctx.Has w (ctx.node id).a := ⟨by omega, by rw [hwa, hw]⟩
  have hhb : ctx.Has w (ctx.node id).b := ⟨by omega, by rw [hwb, hw]⟩
  refine ⟨hha, hhb, ha, hb, fun vars => ?_⟩
  rw [bv_eq_cut, hval, evalOp_arith (hop ▸ ho) hw (hwf.w_pos hid) (hwf.w_le hid)
    (hwf.fits hha vars) (hwf.fits hhb vars), cut_lift (hwf.w_le hid), hop]
  rfl

theorem WF.shift_node {op : BVOp} (hop : (ctx.node id).op = op) (ho : isShift op = true) :
    ctx.Has w (ctx.node id).a ∧ (ctx.node id).a < id ∧ (ctx.node id).b < id ∧
      ∀ vars, ctx.bv vars w id =
        shift op (ctx.bv vars w (ctx.node id).a) (shiftAmount w (ctx.val vars (ctx.node id).b)) := by
  obtain ⟨⟨ha, hb, -⟩, hlt, hw, hs, hval⟩ :=
    hwf.op_node hid hop (by rintro rfl; cases ho) (by rintro rfl; cases ho)
  have hwa := hs.shift (hop ▸ ho)
  have hha : ctx.Has w (ctx.node id).a := ⟨by omega, by rw [hwa, hw]⟩
  refine ⟨hha, ha, hb, fun vars => ?_⟩
  rw [bv_eq_cut, hval, evalOp_shift (hop ▸ ho) hw (hwf.w_pos hid) (hwf.w_le hid)
    (hwf.fits hha vars), cut_lift (hwf.w_le hid), hop]
  rfl

theorem WF.not_node (hop : (ctx.node id).op = .not) :
    ctx.Has w (ctx.node id).a ∧ (ctx.node id).a < id ∧
      ∀ vars, ctx.bv vars w id = ~~~ctx.bv vars w (ctx.node id).a := by
  obtain ⟨⟨ha, -, -⟩, hlt, hw, hs, hval⟩ := hwf.op_node hid hop nofun nofun
  have hwa := hs.unary (by rw [hop]; rfl)
  refine ⟨⟨by omega, by rw [hwa, hw]⟩, ha, fun vars => ?_⟩
  rw [bv_eq_cut, hval,
    evalOp_not hop hw (hwf.w_le hid), cut_lift (hwf.w_le hid)]
  rfl

theorem WF.ite_node (hop : (ctx.node id).op = .ite) :
    ctx.Has 1 (ctx.node id).a ∧ ctx.Has w (ctx.node id).b ∧ ctx.Has w (ctx.node id).c ∧
      (ctx.node id).a < id ∧ (ctx.node id).b < id ∧ (ctx.node id).c < id ∧
      ∀ vars, ctx.val vars id = if ctx.val vars (ctx.node id).a = 0#64
        then ctx.val vars (ctx.node id).c else ctx.val vars (ctx.node id).b := by
  obtain ⟨⟨ha, hb, hc⟩, hlt, hw, hs, hval⟩ := hwf.op_node hid hop nofun nofun
  simp only [BVNode.Sorted, hop, hw] at hs
  have hhb : ctx.Has w (ctx.node id).b := ⟨by omega, hs.2.1⟩
  have hhc : ctx.Has w (ctx.node id).c := ⟨by omega, hs.2.2⟩
  refine ⟨⟨by omega, hs.1⟩, hhb, hhc, ha, hb, hc, fun vars => ?_⟩
  rw [hval,
    evalOp_ite hop hw (hwf.w_le hid) (hwf.fits hhb vars) (hwf.fits hhc vars)]

theorem WF.zext_node (hop : (ctx.node id).op = .zext) :
    (ctx.node id).a < id ∧ w = ctx.width (ctx.node id).a + (ctx.node id).extra ∧
      0 < (ctx.node id).extra ∧ ∀ vars, ctx.val vars id = ctx.val vars (ctx.node id).a := by
  obtain ⟨⟨ha, -, -⟩, hlt, hw, hs, hval⟩ := hwf.op_node hid hop nofun nofun
  simp only [BVNode.Sorted, hop, hw] at hs
  refine ⟨ha, hs.1, hs.2, fun vars => ?_⟩
  rw [hval,
    evalOp_zext hop hw (hwf.w_le hid) (hwf.fits (has_width (by omega)) vars) (by omega)]

theorem WF.sext_node (hop : (ctx.node id).op = .sext) :
    (ctx.node id).a < id ∧ w = ctx.width (ctx.node id).a + (ctx.node id).extra ∧
      ∀ vars, ctx.bv vars w id =
        (ctx.bv vars (ctx.width (ctx.node id).a) (ctx.node id).a).signExtend w := by
  obtain ⟨⟨ha, -, -⟩, hlt, hw, hs, hval⟩ := hwf.op_node hid hop nofun nofun
  simp only [BVNode.Sorted, hop, hw] at hs
  refine ⟨ha, hs.1, fun vars => ?_⟩
  rw [bv_eq_cut, hval,
    evalOp_sext hop hw (hwf.w_le hid) (hwf.pos _ (by omega)) (by omega), cut_lift (hwf.w_le hid)]
  rfl

theorem WF.extract_node (hop : (ctx.node id).op = .extract) :
    (ctx.node id).a < id ∧ (ctx.node id).extra ≤ (ctx.node id).imm.toNat ∧
      (ctx.node id).imm.toNat < ctx.width (ctx.node id).a ∧
      w = (ctx.node id).imm.toNat - (ctx.node id).extra + 1 ∧
      ∀ vars, ctx.bv vars w id = cut w (ctx.val vars (ctx.node id).a >>> (ctx.node id).extra) := by
  obtain ⟨⟨ha, -, -⟩, hlt, hw, hs, hval⟩ := hwf.op_node hid hop nofun nofun
  simp only [BVNode.Sorted, hop, hw] at hs
  refine ⟨ha, hs.1, hs.2.1, hs.2.2, fun vars => ?_⟩
  rw [bv_eq_cut, hval,
    evalOp_extract hop hw (hwf.w_le hid), cut_lift (hwf.w_le hid)]

theorem WF.concat_node (hop : (ctx.node id).op = .concat) :
    (ctx.node id).a < id ∧ (ctx.node id).b < id ∧
      w = ctx.width (ctx.node id).a + ctx.width (ctx.node id).b ∧
      ∀ vars, ctx.val vars id = lift (ctx.bv vars (ctx.width (ctx.node id).a) (ctx.node id).a ++
          ctx.bv vars (ctx.width (ctx.node id).b) (ctx.node id).b) := by
  obtain ⟨⟨ha, hb, -⟩, hlt, hw, hs, hval⟩ := hwf.op_node hid hop nofun nofun
  have hle := hwf.w_le hid
  simp only [BVNode.Sorted, hop] at hs
  refine ⟨ha, hb, by omega, fun vars => ?_⟩
  rw [hval, evalOp_concat hop hs (by omega)]
  rfl

end

end BVContext

/-! ## Making nodes -/

structure Made (ctx : BVContext) (w : Nat) (g : List U64 → BitVec w) (id : Nat)
    (ctx' : BVContext) : Prop where
  ext : ctx.Extends ctx'
  wf : ctx'.WF
  has : ctx'.Has w id
  bv : ∀ vars, ctx'.bv vars w id = g vars

structure MadeConst (ctx : BVContext) (w : Nat) (c : U64) (id : Nat) (ctx' : BVContext) : Prop
    extends Made ctx w (fun _ => cut w c) id ctx' where
  op : (ctx'.node id).op = .const

/-- The program makes a node of width `w` whose value is `g`. -/
def Makes (p : Make Nat) (ctx : BVContext) (w : Nat) (g : List U64 → BitVec w) : Prop :=
  Prog.Yields body p ctx (Made ctx w g)

variable {g g' : List U64 → BitVec w} {p : Make Nat} {f : Nat → Make Nat} {c : U64}

theorem Made.trans {ctx'' : BVContext} (h : ctx.Extends ctx') (hm : Made ctx' w g id ctx'') :
    Made ctx w g id ctx'' := ⟨h.trans hm.ext, hm.wf, hm.has, hm.bv⟩

theorem Makes.congr (h : Makes p ctx w g) (hg : ∀ vars, g vars = g' vars) : Makes p ctx w g' := by
  have : g = g' := funext hg
  rwa [← this]

theorem makes_pure (hwf : ctx.WF) (hid : ctx.Has w id) (hg : ∀ vars, ctx.bv vars w id = g vars) :
    Makes (pure id) ctx w g := yields_pure ⟨Extends.refl ctx, hwf, hid, hg⟩

theorem makes_bind {v : Nat} {g₁ : List U64 → BitVec v} (hp : Makes p ctx v g₁)
    (hf : ∀ id ctx', Made ctx v g₁ id ctx' → Makes (f id) ctx' w g) :
    Makes (p >>= f) ctx w g := by
  refine yields_bind hp (fun id ctx' hm => ?_)
  exact (hf id ctx' hm).mono (fun _ _ hm' => hm'.trans hm.ext)

theorem yields_state {h : BVContext → Nat × BVContext} {P : Nat → BVContext → Prop}
    (hP : P (h ctx).1 (h ctx).2) : Prog.Yields body (Make.state h) ctx P := by
  refine yields_bind (P := fun c c' => c = ctx ∧ c' = ctx) (yields_getState ⟨rfl, rfl⟩) ?_
  rintro _ _ ⟨rfl, rfl⟩
  refine yields_bind (P := fun _ c => c = (h _).2) (yields_setState rfl) ?_
  rintro _ _ rfl
  exact yields_pure hP

theorem makes_intern (hwf : ctx.WF) (hn : ctx.Legal n) (hw : n.width = w)
    (hg : ∀ vars, cut w (ctx.evalNode vars n) = g vars) : Makes (Make.intern n) ctx w g := by
  obtain ⟨hext, hwf', hget, hval⟩ := hwf.intern hn
  refine yields_state ⟨hext, hwf', ⟨lt_of_getElem? hget, ?_⟩, fun vars => ?_⟩
  · rw [BVContext.width, node_of_getElem? hget, hw]
  · rw [bv_eq_cut, hval, hg]

theorem legal_const (h0 : 0 < w) (h : w ≤ 64) (c : U64) :
    ctx.Legal { op := .const, width := w, imm := c &&& widthMask w } :=
  ⟨Or.inl rfl, fits_and_widthMask h c, h0, h⟩

theorem yields_const (hwf : ctx.WF) (h0 : 0 < w) (h : w ≤ 64) (c : U64) :
    Prog.Yields body (Make.const c w) ctx (MadeConst ctx w c) := by
  obtain ⟨hext, hwf', hget, hval⟩ := hwf.intern (legal_const h0 h c)
  refine yields_state ⟨⟨hext, hwf', ⟨lt_of_getElem? hget, ?_⟩, fun vars => ?_⟩, ?_⟩
  · rw [BVContext.width]
    exact congrArg BVNode.width (node_of_getElem? hget)
  · rw [bv_eq_cut]
    refine (congrArg (cut w) (hval vars)).trans ?_
    rw [evalNode_const rfl, cut_and_widthMask h, cut_and_widthMask h]
  · exact congrArg BVNode.op (node_of_getElem? hget)

theorem MadeConst.val (hm : MadeConst ctx w c id ctx') (hc : Fits w c) (vars : List U64) :
    ctx'.val vars id = c := by
  rw [hm.wf.val_eq_lift hm.has, hm.bv, hc.lift_cut]

theorem MadeConst.imm (hm : MadeConst ctx w c id ctx') (hc : Fits w c) : (ctx'.node id).imm = c := by
  rw [← (hm.wf.const_node hm.has hm.op).2 [], hm.val hc]

theorem makes_const (hwf : ctx.WF) (h0 : 0 < w) (h : w ≤ 64) (hg : ∀ vars, cut w c = g vars) :
    Makes (Make.const c w) ctx w g := by
  refine Makes.congr ?_ hg
  exact (yields_const hwf h0 h c).mono (fun _ _ hm => hm.toMade)

theorem makes_bind_const {w₁ : Nat} (hwf : ctx.WF) (h0 : 0 < w₁) (h : w₁ ≤ 64)
    (hf : ∀ id ctx', MadeConst ctx w₁ c id ctx' → Makes (f id) ctx' w g) :
    Makes (Make.const c w₁ >>= f) ctx w g := by
  refine yields_bind (yields_const hwf h0 h c) (fun id ctx' hm => ?_)
  exact (hf id ctx' hm).mono (fun _ _ hm' => hm'.trans hm.ext)

/-! ## Calls -/

theorem makes_call {q : Call} {P : Nat → BVContext → Prop} {k : BVContext → Make Nat}
    (hq : body q = getState >>= k) (h : Prog.Yields body (k ctx) ctx P) :
    Prog.Yields body (callOf q) ctx P := by
  refine yields_call ?_
  rw [hq]
  refine yields_bind (P := fun c c' => c = ctx ∧ c' = ctx) (yields_getState ⟨rfl, rfl⟩) ?_
  rintro _ _ ⟨rfl, rfl⟩
  exact h

theorem Makes.call_congr {q q' : Call} {k k' : BVContext → Make Nat}
    (hq : body q = getState >>= k) (hq' : body q' = getState >>= k')
    (heq : k ctx = k' ctx) (h : Makes (callOf q) ctx w g) : Makes (callOf q') ctx w g := by
  have hbody := Prog.Yields.of_call h
  rw [hq] at hbody
  have hk := Prog.Yields.of_getState hbody
  rw [heq] at hk
  exact makes_call hq' hk

theorem makes_extract {hi lo : Nat} (h : Makes (makeExtract ctx a hi lo) ctx w g) :
    Makes (Make.extract a hi lo) ctx w g := makes_call (q := .extract a hi lo) rfl h

theorem makes_concat {hi lo : Nat} (h : Makes (makeConcat ctx hi lo) ctx w g) :
    Makes (Make.concat hi lo) ctx w g := makes_call (q := .concat hi lo) rfl h

theorem makes_zext {k : Nat} (h : Makes (makeZext ctx a k) ctx w g) :
    Makes (Make.zext a k) ctx w g := makes_call (q := .zext a k) rfl h

theorem makes_sext {k : Nat} (h : Makes (makeSext ctx a k) ctx w g) :
    Makes (Make.sext a k) ctx w g := makes_call (q := .sext a k) rfl h

theorem makes_unary {op : BVOp} {k : Nat} (h : Makes (makeUnary ctx op a k) ctx w g) :
    Makes (Make.unary op a k) ctx w g := makes_call (q := .unary op a k) rfl h

theorem makes_binary {op : BVOp} {k : Nat} (h : Makes (makeBinary ctx op a b k) ctx w g) :
    Makes (Make.binary op a b k) ctx w g := makes_call (q := .binary op a b k) rfl h

theorem makes_ite {c t e : Nat} (h : Makes (makeIte ctx c t e) ctx w g) :
    Makes (Make.ite c t e) ctx w g := makes_call (q := .ite c t e) rfl h

end Brass.Verify.Bv
