import Brass.Verify.BvEval
import Brass.Verify.BvInterval
import Brass.Verify.BvMake

/-!
# Well-formed tables

`WF ctx`: the widths of every node and its operands fit together, operands come before the
nodes that use them, every interval holds of every value of its node, and the memo only
names nodes that exist. Interning a node with the right widths keeps all of this
(`WF.intern`), and the new table `Extends` the old one.
-/

namespace Brass.Verify.Bv

open List

def isUnaryOp (op : BVOp) : Bool :=
  op == .not || op == .neg || op == .clz || op == .ctz || op == .popcnt

/-- The width of a node fits the widths of its operands. -/
def BVNode.Sorted (n : BVNode) (width : Nat → Nat) : Prop :=
  match n.op with
  | .const => Fits n.width n.imm
  | .var => True
  | .extract =>
    n.extra ≤ n.imm.toNat ∧ n.imm.toNat < width n.a ∧ n.width = n.imm.toNat - n.extra + 1
  | .concat => n.width = width n.a + width n.b
  | .zext | .sext => n.width = width n.a + n.extra ∧ 0 < n.extra
  | .ite => width n.a = 1 ∧ width n.b = n.width ∧ width n.c = n.width
  | op =>
    if isUnaryOp op || isShift op then width n.a = n.width
    else if isArith op then width n.a = n.width ∧ width n.b = n.width
    else n.width = 1 ∧ width n.b = width n.a

section Sorted

variable {n : BVNode} {width : Nat → Nat}

theorem BVNode.Sorted.unary (h : n.Sorted width) (hop : isUnaryOp n.op = true) :
    width n.a = n.width := by
  unfold BVNode.Sorted at h
  cases hn : n.op <;> rw [hn] at h hop <;> first | exact h | exact absurd hop (by decide)

theorem BVNode.Sorted.shift (h : n.Sorted width) (hop : isShift n.op = true) :
    width n.a = n.width := by
  unfold BVNode.Sorted at h
  cases hn : n.op <;> rw [hn] at h hop <;> first | exact h | exact absurd hop (by decide)

theorem BVNode.Sorted.arith (h : n.Sorted width) (hop : isArith n.op = true) :
    width n.a = n.width ∧ width n.b = n.width := by
  unfold BVNode.Sorted at h
  cases hn : n.op <;> rw [hn] at h hop <;> first | exact h | exact absurd hop (by decide)

theorem BVNode.Sorted.pred (h : n.Sorted width) (hop : isPred n.op = true) :
    n.width = 1 ∧ width n.b = width n.a := by
  unfold BVNode.Sorted at h
  cases hn : n.op <;> rw [hn] at h hop <;> first | exact h | exact absurd hop (by decide)

theorem BVNode.Sorted.congr {width' : Nat → Nat} {len : Nat} (h : n.Sorted width)
    (hn : n.Before len) (hw : ∀ i < len, width' i = width i) : n.Sorted width' := by
  rcases hn with hn | hn | ⟨ha, hb, hc⟩
  · simp only [BVNode.Sorted, hn] at h ⊢
    exact h
  · simp only [BVNode.Sorted, hn]
  · unfold BVNode.Sorted at h ⊢
    rwa [hw _ ha, hw _ hb, hw _ hc]

end Sorted

structure BVContext.WF (ctx : BVContext) : Prop where
  nonempty : 0 < ctx.nodes.length
  ordered : Ordered ctx.nodes
  pos : ∀ id < ctx.nodes.length, 0 < ctx.width id
  le : ∀ id < ctx.nodes.length, ctx.width id ≤ 64
  sorted : ∀ id < ctx.nodes.length, (ctx.node id).Sorted ctx.width
  intervals : ctx.intervals.length = ctx.nodes.length
  holds : ∀ id < ctx.nodes.length, ∀ vars,
    (ctx.interval id).Holds (ctx.width id) (ctx.val vars id)
  memo : ∀ n id, ctx.memo n = some id → ctx.nodes[id]? = some n

def BVContext.Has (ctx : BVContext) (w id : Nat) : Prop :=
  id < ctx.nodes.length ∧ ctx.width id = w

structure BVContext.Extends (ctx ctx' : BVContext) : Prop where
  nodes : ctx.nodes <+: ctx'.nodes
  intervals : ctx.intervals <+: ctx'.intervals

namespace BVContext

variable {ctx ctx' ctx'' : BVContext} {w id : Nat} {n : BVNode} {vars : List U64}

theorem getElem?_node (h : id < ctx.nodes.length) : ctx.nodes[id]? = some (ctx.node id) := by
  rw [node, getD_eq_getElem?_getD, getElem?_eq_getElem h]
  rfl

theorem node_of_getElem? (h : ctx.nodes[id]? = some n) : ctx.node id = n := by
  rw [node, getD_eq_getElem?_getD, h]
  rfl

theorem lt_of_getElem? (h : ctx.nodes[id]? = some n) : id < ctx.nodes.length :=
  (List.getElem?_eq_some_iff.mp h).1

/-! ## Extensions -/

theorem Extends.refl (ctx : BVContext) : ctx.Extends ctx := ⟨prefix_rfl, prefix_rfl⟩

section

variable (h : ctx.Extends ctx')
include h

theorem Extends.trans (h' : ctx'.Extends ctx'') : ctx.Extends ctx'' :=
  ⟨h.nodes.trans h'.nodes, h.intervals.trans h'.intervals⟩

theorem Extends.lt (hid : id < ctx.nodes.length) : id < ctx'.nodes.length :=
  Nat.lt_of_lt_of_le hid h.nodes.length_le

theorem Extends.node (hid : id < ctx.nodes.length) : ctx'.node id = ctx.node id := by
  obtain ⟨more, hmore⟩ := h.nodes
  unfold BVContext.node
  rw [← hmore, getD_eq_getElem?_getD, getD_eq_getElem?_getD, getElem?_append_left hid]

theorem Extends.width (hid : id < ctx.nodes.length) : ctx'.width id = ctx.width id := by
  rw [BVContext.width, h.node hid, BVContext.width]

theorem Extends.interval (hid : id < ctx.intervals.length) :
    ctx'.interval id = ctx.interval id := by
  obtain ⟨more, hmore⟩ := h.intervals
  unfold BVContext.interval
  rw [← hmore, getD_eq_getElem?_getD, getD_eq_getElem?_getD, getElem?_append_left hid]

theorem Extends.has (hid : ctx.Has w id) : ctx'.Has w id :=
  ⟨h.lt hid.1, (h.width hid.1).trans hid.2⟩

theorem Extends.val (hwf : Ordered ctx'.nodes) (hid : id < ctx.nodes.length)
    (vars : List U64) : ctx'.val vars id = ctx.val vars id := by
  obtain ⟨more, hmore⟩ := h.nodes
  unfold BVContext.val
  rw [← hmore] at hwf ⊢
  exact evalConcrete_append hwf id hid vars

theorem Extends.bv (hwf : ctx'.WF) (hid : ctx.Has w id) (vars : List U64) :
    ctx'.bv vars w id = ctx.bv vars w id := by
  rw [BVContext.bv, h.val hwf.ordered hid.1, BVContext.bv]

end

/-! ## Values -/

theorem WF.fits (hwf : ctx.WF) (hid : ctx.Has w id) (vars : List U64) : Fits w (ctx.val vars id) := by
  have := (hwf.holds id hid.1 vars).fits
  rwa [hid.2] at this

theorem WF.val_eq_lift (hwf : ctx.WF) (hid : ctx.Has w id) (vars : List U64) :
    ctx.val vars id = lift (ctx.bv vars w id) := ((hwf.fits hid vars).lift_cut).symm

theorem bv_eq_cut (ctx : BVContext) (vars : List U64) (w id : Nat) :
    ctx.bv vars w id = cut w (ctx.val vars id) := rfl

/-- The value of a node that need not be in the table, from the values of its operands. -/
def evalNode (ctx : BVContext) (vars : List U64) (n : BVNode) : U64 :=
  evalWith ctx.nodes vars (ctx.val vars) n

theorem WF.val_eq (hwf : ctx.WF) (hid : id < ctx.nodes.length) (vars : List U64) :
    ctx.val vars id = ctx.evalNode vars (ctx.node id) :=
  evalConcrete_eq hwf.ordered (getElem?_node hid) vars

/-- A node that can be added: its operands exist and have the right widths. -/
structure Legal (ctx : BVContext) (n : BVNode) : Prop where
  closed : n.Before ctx.nodes.length
  sorted : n.Sorted ctx.width
  pos : 0 < n.width
  le : n.width ≤ 64

theorem widthAt_eq (hid : id < ctx.nodes.length) (d : Nat) : widthAt ctx.nodes id d = ctx.width id := by
  unfold widthAt
  rw [getElem?_node hid]
  rfl

theorem has_width (hid : id < ctx.nodes.length) : ctx.Has (ctx.width id) id := ⟨hid, rfl⟩

theorem WF.evalNode_eq (hwf : ctx.WF) (hc : n.op ≠ .const) (hv : n.op ≠ .var)
    (ha : n.a < ctx.nodes.length) (hb : n.b < ctx.nodes.length) (hc' : n.c < ctx.nodes.length) :
    ctx.evalNode vars n = evalOp n (ctx.width n.a) (ctx.width n.b) (ctx.val vars n.a)
      (ctx.val vars n.b) (ctx.val vars n.c) := by
  have hmask : ∀ id < ctx.nodes.length,
      ctx.val vars id &&& widthMask (ctx.width id) = ctx.val vars id :=
    fun id hid => (hwf.fits (has_width hid) vars).and_widthMask (hwf.le id hid)
  unfold evalNode evalWith
  split
  · contradiction
  · contradiction
  · rw [evalNodeConcrete, widthAt_eq ha, widthAt_eq hb, widthAt_eq hc', hmask _ ha, hmask _ hb,
      hmask _ hc']

theorem evalNode_const (hop : n.op = .const) : ctx.evalNode vars n = n.imm &&& widthMask n.width := by
  unfold evalNode evalWith
  rw [hop]

theorem evalNode_var (hop : n.op = .var) :
    ctx.evalNode vars n = vars.getD n.imm.toNat 0 &&& widthMask n.width := by
  unfold evalNode evalWith
  rw [hop]

theorem WF.fits_evalNode (hwf : ctx.WF) (hn : ctx.Legal n) :
    Fits n.width (ctx.evalNode vars n) := by
  by_cases hc : n.op = .const
  · rw [evalNode_const hc]
    exact fits_and_widthMask hn.le _
  · by_cases hv : n.op = .var
    · rw [evalNode_var hv]
      exact fits_and_widthMask hn.le _
    · obtain ⟨ha, hb, hc'⟩ := (hn.closed.resolve_left hc).resolve_left hv
      rw [hwf.evalNode_eq hc hv ha hb hc']
      exact fits_evalOp hn.pos hn.le

/-- The rule of an operator, from the intervals of its operands. -/
theorem computeInterval_holds_of {va vb vc : U64} (hs : n.Sorted ctx.width) (h0 : 0 < n.width)
    (h : n.width ≤ 64) (hc : n.op ≠ .const) (hpos : 0 < ctx.width n.a)
    (hia : (ctx.interval n.a).Holds (ctx.width n.a) va)
    (hib : (ctx.interval n.b).Holds (ctx.width n.b) vb)
    (hic : (ctx.interval n.c).Holds (ctx.width n.c) vc) :
    (ctx.computeInterval n).Holds n.width (evalOp n (ctx.width n.a) (ctx.width n.b) va vb vc) := by
  have hfull : (fullInterval n.width).Holds n.width
      (evalOp n (ctx.width n.a) (ctx.width n.b) va vb vc) :=
    fullInterval_holds h (fits_evalOp h0 h)
  unfold computeInterval
  have harith := fun hop => hs.arith (n := n) hop
  have hshift := fun hop => hs.shift (n := n) hop
  cases hop : n.op <;> simp only [BVNode.Sorted, hop] at hs ⊢ <;> try exact hfull
  case const => contradiction
  case extract =>
    rw [evalOp_extract hop rfl h, ← and_widthMask h]
    exact extractInterval_holds h0 h hia
  case zext =>
    rw [evalOp_zext hop rfl h hia.fits (by omega)]
    exact zextInterval_holds hpos h (by omega) hia
  case sext =>
    rw [evalOp_sext hop rfl h hpos (by omega)]
    exact sextInterval_holds hpos h (by omega) hia
  case and =>
    obtain ⟨hwa, hwb⟩ := harith (by rw [hop]; rfl)
    rw [hwa] at hia
    rw [hwb] at hib
    have hiv := andInterval_holds h0 h hia hib
    simp only [evalOp, hop]
    rwa [hiv.fits.and_widthMask h]
  case or =>
    obtain ⟨hwa, hwb⟩ := harith (by rw [hop]; rfl)
    rw [hwa] at hia
    rw [hwb] at hib
    have hiv := orInterval_holds h hia hib
    simp only [evalOp, hop]
    rwa [hiv.fits.and_widthMask h]
  case add =>
    obtain ⟨hwa, hwb⟩ := harith (by rw [hop]; rfl)
    rw [hwa] at hia
    rw [hwb] at hib
    simp only [evalOp, hop, if_pos h]
    exact addInterval_holds h0 h hia hib
  case mul =>
    obtain ⟨hwa, hwb⟩ := harith (by rw [hop]; rfl)
    rw [hwa] at hia
    rw [hwb] at hib
    simp only [evalOp, hop, if_pos h]
    exact mulInterval_holds h0 h hia hib
  case shl =>
    rw [hshift (by rw [hop]; rfl)] at hia
    simp only [evalOp, hop]
    exact shlInterval_holds h0 h hia hib
  case lshr =>
    rw [hshift (by rw [hop]; rfl)] at hia
    have hiv := lshrInterval_holds h0 h hia hib
    simp only [evalOp, hop]
    have hfits := hiv.fits.and_widthMask h
    unfold shiftAmount at hiv hfits
    rwa [hfits]
  case ite =>
    rw [hs.2.1] at hib
    rw [hs.2.2] at hic
    rw [evalOp_ite hop rfl h hib.fits hic.fits]
    split
    · exact iteInterval_holds_right hib hic
    · exact iteInterval_holds_left hib hic

theorem WF.computeInterval_holds (hwf : ctx.WF) (hn : ctx.Legal n) (vars : List U64) :
    (ctx.computeInterval n).Holds n.width (ctx.evalNode vars n) := by
  by_cases hc : n.op = .const
  · rw [evalNode_const hc]
    simp only [computeInterval, hc]
    exact constInterval_holds hn.pos hn.le n.imm
  · by_cases hv : n.op = .var
    · simp only [computeInterval, hv]
      exact fullInterval_holds hn.le (hwf.fits_evalNode hn)
    · obtain ⟨ha, hb, hc'⟩ := (hn.closed.resolve_left hc).resolve_left hv
      rw [hwf.evalNode_eq hc hv ha hb hc']
      exact computeInterval_holds_of hn.sorted hn.pos hn.le hc (hwf.pos _ ha)
        (hwf.holds _ ha vars) (hwf.holds _ hb vars) (hwf.holds _ hc' vars)

/-! ## Interning -/

theorem push_extends (ctx : BVContext) (n : BVNode) : ctx.Extends (ctx.push n) :=
  ⟨prefix_append _ _, prefix_append _ _⟩

theorem node_push_length (ctx : BVContext) (n : BVNode) :
    (ctx.push n).node ctx.nodes.length = n := by
  apply node_of_getElem?
  simp [push]

theorem length_push (ctx : BVContext) (n : BVNode) :
    (ctx.push n).nodes.length = ctx.nodes.length + 1 := by simp [push]

theorem ordered_push (ho : Ordered ctx.nodes) (hn : n.Before ctx.nodes.length) : Ordered (ctx.push n).nodes := by
  intro id m hm
  rw [push, getElem?_append] at hm
  split at hm
  · exact ho id m hm
  · rename_i hge
    have hid : id - ctx.nodes.length = 0 := by
      by_contra hne
      rw [getElem?_eq_none (by simp; omega)] at hm
      exact absurd hm (by simp)
    rw [hid, getElem?_cons_zero, Option.some_inj] at hm
    subst hm
    exact hn.mono (by omega)

theorem evalNode_push (hn : n.Before ctx.nodes.length) (ho : Ordered (ctx.push n).nodes) (vars : List U64) :
    (ctx.push n).evalNode vars n = ctx.evalNode vars n := by
  have hext := push_extends ctx n
  obtain ⟨more, hmore⟩ := hext.nodes
  unfold evalNode
  rw [← hmore, evalWith_append hn]
  exact evalWith_congr hn (fun i hi => hext.val ho hi vars)

theorem WF.push (hwf : ctx.WF) (hn : ctx.Legal n) : (ctx.push n).WF := by
  have hext := push_extends ctx n
  have hnew := node_push_length ctx n
  have hlen := length_push ctx n
  have ho := ordered_push hwf.ordered hn.closed
  have hcases : ∀ id < (ctx.push n).nodes.length, id < ctx.nodes.length ∨ id = ctx.nodes.length := by
    intro id hid
    omega
  have hvalnew : ∀ vars, (ctx.push n).val vars ctx.nodes.length = ctx.evalNode vars n := by
    intro vars
    rw [← evalNode_push hn.closed ho]
    have hlt : ctx.nodes.length < (ctx.push n).nodes.length := by omega
    have := evalConcrete_eq ho (getElem?_node hlt) vars
    rw [hnew] at this
    exact this
  have hivnew : (ctx.push n).interval ctx.nodes.length = ctx.computeInterval n := by
    rw [interval, BVContext.push, getD_eq_getElem?_getD,
      getElem?_append_right (by rw [hwf.intervals]), hwf.intervals]
    simp
  refine ⟨by omega, ho, fun id hid => ?_, fun id hid => ?_, fun id hid => ?_, ?_,
    fun id hid vars => ?_, fun m id hm => ?_⟩
  · rcases hcases id hid with hold | rfl
    · rw [hext.width hold]
      exact hwf.pos id hold
    · rw [width, hnew]
      exact hn.pos
  · rcases hcases id hid with hold | rfl
    · rw [hext.width hold]
      exact hwf.le id hold
    · rw [width, hnew]
      exact hn.le
  · rcases hcases id hid with hold | rfl
    · rw [hext.node hold]
      have hbefore := hwf.ordered id _ (getElem?_node hold)
      exact (hwf.sorted id hold).congr hbefore (fun i hi => hext.width (by omega))
    · rw [hnew]
      exact hn.sorted.congr hn.closed (fun i hi => hext.width hi)
  · simp [BVContext.push, hwf.intervals]
  · rcases hcases id hid with hold | rfl
    · rw [hext.width hold, hext.val ho hold, hext.interval (by rw [hwf.intervals]; exact hold)]
      exact hwf.holds id hold vars
    · rw [hvalnew, hivnew, width, hnew]
      exact hwf.computeInterval_holds hn vars
  · simp only [BVContext.push, Function.update_apply] at hm
    split at hm
    · rename_i heq
      cases hm
      rw [heq]
      simp [BVContext.push]
    · have := hwf.memo m id hm
      rw [BVContext.push, getElem?_append_left (lt_of_getElem? this)]
      exact this

theorem WF.val_of_node (hwf : ctx.WF) (hget : ctx.nodes[id]? = some n) (vars : List U64) :
    ctx.val vars id = ctx.evalNode vars n := by
  rw [hwf.val_eq (lt_of_getElem? hget), node_of_getElem? hget]

theorem WF.intern (hwf : ctx.WF) (hn : ctx.Legal n) :
    ctx.Extends (ctx.intern n).2 ∧ (ctx.intern n).2.WF ∧
      (ctx.intern n).2.nodes[(ctx.intern n).1]? = some n ∧
      ∀ vars, (ctx.intern n).2.val vars (ctx.intern n).1 = ctx.evalNode vars n := by
  unfold BVContext.intern
  split
  · rename_i id hid
    have hget := hwf.memo n id hid
    exact ⟨Extends.refl ctx, hwf, hget, hwf.val_of_node hget⟩
  · have hwf' := hwf.push hn
    have hget : (ctx.push n).nodes[ctx.nodes.length]? = some n := by simp [BVContext.push]
    refine ⟨push_extends ctx n, hwf', hget, fun vars => ?_⟩
    rw [hwf'.val_of_node hget, evalNode_push hn.closed hwf'.ordered]

/-! ## Typed tables -/

/-- The nodes of the table fit together. -/
structure Typed (ctx : BVContext) : Prop where
  ordered : Ordered ctx.nodes
  pos : ∀ id < ctx.nodes.length, 0 < ctx.width id
  le : ∀ id < ctx.nodes.length, ctx.width id ≤ 64
  sorted : ∀ id < ctx.nodes.length, (ctx.node id).Sorted ctx.width

theorem WF.typed (h : ctx.WF) : ctx.Typed := ⟨h.ordered, h.pos, h.le, h.sorted⟩

section

variable (h : ctx.Typed) (hid : id < ctx.nodes.length)
include h hid

theorem Typed.before (hc : (ctx.node id).op ≠ .const) (hv : (ctx.node id).op ≠ .var) :
    (ctx.node id).a < id ∧ (ctx.node id).b < id ∧ (ctx.node id).c < id :=
  ((h.ordered id _ (getElem?_node hid)).resolve_left hc).resolve_left hv

theorem Typed.val_node (vars : List U64) : ctx.val vars id = ctx.evalNode vars (ctx.node id) :=
  evalConcrete_eq h.ordered (getElem?_node hid) vars

theorem Typed.fits (vars : List U64) : Fits (ctx.width id) (ctx.val vars id) := by
  rw [h.val_node hid vars]
  unfold evalNode evalWith
  split
  · exact fits_and_widthMask (h.le id hid) _
  · exact fits_and_widthMask (h.le id hid) _
  · exact fits_evalOp (h.pos id hid) (h.le id hid)

theorem Typed.val_op
    (hc : (ctx.node id).op ≠ .const) (hv : (ctx.node id).op ≠ .var) (vars : List U64) :
    ctx.val vars id = evalOp (ctx.node id) (ctx.width (ctx.node id).a) (ctx.width (ctx.node id).b)
      (ctx.val vars (ctx.node id).a) (ctx.val vars (ctx.node id).b)
      (ctx.val vars (ctx.node id).c) := by
  obtain ⟨ha, hb, hcc⟩ := h.before hid hc hv
  have hmask : ∀ i < id, ctx.val vars i &&& widthMask (ctx.width i) = ctx.val vars i :=
    fun i hi => (h.fits (by omega) vars).and_widthMask (h.le i (by omega))
  rw [h.val_node hid vars]
  unfold evalNode evalWith
  split
  · contradiction
  · contradiction
  · rw [evalNodeConcrete, widthAt_eq (by omega), widthAt_eq (by omega), widthAt_eq (by omega),
      hmask _ ha, hmask _ hb, hmask _ hcc]

end

end BVContext

end Brass.Verify.Bv
