import Brass.Verify.BvTable

/-!
# The intervals of a table with float nodes

The nodes of a `BVContext` are integer operators and floating-point ones. To the integer
operators a float node is a word of its width, like a variable; `compute_fp_interval`
(`verify/bv_fp_intervals.cpp`) says something about the bits of two of them, `FAbs` and
`SiToFp`. What the float operators compute is a parameter (`FloatArith`), of which only the
sign of a converted integer is used.

`Built t`: the table `t` came about by interning nodes whose widths fit their operands.
`Built.val_holds`: every interval of such a table holds of every value of its node.
-/

namespace Brass.Verify.Bv

open List

/-! ## Float nodes -/

inductive BVFloatOp where
  | fadd | fsub | fmul | fdiv | fsqrt | fabs | fneg
  | ffloor | fceil | fround | fmin | fmax
  | feq | fne | flt | fle | fgt | fge
  | siToFp | fpToSi | fpExt | fpTrunc
  deriving DecidableEq, Repr

structure BVFloatNode where
  op : BVFloatOp
  width : Nat
  a : Nat := 0
  b : Nat := 0
  deriving DecidableEq, Repr

inductive BVTableNode where
  | int (n : BVNode)
  | float (n : BVFloatNode)
  deriving DecidableEq, Repr

/-- What the integer operators see of a node. -/
def BVTableNode.view : BVTableNode → BVNode
  | .int n => n
  | .float n => { op := .var, width := n.width }

/-- The widths that an operator takes and returns: `w` is the width of the node, `aw` and
`bw` those of its operands. -/
def BVFloatOp.Widths (op : BVFloatOp) (w aw bw : Nat) : Prop :=
  match op with
  | .feq | .fne | .flt | .fle | .fgt | .fge => w = 1 ∧ (aw = 32 ∨ aw = 64) ∧ bw = aw
  | .siToFp => w = 32 ∨ w = 64
  | .fpToSi => (w = 32 ∨ w = 64) ∧ (aw = 32 ∨ aw = 64)
  | .fpExt => w = 64 ∧ aw = 32
  | .fpTrunc => w = 32 ∧ aw = 64
  | .fsqrt | .fabs | .fneg | .ffloor | .fceil | .fround => (w = 32 ∨ w = 64) ∧ aw = w
  | .fadd | .fsub | .fmul | .fdiv | .fmin | .fmax => (w = 32 ∨ w = 64) ∧ aw = w ∧ bw = w

theorem BVFloatOp.Widths.bounds {op : BVFloatOp} {w aw bw : Nat} (h : op.Widths w aw bw) :
    0 < w ∧ w ≤ 64 := by
  cases op <;> simp only [BVFloatOp.Widths] at h <;> omega

/-- A node whose operands are among the first `len` nodes and have the widths that its
operator takes. -/
def BVTableNode.Legal (width : Nat → Nat) (len : Nat) : BVTableNode → Prop
  | .int n => n.Before len ∧ n.Sorted width ∧ 0 < n.width ∧ n.width ≤ 64
  | .float n => n.a < len ∧ n.b < len ∧ n.op.Widths n.width (width n.a) (width n.b)

theorem BVTableNode.Legal.bounds {width : Nat → Nat} {len : Nat} {n : BVTableNode}
    (h : n.Legal width len) : 0 < n.view.width ∧ n.view.width ≤ 64 := by
  cases n with
  | int n => exact h.2.2
  | float n => exact h.2.2.bounds

theorem BVTableNode.Legal.congr {width width' : Nat → Nat} {len : Nat} {n : BVTableNode}
    (h : n.Legal width len) (hw : ∀ i < len, width' i = width i) : n.Legal width' len := by
  cases n with
  | int n => exact ⟨h.1, h.2.1.congr h.1 hw, h.2.2⟩
  | float n =>
    obtain ⟨ha, hb, hwidths⟩ := h
    refine ⟨ha, hb, ?_⟩
    rwa [hw _ ha, hw _ hb]

/-- The arithmetic of the host: `eval op w aw va vb` is the word of width `w` that the
operator returns on the words `va`, of width `aw`, and `vb`. -/
structure FloatArith where
  eval : BVFloatOp → Nat → Nat → U64 → U64 → U64
  /-- The result is a word of its width. -/
  fits : ∀ op w aw bw va vb, op.Widths w aw bw → Fits aw va → Fits bw vb →
    Fits w (eval op w aw va vb)
  /-- The sign bit of a converted integer is the sign of the integer. -/
  siToFp_sign : ∀ w aw va vb, w = 32 ∨ w = 64 → 0 ≤ signExtendBits va aw →
    (eval .siToFp w aw va vb).getLsbD (w - 1) = false

/-- `fabs` clears the sign bit, also of a NaN. -/
def FloatArith.evalFloat (fp : FloatArith) (n : BVFloatNode) (aw : Nat) (va vb : U64) : U64 :=
  if n.op = .fabs then va &&& ~~~(1#64 <<< (n.width - 1)) else fp.eval n.op n.width aw va vb

/-- `compute_fp_interval` on the bounds and the known bits: `ia` is the interval of the
first operand, `iv` the one that the width gives. -/
def computeFpInterval (n : BVFloatNode) (ia iv : BVInterval) : BVInterval :=
  if n.width ≠ 32 ∧ n.width ≠ 64 then iv
  else
    let sign := 1#64 <<< (n.width - 1)
    match n.op with
    | .siToFp =>
      if ia.smin ≥ 0 then
        let zeros := iv.knownZeros ||| sign
        { iv with knownZeros := zeros, umax := widthMask n.width &&& ~~~zeros }
      else iv
    | .fabs =>
      let zeros := ia.knownZeros ||| sign
      let ones := ia.knownOnes &&& ~~~sign
      { iv with
        knownZeros := zeros
        knownOnes := ones
        umin := ones
        umax := widthMask n.width &&& ~~~zeros }
    | _ => iv

/-! ## The rules -/

section Rules

variable {fp : FloatArith} {n : BVFloatNode} {w aw : Nat} {x va vb : U64} {ia iv : BVInterval}

theorem BVInterval.Holds.withZeros (h : w ≤ 64) (hiv : iv.Holds w x) {zeros : U64}
    (hz : ∀ i, zeros.getLsbD i = true → x.getLsbD i = false) :
    { iv with knownZeros := zeros, umax := widthMask w &&& ~~~zeros : BVInterval }.Holds w x :=
  { hiv with
    zeros := hz
    umax := hiv.fits.le_of_zeros h hz
    umaxFits := fits_widthMask_and h _ }

theorem BVInterval.Holds.withOnes (hiv : iv.Holds w x) (ones : U64)
    (hone : ∀ i, ones.getLsbD i = true → x.getLsbD i = true) :
    { iv with knownOnes := ones, umin := ones : BVInterval }.Holds w x :=
  { hiv with
    ones := hone
    umin := le_of_bits hone }

theorem getLsbD_signWord (h : w ≤ 64) (i : Nat) :
    (1#64 <<< (w - 1)).getLsbD i = decide (i = w - 1) := by
  rw [BitVec.getLsbD_shiftLeft, BitVec.getLsbD_one]
  by_cases hi : i = w - 1
  · subst hi
    simp
    omega
  · simp [hi]
    omega

theorem siToFp_holds (h : w ≤ 64) (hx : Fits w x) (hsign : x.getLsbD (w - 1) = false) :
    { fullInterval w with
      knownZeros := (fullInterval w).knownZeros ||| 1#64 <<< (w - 1)
      umax := widthMask w &&& ~~~((fullInterval w).knownZeros ||| 1#64 <<< (w - 1)) :
      BVInterval }.Holds w x := by
  have hfull := fullInterval_holds h hx
  apply hfull.withZeros h
  intro i hi
  rw [BitVec.getLsbD_or, Bool.or_eq_true, getLsbD_signWord h, decide_eq_true_iff] at hi
  rcases hi with hi | hi
  · exact hfull.zeros i hi
  · rw [hi]
    exact hsign

/-- The value that `fabs` returns keeps every bit but the sign. -/
theorem fabs_holds (h : w ≤ 64) (ha : ia.Holds w va) : { fullInterval w with
      knownZeros := ia.knownZeros ||| 1#64 <<< (w - 1)
      knownOnes := ia.knownOnes &&& ~~~(1#64 <<< (w - 1))
      umin := ia.knownOnes &&& ~~~(1#64 <<< (w - 1))
      umax := widthMask w &&& ~~~(ia.knownZeros ||| 1#64 <<< (w - 1)) :
      BVInterval }.Holds w (va &&& ~~~(1#64 <<< (w - 1))) := by
  have hfits : Fits w (va &&& ~~~(1#64 <<< (w - 1))) :=
    ha.fits.mono (le_of_bits fun i hi => by
      rw [BitVec.getLsbD_and, Bool.and_eq_true] at hi
      exact hi.1)
  have hones := (fullInterval_holds h hfits).withOnes
    (ia.knownOnes &&& ~~~(1#64 <<< (w - 1))) (fun i hi => ?_)
  · apply hones.withZeros h
    intro i hi
    rw [BitVec.getLsbD_or, Bool.or_eq_true] at hi
    rw [BitVec.getLsbD_and, BitVec.getLsbD_not]
    rcases hi with hi | hi
    · rw [ha.zeros i hi, Bool.false_and]
    · rw [hi, Bool.not_true, Bool.and_false, Bool.and_false]
  · rw [BitVec.getLsbD_and, Bool.and_eq_true] at hi ⊢
    exact ⟨ha.ones i hi.1, hi.2⟩

theorem FloatArith.fits_evalFloat {bw : Nat} (hw : n.op.Widths n.width aw bw)
    (ha : Fits aw va) (hb : Fits bw vb) : Fits n.width (fp.evalFloat n aw va vb) := by
  unfold FloatArith.evalFloat
  split
  · rename_i hop
    rw [hop] at hw
    obtain ⟨-, rfl⟩ : (n.width = 32 ∨ n.width = 64) ∧ aw = n.width := hw
    refine ha.mono (le_of_bits fun i hi => ?_)
    rw [BitVec.getLsbD_and, Bool.and_eq_true] at hi
    exact hi.1
  · exact fp.fits _ _ _ _ _ _ hw ha hb

theorem computeFpInterval_holds {ib : BVInterval} {bw : Nat} (hw : n.op.Widths n.width aw bw)
    (haw : 0 < aw) (haw' : aw ≤ 64) (ha : ia.Holds aw va) (hb : ib.Holds bw vb) :
    (computeFpInterval n ia (fullInterval n.width)).Holds n.width (fp.evalFloat n aw va vb) := by
  have hfits := fp.fits_evalFloat hw ha.fits hb.fits
  have h := hw.bounds.2
  have hfull := fullInterval_holds h hfits
  unfold computeFpInterval
  split
  · exact hfull
  · cases hop : n.op <;> try exact hfull
    case siToFp =>
      rw [hop] at hw
      dsimp only
      split
      · rename_i hsmin
        refine siToFp_holds h hfits ?_
        have hsigned : 0 ≤ signExtendBits va aw := by
          rw [signExtendBits_eq haw haw']
          exact hsmin.trans ha.smin
        rw [FloatArith.evalFloat, if_neg (by rw [hop]; simp), hop]
        exact fp.siToFp_sign _ _ _ _ hw hsigned
      · exact hfull
    case fabs =>
      rw [hop] at hw
      obtain ⟨-, rfl⟩ : (n.width = 32 ∨ n.width = 64) ∧ aw = n.width := hw
      rw [FloatArith.evalFloat, if_pos hop]
      exact fabs_holds h ha

end Rules

/-! ## The table -/

structure BVTable where
  nodes : List BVTableNode
  intervals : List BVInterval

namespace BVTable

def view (t : BVTable) : BVContext := ⟨t.nodes.map BVTableNode.view, t.intervals, [], fun _ => none⟩

def computeInterval (t : BVTable) : BVTableNode → BVInterval
  | .int n => t.view.computeInterval n
  | .float n => computeFpInterval n (t.view.interval n.a) (fullInterval n.width)

def push (t : BVTable) (n : BVTableNode) : BVTable :=
  ⟨t.nodes ++ [n], t.intervals ++ [t.computeInterval n]⟩

def intern (t : BVTable) (n : BVTableNode) : Nat × BVTable :=
  match t.nodes.findIdx? (fun m => m == n) with
  | some id => (id, t)
  | none => (t.nodes.length, t.push n)

def init : BVTable := ((⟨[], []⟩ : BVTable).intern (.int { op := .const, width := 1 })).2

def evalNode (t : BVTable) (fp : FloatArith) (vars : List U64) (v : Nat → U64) :
    BVTableNode → U64
  | .int n => evalWith t.view.nodes vars v n
  | .float n =>
    let aw := widthAt t.view.nodes n.a n.width
    let bw := widthAt t.view.nodes n.b n.width
    fp.evalFloat n aw (v n.a &&& widthMask aw) (v n.b &&& widthMask bw)

/-- `evaluate_all`: the values of all nodes under an assignment of the variables. -/
def evaluateAll (t : BVTable) (fp : FloatArith) (vars : List U64) : List U64 :=
  foldAppend (fun vals n => t.evalNode fp vars (fun i => vals.getD i 0) n) t.nodes []

def val (t : BVTable) (fp : FloatArith) (vars : List U64) (id : Nat) : U64 :=
  (t.evaluateAll fp vars).getD id 0

/-- The tables that interning builds, from the one of the constructor. -/
inductive Built : BVTable → Prop
  | init : Built init
  | intern {t : BVTable} {n : BVTableNode} (h : Built t) (hn : n.Legal t.view.width t.nodes.length) :
    Built (t.intern n).2

/-! ## Well-formed tables -/

structure WF (t : BVTable) : Prop where
  intervals : t.intervals.length = t.nodes.length
  legal : ∀ id (n : BVTableNode), t.nodes[id]? = some n → n.Legal t.view.width id
  rule : ∀ id (n : BVTableNode), t.nodes[id]? = some n → t.view.interval id = t.computeInterval n

variable {t : BVTable} {n : BVTableNode} {fp : FloatArith} {id len : Nat}

theorem length_view (t : BVTable) : t.view.nodes.length = t.nodes.length :=
  length_map BVTableNode.view

theorem width_of_getElem? (h : t.nodes[id]? = some n) : t.view.width id = n.view.width := by
  have hview : t.view.nodes[id]? = some n.view := by simp [view, h]
  rw [BVContext.width, BVContext.node_of_getElem? hview]

theorem width_push (h : id < t.nodes.length) : (t.push n).view.width id = t.view.width id := by
  have hget := getElem?_eq_getElem h
  have hget' : (t.push n).nodes[id]? = some t.nodes[id] := by
    rw [push, getElem?_append_left h, hget]
  rw [width_of_getElem? hget, width_of_getElem? hget']

theorem interval_push (h : id < t.intervals.length) :
    (t.push n).view.interval id = t.view.interval id := by
  show (t.intervals ++ [t.computeInterval n]).getD id {} = t.intervals.getD id {}
  rw [getD_eq_getElem?_getD, getElem?_append_left h, getD_eq_getElem?_getD]

/-- A rule reads the widths and the intervals of the operands only. -/
theorem computeInterval_congr {t' : BVTable} {width : Nat → Nat} (hn : n.Legal width len)
    (hw : ∀ i < len, t'.view.width i = t.view.width i)
    (hi : ∀ i < len, t'.view.interval i = t.view.interval i) :
    t'.computeInterval n = t.computeInterval n := by
  cases n with
  | int n =>
    show t'.view.computeInterval n = t.view.computeInterval n
    unfold BVContext.computeInterval
    rcases hn.1 with hop | hop | ⟨ha, hb, hc⟩
    · rw [hop]
    · rw [hop]
    · rw [hi _ ha, hi _ hb, hi _ hc, hw _ ha]
  | float n =>
    show computeFpInterval n _ _ = computeFpInterval n _ _
    rw [hi _ hn.1]

theorem getElem?_push {m : BVTableNode} (h : (t.push n).nodes[id]? = some m) :
    (id < t.nodes.length ∧ t.nodes[id]? = some m) ∨ (id = t.nodes.length ∧ m = n) := by
  rw [push, getElem?_append] at h
  split at h
  · exact Or.inl ⟨by assumption, h⟩
  · rename_i hge
    have hlt := (List.getElem?_eq_some_iff.mp h).1
    rw [List.length_singleton] at hlt
    have hid : id - t.nodes.length = 0 := by omega
    rw [hid, getElem?_cons_zero, Option.some_inj] at h
    exact Or.inr ⟨by omega, h.symm⟩

theorem WF.push (hwf : t.WF) (hn : n.Legal t.view.width t.nodes.length) : (t.push n).WF := by
  have hwidth : ∀ i < t.nodes.length, (t.push n).view.width i = t.view.width i :=
    fun i hi => width_push hi
  have hint : ∀ i < t.nodes.length, (t.push n).view.interval i = t.view.interval i :=
    fun i hi => interval_push (hwf.intervals ▸ hi)
  refine ⟨?_, fun id m hm => ?_, fun id m hm => ?_⟩
  · simp [BVTable.push, hwf.intervals]
  · rcases getElem?_push hm with ⟨hid, hm⟩ | ⟨rfl, rfl⟩
    · exact (hwf.legal id m hm).congr fun i hi => hwidth i (hi.trans hid)
    · exact hn.congr hwidth
  · rcases getElem?_push hm with ⟨hid, hm⟩ | ⟨rfl, rfl⟩
    · rw [hint id hid, hwf.rule id m hm]
      exact (computeInterval_congr (hwf.legal id m hm) (fun i hi => hwidth i (hi.trans hid))
        (fun i hi => hint i (hi.trans hid))).symm
    · have hnew : (t.push m).view.interval t.nodes.length = t.computeInterval m := by
        show (t.intervals ++ [t.computeInterval m]).getD t.nodes.length {} = _
        rw [← hwf.intervals, getD_eq_getElem?_getD, getElem?_concat_length]
        rfl
      rw [hnew, computeInterval_congr hn hwidth hint]

theorem WF.intern (hwf : t.WF) (hn : n.Legal t.view.width t.nodes.length) : (t.intern n).2.WF := by
  unfold BVTable.intern
  split
  · exact hwf
  · exact hwf.push hn

theorem wf_empty : (⟨[], []⟩ : BVTable).WF :=
  ⟨rfl, fun id n h => by simp at h, fun id n h => by simp at h⟩

theorem Built.wf (h : t.Built) : t.WF := by
  induction h with
  | init => exact wf_empty.intern ⟨Or.inl rfl, by simp [BVNode.Sorted, Fits], by simp⟩
  | intern _ hn ih => exact ih.intern hn

/-! ## Values -/

theorem evalNode_congr {width : Nat → Nat} {v v' : Nat → U64} (hn : n.Legal width len)
    (vars : List U64) (h : ∀ i < len, v i = v' i) :
    t.evalNode fp vars v n = t.evalNode fp vars v' n := by
  cases n with
  | int n => exact evalWith_congr hn.1 h
  | float n => simp only [evalNode, h _ hn.1, h _ hn.2.1]

theorem WF.val_eq (hwf : t.WF) (hget : t.nodes[id]? = some n) (vars : List U64) :
    t.val fp vars id = t.evalNode fp vars (t.val fp vars) n := by
  have hrun := foldAppend_getElem?
    (fun vals n => t.evalNode fp vars (fun i => vals.getD i 0) n) hget
  have hval : t.val fp vars id =
      t.evalNode fp vars (fun i => ((t.evaluateAll fp vars).take id).getD i 0) n := by
    rw [val, getD_eq_getElem?_getD, evaluateAll, hrun]
    rfl
  rw [hval]
  refine evalNode_congr (hwf.legal id n hget) vars (fun i hi => ?_)
  rw [val, getD_eq_getElem?_getD, getElem?_take_of_lt hi, ← getD_eq_getElem?_getD]

/-- What is known of the operands when the interval of a node is computed. -/
def HoldsBelow (t : BVTable) (fp : FloatArith) (vars : List U64) (len : Nat) : Prop :=
  ∀ i < len, 0 < t.view.width i ∧ t.view.width i ≤ 64 ∧
    (t.view.interval i).Holds (t.view.width i) (t.val fp vars i)

theorem HoldsBelow.and_widthMask {vars : List U64} (h : t.HoldsBelow fp vars len)
    (hid : id < len) (hlen : len ≤ t.nodes.length) (d : Nat) :
    widthAt t.view.nodes id d = t.view.width id ∧
      t.val fp vars id &&& widthMask (t.view.width id) = t.val fp vars id := by
  obtain ⟨-, hle, hiv⟩ := h id hid
  refine ⟨BVContext.widthAt_eq ?_ d, hiv.fits.and_widthMask hle⟩
  rw [length_view]
  omega

theorem int_holds {vars : List U64} {n : BVNode}
    (hn : (BVTableNode.int n).Legal t.view.width len) (hlen : len ≤ t.nodes.length)
    (h : t.HoldsBelow fp vars len) :
    (t.computeInterval (.int n)).Holds n.width (t.evalNode fp vars (t.val fp vars) (.int n)) := by
  obtain ⟨hclosed, hsorted, hpos, hle⟩ := hn
  show (t.view.computeInterval n).Holds n.width (evalWith t.view.nodes vars (t.val fp vars) n)
  by_cases hc : n.op = .const
  · have hval : evalWith t.view.nodes vars (t.val fp vars) n = n.imm &&& widthMask n.width := by
      unfold evalWith
      rw [hc]
    rw [hval]
    simp only [BVContext.computeInterval, hc]
    exact constInterval_holds hpos hle n.imm
  · by_cases hv : n.op = .var
    · have hval : evalWith t.view.nodes vars (t.val fp vars) n =
          vars.getD n.imm.toNat 0 &&& widthMask n.width := by
        unfold evalWith
        rw [hv]
      rw [hval]
      simp only [BVContext.computeInterval, hv]
      exact fullInterval_holds hle (fits_and_widthMask hle _)
    · obtain ⟨ha, hb, hc'⟩ := (hclosed.resolve_left hc).resolve_left hv
      obtain ⟨hwa, hma⟩ := h.and_widthMask ha hlen n.width
      obtain ⟨hwb, hmb⟩ := h.and_widthMask hb hlen n.width
      obtain ⟨hwc, hmc⟩ := h.and_widthMask hc' hlen n.width
      have hval : evalWith t.view.nodes vars (t.val fp vars) n =
          evalOp n (t.view.width n.a) (t.view.width n.b) (t.val fp vars n.a)
            (t.val fp vars n.b) (t.val fp vars n.c) := by
        unfold evalWith
        split
        · contradiction
        · contradiction
        · rw [evalNodeConcrete, hwa, hwb, hwc, hma, hmb, hmc]
      rw [hval]
      exact BVContext.computeInterval_holds_of hsorted hpos hle hc (h _ ha).1 (h _ ha).2.2
        (h _ hb).2.2 (h _ hc').2.2

theorem float_holds {vars : List U64} {n : BVFloatNode}
    (hn : (BVTableNode.float n).Legal t.view.width len) (hlen : len ≤ t.nodes.length)
    (h : t.HoldsBelow fp vars len) :
    (t.computeInterval (.float n)).Holds n.width
      (t.evalNode fp vars (t.val fp vars) (.float n)) := by
  obtain ⟨ha, hb, hw⟩ := hn
  obtain ⟨hwa, hma⟩ := h.and_widthMask ha hlen n.width
  obtain ⟨hwb, hmb⟩ := h.and_widthMask hb hlen n.width
  have hval : t.evalNode fp vars (t.val fp vars) (.float n) =
      fp.evalFloat n (t.view.width n.a) (t.val fp vars n.a) (t.val fp vars n.b) := by
    simp only [evalNode, hwa, hwb, hma, hmb]
  rw [hval]
  exact computeFpInterval_holds hw (h _ ha).1 (h _ ha).2.1 (h _ ha).2.2 (h _ hb).2.2

/-- The intervals of a well-formed table hold: the induction is on the position of the node,
since the interval of a node is computed from those of earlier ones. -/
theorem WF.holds (hwf : t.WF) (vars : List U64) (hid : id < t.nodes.length) :
    (t.view.interval id).Holds (t.view.width id) (t.val fp vars id) := by
  induction id using Nat.strongRecOn with
  | ind id ih =>
    have hget := getElem?_eq_getElem hid
    have hlegal := hwf.legal id _ hget
    have hbelow : t.HoldsBelow fp vars id := by
      intro i hi
      have hi' := hi.trans hid
      have hbounds := (hwf.legal i _ (getElem?_eq_getElem hi')).bounds
      rw [← width_of_getElem? (getElem?_eq_getElem hi')] at hbounds
      exact ⟨hbounds.1, hbounds.2, ih i hi hi'⟩
    rw [hwf.rule id _ hget, hwf.val_eq hget, width_of_getElem? hget]
    cases hn : t.nodes[id] with
    | int n =>
      rw [hn] at hlegal
      exact int_holds hlegal (Nat.le_of_lt hid) hbelow
    | float n =>
      rw [hn] at hlegal
      exact float_holds hlegal (Nat.le_of_lt hid) hbelow

/-- Every interval of a table holds of every value of its node: the bounds, unsigned and
signed, and the known bits. -/
theorem Built.val_holds (h : t.Built) (fp : FloatArith) (vars : List U64)
    (hid : id < t.nodes.length) :
    (t.view.interval id).umin ≤ t.val fp vars id ∧ t.val fp vars id ≤ (t.view.interval id).umax ∧
      (t.view.interval id).smin ≤ signExtendBits (t.val fp vars id) (t.view.width id) ∧
      signExtendBits (t.val fp vars id) (t.view.width id) ≤ (t.view.interval id).smax ∧
      t.val fp vars id &&& (t.view.interval id).knownZeros = 0 ∧
      t.val fp vars id &&& (t.view.interval id).knownOnes = (t.view.interval id).knownOnes := by
  have hget := List.getElem?_eq_getElem hid
  have hbounds := (h.wf.legal id _ hget).bounds
  rw [← width_of_getElem? hget] at hbounds
  have hiv : (t.view.interval id).Holds _ (t.val fp vars id) := h.wf.holds vars hid
  rw [signExtendBits_eq hbounds.1 hbounds.2]
  exact ⟨hiv.umin, hiv.umax, hiv.smin, hiv.smax, and_eq_zero_iff.mpr hiv.zeros,
    and_eq_right_iff.mpr hiv.ones⟩

/-- An arithmetic that is right about the conversion of zero. -/
def zeroArith : FloatArith where
  eval := fun _ _ _ _ _ => 0
  fits := fun _ _ _ _ _ _ _ _ _ => fits_zero
  siToFp_sign := fun _ _ _ _ _ _ => BitVec.getLsbD_zero

def convertedZero : BVTable :=
  ((init.intern (.int { op := .const, width := 32 })).2.intern
    (.float { op := .siToFp, width := 64, a := 1 })).2

theorem Built.val_holds_convertedZero :
    convertedZero.val zeroArith [] 2 ≤ 0x7FFFFFFFFFFFFFFF#64 := by
  have hbuilt : convertedZero.Built :=
    .intern (.intern .init ⟨Or.inl rfl, by simp [BVNode.Sorted, Fits], by simp⟩)
      ⟨by decide, by decide, Or.inr rfl⟩
  exact (hbuilt.val_holds zeroArith [] (show 2 < convertedZero.nodes.length by decide)).2.1

end BVTable

end Brass.Verify.Bv
