import Mathlib.Data.BitVec

/-!
# Bit-vector nodes

The nodes of `BVContext` (`verify/bv_solver.hpp`) and their concrete evaluation
(`verify/bv_concrete_search.cpp`), restricted to the integer operators. A node names its
operands by their position in the vector of nodes, and the operands of a node come before
it. A `uint64_t` is a `BitVec 64`; an `int64_t` is an `Int`, because none of the signed
computations of the source overflows.
-/

namespace Brass.Verify.Bv

abbrev U64 := BitVec 64

inductive BVOp where
  | const | var | extract | concat | zext | sext
  | not | neg | and | or | xor | add | sub | mul
  | udiv | sdiv | urem | srem
  | shl | lshr | ashr
  | eq | ne | ult | ule | ugt | uge | slt | sle | sgt | sge
  | ite | clz | ctz | popcnt
  | saddOvf | ssubOvf | smulOvf | uaddOvf | usubOvf | umulOvf
  deriving DecidableEq, Repr

/-- `imm` is the value of a constant, the index of a variable or the high bit of an
extraction; `extra` is the low bit of an extraction or the number of bits of an extension. -/
structure BVNode where
  op : BVOp
  width : Nat
  a : Nat := 0
  b : Nat := 0
  c : Nat := 0
  imm : U64 := 0
  extra : Nat := 0
  deriving DecidableEq, Repr

/-! ## Machine words -/

def widthMask (w : Nat) : U64 :=
  if w = 0 then 0 else if w ≥ 64 then BitVec.allOnes 64 else (1#64 <<< w) - 1

def signExtendBits (v : U64) (w : Nat) : Int :=
  if w = 0 then 0
  else if w ≥ 64 then v.toInt
  else
    let m := widthMask w
    let v := v &&& m
    if v &&& (1#64 <<< (w - 1)) ≠ 0 then (v ||| ~~~m).toInt else v.toInt

/-- The loop `while (p < w) p <<= 1`. -/
def powerAbove (w : Nat) : Nat → Nat → Nat
  | 0, p => p
  | fuel + 1, p => if p < w then powerAbove w fuel (2 * p) else p

def shiftMask (w : Nat) : Nat := if w ≤ 1 then 0 else powerAbove w 32 1 - 1

def countlZero (x : U64) : Nat := (List.range 64).findIdx (fun i => x.getLsbD (63 - i))

def countrZero (x : U64) : Nat := (List.range 64).findIdx (fun i => x.getLsbD i)

def popcount (x : U64) : Nat := (List.range 64).countP (fun i => x.getLsbD i)

def hasSingleBit (x : U64) : Bool := (List.range 64).any (fun k => x == 1#64 <<< k)

def ofBool (b : Bool) : U64 := if b then 1 else 0

def minSigned (w : Nat) : Int := if w ≥ 64 then -(2 ^ 63) else -(2 ^ (w - 1))

def maxSigned (w : Nat) : Int := if w ≥ 64 then 2 ^ 63 - 1 else 2 ^ (w - 1) - 1

def mulU64Overflow (a b : U64) : Bool := a != 0 && b != 0 && (a * b) / a != b

def mulS64Overflow (a b : Int) : Bool :=
  if a = 0 ∨ b = 0 then false
  else if (a = -1 ∧ b = -(2 ^ 63)) ∨ (b = -1 ∧ a = -(2 ^ 63)) then true
  else if a > 0 then
    if b > 0 then a > (2 ^ 63 - 1 : Int).tdiv b else b < (-(2 ^ 63) : Int).tdiv a
  else if b > 0 then a < (-(2 ^ 63) : Int).tdiv b
  else a < (2 ^ 63 - 1 : Int).tdiv b

/-! ## Concrete evaluation -/

/-- `nodes_[id].width`, or a default for an operand that does not exist. -/
def widthAt (nodes : List BVNode) (id default : Nat) : Nat :=
  match nodes[id]? with
  | some n => n.width
  | none => default

/-- The value of an operator on operands that are masked to their widths: `w` is the width
of the node, `aw` and `bw` those of its first two operands. -/
def evalOp (n : BVNode) (aw bw : Nat) (va vb vc : U64) : U64 :=
  let w := n.width
  let m := widthMask w
  let am := widthMask aw
  let sh := (vb &&& BitVec.ofNat 64 (shiftMask w)).toNat
  match n.op with
  | .const => n.imm &&& m
  | .var => va &&& m
  | .extract => (va >>> n.extra) &&& m
  | .concat => ((va <<< bw) ||| (vb &&& widthMask bw)) &&& m
  | .zext => va &&& m
  | .sext => BitVec.ofInt 64 (signExtendBits va aw) &&& m
  | .not => ~~~va &&& m
  | .neg => (~~~va + 1) &&& m
  | .and => (va &&& vb) &&& m
  | .or => (va ||| vb) &&& m
  | .xor => (va ^^^ vb) &&& m
  | .add => (va + vb) &&& m
  | .sub => (va - vb) &&& m
  | .mul => (va * vb) &&& m
  | .udiv => if vb = 0 then 0 else (va / vb) &&& m
  | .urem => if vb = 0 then 0 else (va % vb) &&& m
  | .sdiv =>
    if vb = 0 then 0
    else
      let sa := signExtendBits va w
      let sb := signExtendBits vb w
      if sa = minSigned w ∧ sb = -1 then BitVec.ofInt 64 (minSigned w) &&& m
      else BitVec.ofInt 64 (sa.tdiv sb) &&& m
  | .srem =>
    if vb = 0 then 0
    else
      let sa := signExtendBits va w
      let sb := signExtendBits vb w
      if sa = minSigned w ∧ sb = -1 then 0 else BitVec.ofInt 64 (sa.tmod sb) &&& m
  | .shl => (va <<< sh) &&& m
  | .lshr => (va >>> sh) &&& m
  | .ashr => BitVec.ofInt 64 (signExtendBits va w >>> sh) &&& m
  | .eq => ofBool (va == vb)
  | .ne => ofBool (va != vb)
  | .ult => ofBool (va < vb)
  | .ule => ofBool (va ≤ vb)
  | .ugt => ofBool (va > vb)
  | .uge => ofBool (va ≥ vb)
  | .slt => ofBool (signExtendBits va aw < signExtendBits vb aw)
  | .sle => ofBool (signExtendBits va aw ≤ signExtendBits vb aw)
  | .sgt => ofBool (signExtendBits va aw > signExtendBits vb aw)
  | .sge => ofBool (signExtendBits va aw ≥ signExtendBits vb aw)
  | .ite => if va ≠ 0 then vb &&& m else vc &&& m
  | .clz =>
    -- The difference is computed in `uint32_t`.
    (if va = 0 then BitVec.ofNat 64 w
      else (BitVec.ofNat 32 (countlZero va) - (64#32 - BitVec.ofNat 32 w)).setWidth 64) &&& m
  | .ctz => (if va = 0 then BitVec.ofNat 64 w else BitVec.ofNat 64 (countrZero va)) &&& m
  | .popcnt => BitVec.ofNat 64 (popcount (va &&& m)) &&& m
  | .uaddOvf => ofBool (((va + vb) &&& am) < va)
  | .usubOvf => ofBool (va < vb)
  | .umulOvf => if aw ≤ 32 then ofBool (va * vb > am) else ofBool (mulU64Overflow va vb)
  | .saddOvf =>
    let sa := signExtendBits va aw
    let sb := signExtendBits vb aw
    let sr := signExtendBits (va + vb) aw
    ofBool ((sa ≥ 0 ∧ sb ≥ 0 ∧ sr < 0) ∨ (sa < 0 ∧ sb < 0 ∧ sr ≥ 0))
  | .ssubOvf =>
    let sa := signExtendBits va aw
    let sb := signExtendBits vb aw
    let sr := signExtendBits (va - vb) aw
    ofBool ((sa ≥ 0 ∧ sb < 0 ∧ sr < 0) ∨ (sa < 0 ∧ sb ≥ 0 ∧ sr ≥ 0))
  | .smulOvf =>
    let sa := signExtendBits va aw
    let sb := signExtendBits vb aw
    if aw ≤ 32 then ofBool (sa * sb < -(2 ^ (aw - 1)) ∨ sa * sb > 2 ^ (aw - 1) - 1)
    else ofBool (mulS64Overflow sa sb)

def evalNodeConcrete (nodes : List BVNode) (n : BVNode) (va vb vc : U64) : U64 :=
  evalOp n (widthAt nodes n.a n.width) (widthAt nodes n.b n.width)
    (va &&& widthMask (widthAt nodes n.a n.width)) (vb &&& widthMask (widthAt nodes n.b n.width))
    (vc &&& widthMask (widthAt nodes n.c n.width))

def evalNext (nodes : List BVNode) (varValues vals : List U64) (n : BVNode) : U64 :=
  match n.op with
  | .var => varValues.getD n.imm.toNat 0 &&& widthMask n.width
  | .const => n.imm &&& widthMask n.width
  | _ => evalNodeConcrete nodes n (vals.getD n.a 0) (vals.getD n.b 0) (vals.getD n.c 0)

def evaluateAll (nodes : List BVNode) (varValues : List U64) : List U64 :=
  nodes.foldl (fun vals n => vals ++ [evalNext nodes varValues vals n]) []

def evalConcrete (nodes : List BVNode) (root : Nat) (varValues : List U64) : U64 :=
  (evaluateAll nodes varValues).getD root 0

end Brass.Verify.Bv
