import Brass.Verify.BvNode

/-!
# The node table

`BVContext` of `verify/bv_solver.cpp`: nodes are interned, and each has the interval that
`computeInterval` derives from the intervals of its operands. The floating-point facts of an
interval concern no integer operator and are left out.
-/

namespace Brass.Verify.Bv

/-- Bounds of a value, unsigned and signed, and the bits that are known. -/
structure BVInterval where
  umin : U64 := 0
  umax : U64 := BitVec.allOnes 64
  smin : Int := -(2 ^ 63)
  smax : Int := 2 ^ 63 - 1
  knownZeros : U64 := 0
  knownOnes : U64 := 0
  deriving DecidableEq, Repr

structure BVVarInfo where
  name : String
  width : Nat
  nodeId : Nat
  isFloat : Bool
  deriving DecidableEq, Repr

structure BVContext where
  nodes : List BVNode
  intervals : List BVInterval
  vars : List BVVarInfo
  memo : BVNode → Option Nat

namespace BVContext

def node (ctx : BVContext) (id : Nat) : BVNode := ctx.nodes.getD id ⟨.const, 64, 0, 0, 0, 0, 0⟩

def interval (ctx : BVContext) (id : Nat) : BVInterval := ctx.intervals.getD id {}

def width (ctx : BVContext) (id : Nat) : Nat := (ctx.node id).width

end BVContext

/-! ## Intervals -/

/-- `a + b ≥ lo`, without overflow. -/
def sumAtLeast (a b lo : Int) : Bool :=
  if b > 0 ∧ a > 2 ^ 63 - 1 - b then true
  else if b < 0 ∧ a < -(2 ^ 63) - b then false
  else a + b ≥ lo

/-- `a + b ≤ hi`, without overflow. -/
def sumAtMost (a b hi : Int) : Bool :=
  if b > 0 ∧ a > 2 ^ 63 - 1 - b then false
  else if b < 0 ∧ a < -(2 ^ 63) - b then true
  else a + b ≤ hi

def usumAtMost (a b m : U64) : Bool := a ≤ m && b ≤ m - a

def umin (a b : U64) : U64 := if b < a then b else a

def umax (a b : U64) : U64 := if a < b then b else a

/-- The bits that a value of at most `x` can have. -/
def bitsMask (x : U64) : U64 := widthMask (if x = 0 then 0 else 64 - countlZero x)

def signBit (w : Nat) : U64 := if w ≥ 64 then 1#64 <<< 63 else 1#64 <<< (w - 1)

/-- What the width alone says. -/
def fullInterval (w : Nat) : BVInterval where
  umin := 0
  umax := widthMask w
  smin := minSigned w
  smax := maxSigned w
  knownZeros := ~~~widthMask w
  knownOnes := 0

/-- A value whose sign bit is known to be zero is its own signed value. -/
def nonNegative (w : Nat) (iv : BVInterval) : BVInterval :=
  if iv.knownZeros &&& signBit w ≠ 0 then
    { iv with smin := iv.umin.toInt, smax := iv.umax.toInt }
  else iv

def constInterval (w : Nat) (imm : U64) : BVInterval :=
  let c := imm &&& widthMask w
  let sc := signExtendBits c w
  { umin := c, umax := c, smin := sc, smax := sc, knownZeros := ~~~c, knownOnes := c }

def extractInterval (w lo : Nat) (a : BVInterval) : BVInterval :=
  let m := widthMask w
  let zeros := ((a.knownZeros >>> lo) &&& m) ||| ~~~m
  let ones := (a.knownOnes >>> lo) &&& m
  nonNegative w
    { fullInterval w with
      umin := ones, umax := m &&& ~~~zeros, knownZeros := zeros, knownOnes := ones }

def zextInterval (w aw : Nat) (a : BVInterval) : BVInterval :=
  let am := widthMask aw
  let lo := a.umin &&& am
  let hi := a.umax &&& am
  { umin := lo
    umax := hi
    smin := if aw < w then lo.toInt else minSigned w
    smax := if aw < w then hi.toInt else maxSigned w
    knownZeros := a.knownZeros ||| ~~~am ||| ~~~bitsMask hi
    knownOnes := a.knownOnes &&& am }

def sextInterval (w : Nat) (a : BVInterval) : BVInterval :=
  let iv := { fullInterval w with smin := a.smin, smax := a.smax }
  if a.smin ≥ 0 then
    { iv with
      umin := BitVec.ofInt 64 a.smin
      umax := BitVec.ofInt 64 a.smax
      knownZeros := a.knownZeros ||| ~~~bitsMask (BitVec.ofInt 64 a.smax) }
  else if a.smax < 0 then
    { iv with
      umin := BitVec.ofInt 64 a.smin &&& widthMask w
      umax := BitVec.ofInt 64 a.smax &&& widthMask w }
  else iv

def andInterval (w : Nat) (a b : BVInterval) : BVInterval :=
  let m := widthMask w
  let zeros := a.knownZeros ||| b.knownZeros
  let ones := a.knownOnes &&& b.knownOnes
  nonNegative w
    { fullInterval w with
      umin := ones
      umax := umin (umin a.umax b.umax) (m &&& ~~~zeros)
      knownZeros := zeros
      knownOnes := ones }

def orInterval (w : Nat) (a b : BVInterval) : BVInterval :=
  let zeros := a.knownZeros &&& b.knownZeros
  let ones := a.knownOnes ||| b.knownOnes
  { fullInterval w with
    umin := umax (umax a.umin b.umin) ones
    umax := widthMask w &&& ~~~zeros
    knownZeros := zeros
    knownOnes := ones }

def lshrInterval (w : Nat) (a b : BVInterval) : BVInterval :=
  let sh := (b.umin &&& BitVec.ofNat 64 (shiftMask w)).toNat
  if b.umin = b.umax ∧ sh > 0 ∧ sh < w then
    let lo := a.umin >>> sh
    let hi := a.umax >>> sh
    let lowMask := widthMask (w - sh)
    { umin := lo
      umax := hi
      smin := lo.toInt
      smax := hi.toInt
      knownZeros := (a.knownZeros >>> sh) ||| ~~~lowMask
      knownOnes := (a.knownOnes >>> sh) &&& lowMask }
  else fullInterval w

def shlInterval (w : Nat) (a b : BVInterval) : BVInterval :=
  let m := widthMask w
  let sh := (b.umin &&& BitVec.ofNat 64 (shiftMask w)).toNat
  if b.umin = b.umax ∧ sh < w then
    let exact := sh = 0 ∨ a.umax ≤ m >>> sh
    let lo := a.smin * 2 ^ sh
    let hi := a.smax * 2 ^ sh
    let signed := w + sh < 63 ∧ lo ≥ -(2 ^ (w - 1)) ∧ hi ≤ 2 ^ (w - 1) - 1
    { umin := if exact then (a.umin <<< sh) &&& m else 0
      umax := if exact then (a.umax <<< sh) &&& m else m
      smin := if signed then lo else minSigned w
      smax := if signed then hi else maxSigned w
      knownZeros := ((a.knownZeros <<< sh) ||| widthMask sh) ||| ~~~m
      knownOnes := (a.knownOnes <<< sh) &&& m }
  else fullInterval w

def addUnsigned (w : Nat) (a b : BVInterval) : BVInterval :=
  let m := widthMask w
  if usumAtMost a.umin b.umin m && usumAtMost a.umax b.umax m then
    { fullInterval w with
      umin := a.umin + b.umin
      umax := a.umax + b.umax
      knownZeros := ~~~bitsMask (a.umax + b.umax) }
  else fullInterval w

def addInterval (w : Nat) (a b : BVInterval) : BVInterval :=
  let m := widthMask w
  let iv := addUnsigned w a b
  if sumAtLeast a.smin b.smin (minSigned w) && sumAtMost a.smax b.smax (maxSigned w) then
    let lo := a.smin + b.smin
    let hi := a.smax + b.smax
    let iv := { iv with smin := lo, smax := hi }
    if lo ≥ 0 then
      let top := umin iv.umax (BitVec.ofInt 64 hi)
      { iv with
        umin := umax iv.umin (BitVec.ofInt 64 lo)
        umax := top
        knownZeros := iv.knownZeros ||| ~~~bitsMask top }
    else if hi < 0 then
      { iv with
        umin := umax iv.umin (BitVec.ofInt 64 lo &&& m)
        umax := umin iv.umax (BitVec.ofInt 64 hi &&& m) }
    else iv
  else iv

def mulInterval (w : Nat) (a b : BVInterval) : BVInterval :=
  if a.smin ≥ 0 ∧ b.smin ≥ 0 ∧
      (a.smax = 0 ∨ b.smax = 0 ∨ a.smax ≤ (maxSigned w).tdiv b.smax) then
    let lo := a.smin * b.smin
    let hi := a.smax * b.smax
    { fullInterval w with
      umin := BitVec.ofInt 64 lo
      umax := BitVec.ofInt 64 hi
      smin := lo
      smax := hi
      knownZeros := ~~~bitsMask (BitVec.ofInt 64 hi) }
  else fullInterval w

def iteInterval (t f : BVInterval) : BVInterval where
  umin := umin t.umin f.umin
  umax := umax t.umax f.umax
  smin := if f.smin < t.smin then f.smin else t.smin
  smax := if t.smax < f.smax then f.smax else t.smax
  knownZeros := t.knownZeros &&& f.knownZeros
  knownOnes := t.knownOnes &&& f.knownOnes

namespace BVContext

def computeInterval (ctx : BVContext) (n : BVNode) : BVInterval :=
  match n.op with
  | .const => constInterval n.width n.imm
  | .extract => extractInterval n.width n.extra (ctx.interval n.a)
  | .zext => zextInterval n.width (ctx.width n.a) (ctx.interval n.a)
  | .sext => sextInterval n.width (ctx.interval n.a)
  | .and => andInterval n.width (ctx.interval n.a) (ctx.interval n.b)
  | .or => orInterval n.width (ctx.interval n.a) (ctx.interval n.b)
  | .lshr => lshrInterval n.width (ctx.interval n.a) (ctx.interval n.b)
  | .shl => shlInterval n.width (ctx.interval n.a) (ctx.interval n.b)
  | .add =>
    if n.width ≤ 64 then addInterval n.width (ctx.interval n.a) (ctx.interval n.b)
    else fullInterval n.width
  | .mul =>
    if n.width ≤ 64 then mulInterval n.width (ctx.interval n.a) (ctx.interval n.b)
    else fullInterval n.width
  | .ite => iteInterval (ctx.interval n.b) (ctx.interval n.c)
  | _ => fullInterval n.width

def push (ctx : BVContext) (n : BVNode) : BVContext :=
  { ctx with
    nodes := ctx.nodes ++ [n]
    intervals := ctx.intervals ++ [ctx.computeInterval n]
    memo := Function.update ctx.memo n (some ctx.nodes.length) }

/-- `intern`: a node that exists already is shared. -/
def intern (ctx : BVContext) (n : BVNode) : Nat × BVContext :=
  match ctx.memo n with
  | some id => (id, ctx)
  | none => (ctx.nodes.length, ctx.push n)

def empty : BVContext := ⟨[], [], [], fun _ => none⟩

/-- The constructor: node 0 is the constant 0 of width 1. -/
def init : BVContext := (empty.intern { op := .const, width := 1 }).2

def makeConst (ctx : BVContext) (val : U64) (width : Nat) : Nat × BVContext :=
  ctx.intern { op := .const, width := width, imm := val &&& widthMask width }

def makeVar (ctx : BVContext) (name : String) (width : Nat) (isFloat : Bool) : Nat × BVContext :=
  let r := ctx.intern { op := .var, width := width, imm := BitVec.ofNat 64 ctx.vars.length }
  (r.1, { r.2 with vars := r.2.vars ++ [⟨name, width, r.1, isFloat⟩] })

end BVContext

end Brass.Verify.Bv
