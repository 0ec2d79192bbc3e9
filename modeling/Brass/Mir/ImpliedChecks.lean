import Brass.Mir.ValueRange
import Brass.Util.SignedReading
import Mathlib.Data.Finset.Image

/-!
# Comparisons implied by dominating comparisons

The `ImpliedCheckFolder` of `mir/bounds_check_elim.cpp`: the facts that guards and branches
bring into scope, the canonical form of a value under the dominating loads and expressions, and
the three rules by which a comparison is decided from the facts. Values and blocks are their
numbers. The range analysis and `is_load_preserved` are parameters.
-/

namespace Brass.Mir.ImpliedChecks

open Brass.Util

inductive Ty
  | i8
  | i32
  | i64
  | ptr
  | gcref
  | other
  deriving DecidableEq, Repr

def Ty.width : Ty → Nat
  | i8 => 8
  | i32 => 32
  | i64 | ptr | gcref => 64
  | other => 128

def Ty.isPtrOrInt : Ty → Bool
  | i32 | i64 | ptr | gcref => true
  | i8 | other => false

inductive BinOp
  | lshr
  | ashr
  | shl
  | add
  | sub
  | mul
  | and
  deriving DecidableEq, Repr

/-- What defines a value. A patchable constant carries its default. -/
inductive Def
  | const (imm : Int)
  | patchable (imm : Int)
  | sext (a : Nat)
  | zext (a : Nat)
  | trunc (a : Nat)
  | bin (op : BinOp) (a b : Nat)
  | or (a b : Nat)
  | load (base : Nat) (offset : Int) (memTy : Ty)
  | cmp (op : Comparison) (a b : Nat)
  | other
  deriving DecidableEq, Repr

structure Fact where
  op : Comparison
  lhs : Nat
  rhs : Nat
  witness : Option Nat := none
  deriving DecidableEq, Repr

structure DomExpr where
  op : BinOp
  type : Ty
  op0 : Nat
  op1 : Nat
  result : Nat
  deriving DecidableEq, Repr

/-- The values of a function, with the answers of the range analysis and the alias analysis;
`count` bounds the number of values. -/
structure Values where
  ty : Nat → Ty
  defn : Nat → Def
  blockOf : Nat → Nat
  count : Nat
  rangeAt : Nat → Nat → ValueRange
  isLoadPreserved : Nat → Nat → Bool

/-- What is in scope at a point of the dominator tree walk. -/
structure Scope where
  facts : List Fact := []
  domLoads : List Nat := []
  domExprs : List DomExpr := []

/-! ## Predicates -/

inductive Order
  | either
  | signed
  | unsigned
  deriving DecidableEq, Repr

/-- The orderings that a comparison accepts, and the order in which it reads its operands. -/
structure Predicate where
  accepts : Finset Ordering
  order : Order
  deriving DecidableEq

def predicateOf : Comparison → Predicate
  | .eq => ⟨{.eq}, .either⟩
  | .ne => ⟨{.lt, .gt}, .either⟩
  | .slt => ⟨{.lt}, .signed⟩
  | .sle => ⟨{.lt, .eq}, .signed⟩
  | .sgt => ⟨{.gt}, .signed⟩
  | .sge => ⟨{.gt, .eq}, .signed⟩
  | .ult => ⟨{.lt}, .unsigned⟩
  | .ule => ⟨{.lt, .eq}, .unsigned⟩
  | .ugt => ⟨{.gt}, .unsigned⟩
  | .uge => ⟨{.gt, .eq}, .unsigned⟩

def swapSides (accepts : Finset Ordering) : Finset Ordering := accepts.image Ordering.swap

/-- What the allowed orderings say about a check. -/
def decides (allowed accepts : Finset Ordering) : Option Bool :=
  if allowed ⊆ accepts then some true
  else if allowed ∩ accepts = ∅ then some false
  else none

def impliedBy (fact : Fact) (checkOp : Comparison) (x y : Nat) (bothNonNegative : Bool) :
    Option Bool :=
  let known := predicateOf fact.op
  let check := predicateOf checkOp
  let allowed :=
    if fact.lhs = x ∧ fact.rhs = y then some known.accepts
    else if fact.lhs = y ∧ fact.rhs = x then some (swapSides known.accepts)
    else none
  if known.order ≠ .either ∧ check.order ≠ .either ∧ known.order ≠ check.order ∧
      bothNonNegative = false then none
  else allowed.bind fun allowed => decides allowed check.accepts

/-! ## Canonical forms -/

section Folder

variable (p : Values) (sc : Scope)

/-- A patchable constant is read as its default. -/
def getConstInt (v : Nat) : Option Int :=
  match p.defn v with
  | .const imm | .patchable imm => some imm
  | _ => none

def isNonNegative (v bb : Nat) : Bool :=
  let r := p.rangeAt v bb
  !r.isEmpty && decide (0 ≤ r.minVal)

/-- Sign and zero extensions of numbers that are not negative are looked through. -/
def stripExtensions (bb : Nat) : Nat → Nat → Nat
  | 0, v => v
  | fuel + 1, v =>
    match p.defn v with
    | .sext a | .zext a => if isNonNegative p a bb then stripExtensions bb fuel a else v
    | _ => v

def loadBase (l : Nat) : Nat :=
  match p.defn l with
  | .load base _ _ => base
  | _ => l

/-- The dominating loads of the offset and types of the load `v`. -/
def loadBucket (v : Nat) (offset : Int) (memTy : Ty) : List Nat :=
  sc.domLoads.filter fun l =>
    match p.defn l with
    | .load _ o m => o = offset ∧ m = memTy ∧ p.ty l = p.ty v
    | _ => false

def sameOperand (a b : Nat) : Bool :=
  a == b || ((getConstInt p b).isSome && getConstInt p a == getConstInt p b)

/-- The recursion is cut off after six levels; the first argument counts those left. -/
def canonicalizeAt : Nat → Nat → Nat → Nat
  | 0, v, _ => v
  | depth + 1, w, bb =>
    let v := stripExtensions p bb p.count w
    match p.defn v with
    | .load base offset memTy =>
      if 0 ≤ offset ∧ offset ≤ 64 then
        let cBase := canonicalizeAt depth base bb
        -- The scan stops at the load itself, which is one of them once it is seen.
        let found := ((loadBucket p sc v offset memTy).takeWhile (· ≠ v)).find? fun l =>
          canonicalizeAt depth (loadBase p l) (p.blockOf l) = cBase && p.isLoadPreserved l v
        found.getD v
      else v
    | .bin op a b =>
      let c0 := canonicalizeAt depth a bb
      let c1 := canonicalizeAt depth b bb
      let found := sc.domExprs.find? fun e =>
        (e.op = op ∧ e.type = p.ty v ∧ e.op0 = c0) && sameOperand p e.op1 c1
      (found.map (·.result)).getD v
    | _ => v

def canonicalize (v bb : Nat) : Nat := canonicalizeAt p sc 7 v bb

/-! ## Facts -/

def isIntComparison (v : Nat) : Option (Comparison × Nat × Nat) :=
  match p.defn v with
  | .cmp op a b => if (p.ty a).isPtrOrInt && (p.ty b).isPtrOrInt then some (op, a, b) else none
  | _ => none

def isBoolExpr : Nat → Nat → Bool
  | 0, _ => false
  | depth + 1, v =>
    if (isIntComparison p v).isSome then true
    else
      match getConstInt p v, p.defn v with
      | some c, _ => c = 0 || c = 1
      | none, .bin .and a b => isBoolExpr depth a && isBoolExpr depth b
      | none, .or a b => isBoolExpr depth a && isBoolExpr depth b
      | none, _ => false

/-- The facts that `cond` brings when it is known to be true or false; `fuel` bounds the depth
of the condition. -/
def edgeFacts (onTrue : Bool) (bb : Nat) : Nat → Nat → List Fact
  | 0, _ => []
  | fuel + 1, cond =>
    match isIntComparison p cond with
    | some (op, a, b) =>
      [{ op := if onTrue then op else op.invert
         lhs := canonicalize p sc a bb
         rhs := canonicalize p sc b bb
         witness := some cond }]
    | none =>
      match p.defn cond with
      | .bin .and a b =>
        if onTrue && isBoolExpr p 7 cond then
          edgeFacts onTrue bb fuel a ++ edgeFacts onTrue bb fuel b
        else []
      | .or a b =>
        if onTrue then [] else edgeFacts onTrue bb fuel a ++ edgeFacts onTrue bb fuel b
      | _ => []

def collectEdgeFacts (cond : Nat) (onTrue : Bool) (bb : Nat) : Scope :=
  { sc with facts := sc.facts ++ edgeFacts p sc onTrue bb p.count cond }

def pushLoad (l : Nat) : Scope := { sc with domLoads := sc.domLoads ++ [l] }

def pushExpr (op : BinOp) (a b v bb : Nat) : Scope :=
  { sc with
    domExprs := sc.domExprs ++
      [{ op, type := p.ty v, op0 := canonicalize p sc a bb, op1 := canonicalize p sc b bb
         result := v }] }

/-! ## Shifted values and length bounds -/

/-- A value that is another one times two, four, eight or sixteen: that value in canonical form
and the shift. -/
def matchShifted (v bb : Nat) : Option (Nat × Nat) :=
  match p.defn v with
  | .bin .shl a b =>
    (getConstInt p b).bind fun c =>
      if 1 ≤ c ∧ c ≤ 4 then some (canonicalize p sc a bb, c.toNat) else none
  | .bin .mul a b =>
    let scaled := ((getConstInt p b).map fun c => (a, c)).orElse fun _ =>
      (getConstInt p a).map fun c => (b, c)
    scaled.bind fun (idx, c) =>
      if c = 2 then some (canonicalize p sc idx bb, 1)
      else if c = 4 then some (canonicalize p sc idx bb, 2)
      else if c = 8 then some (canonicalize p sc idx bb, 3)
      else if c = 16 then some (canonicalize p sc idx bb, 4)
      else none
  | _ => none

def canShiftWithoutOverflow (shiftedVal idx shift bb : Nat) : Bool :=
  let r := p.rangeAt idx bb
  let maxSafe := (if p.ty shiftedVal = .i32 then 2 ^ 31 - 1 else int64Max) / 2 ^ shift
  !r.isEmpty && decide (0 ≤ r.minVal) && decide (r.maxVal ≤ maxSafe)

/-- The length under its extensions and truncations that change nothing. -/
def stripLength (bb : Nat) : Nat → Nat → Nat
  | 0, v => v
  | fuel + 1, v =>
    match p.defn v with
    | .sext a | .zext a =>
      if isNonNegative p a bb then stripLength bb fuel (canonicalize p sc a bb) else v
    | .trunc a =>
      let r := p.rangeAt a bb
      if !r.isEmpty && decide (0 ≤ r.minVal) && decide (r.maxVal ≤ 2 ^ 31 - 1) then
        stripLength bb fuel (canonicalize p sc a bb)
      else v
    | _ => v

/-- The value is `bytes` of the type shifted right by `shift`, in either way of shifting. -/
def isShiftOf (v cbl shift : Nat) (type : Ty) (bb : Nat) : Bool :=
  match p.defn v with
  | .bin .lshr a b | .bin .ashr a b =>
    p.ty v = type ∧ getConstInt p b = some (shift : Int) ∧ canonicalize p sc a bb = cbl
  | _ => false

/-- The value is the truncation of `bytes` shifted right by `shift`. -/
def isTruncatedShiftOf (v cbl shift : Nat) (type : Ty) (bb : Nat) : Bool :=
  match p.defn v with
  | .trunc a =>
    match p.defn a with
    | .bin .lshr inner b =>
      type = .i64 ∧ p.ty a = .i64 ∧ getConstInt p b = some (shift : Int) ∧
        canonicalize p sc inner bb = cbl
    | _ => false
  | _ => false

/-- `v` is `cn` shifted left by `shift`, and nothing is lost. -/
def isScaled (v cn shift : Nat) (type : Ty) (bb : Nat) : Bool :=
  p.ty v = type && matchShifted p sc v bb == some (cn, shift) &&
    canShiftWithoutOverflow p v cn shift bb

def isBoundFact (f : Fact) (cn cbl shift : Nat) (type : Ty) (bb : Nat) : Bool :=
  (isShiftOf p sc f.rhs cbl shift type bb &&
    impliedBy f .ule cn f.rhs (isNonNegative p cn bb && isNonNegative p f.rhs bb) == some true) ||
  (isScaled p sc f.lhs cn shift type bb &&
    impliedBy f .ule f.lhs cbl (isNonNegative p f.lhs bb && isNonNegative p cbl bb) == some true)

def isLengthBound (n byteLen shift : Nat) (type : Ty) (bb : Nat) : Bool :=
  let cn := stripLength p sc bb p.count (canonicalize p sc n bb)
  let cbl := canonicalize p sc byteLen bb
  isTruncatedShiftOf p sc cn cbl shift type bb || isShiftOf p sc cn cbl shift type bb ||
    isScaled p sc cbl cn shift type bb ||
    sc.facts.any fun f => isBoundFact p sc f cn cbl shift type bb

/-! ## The check -/

/-- A fact about a constant equal to the right operand is a fact about that operand. -/
def atConstant (rawY y : Nat) (f : Fact) : Fact :=
  if (getConstInt p rawY).isSome ∧ getConstInt p f.rhs = getConstInt p rawY then
    { f with rhs := y }
  else f

def direct (op : Comparison) (x y rawY : Nat) (bothNonNegative : Bool) : Option Bool :=
  sc.facts.reverse.findSome? fun f => impliedBy (atConstant p rawY y f) op x y bothNonNegative

/-- The other side of a fact that `x` is not above it, with whether it is below; `op` is `ule`
for the transitive rule and `ult` for the shifted one. -/
def boundedBy (op : Comparison) (f : Fact) (x bb : Nat) : Option (Nat × Bool) :=
  if f.lhs = x ∧ impliedBy f op x f.rhs (isNonNegative p f.rhs bb) = some true then
    some (f.rhs, impliedBy f .ult x f.rhs (isNonNegative p f.rhs bb) == some true)
  else if f.rhs = x ∧ impliedBy f op x f.lhs (isNonNegative p f.lhs bb) = some true then
    some (f.lhs, impliedBy f .ult x f.lhs (isNonNegative p f.lhs bb) == some true)
  else none

def transitive (op : Comparison) (x y : Nat) (yNonNeg : Bool) (bb : Nat) : Option Bool :=
  sc.facts.findSome? fun f1 => (boundedBy p .ule f1 x bb).bind fun (mid, strict1) =>
    let both := isNonNegative p mid bb && yNonNeg
    sc.facts.findSome? fun f2 =>
      if impliedBy f2 .ule mid y both = some true then
        let strict2 := impliedBy f2 .ult mid y both == some true
        decides (if strict1 || strict2 then {.lt} else {.lt, .eq}) (predicateOf op).accepts
      else none

/-- The bound is an arithmetic shift, which is taken for enough to answer a signed check. -/
def signedSafe (n bb : Nat) : Bool :=
  match p.defn (canonicalize p sc n bb) with
  | .bin .ashr _ _ => true
  | _ => false

def shifted (op : Comparison) (rawX y : Nat) (yNonNeg : Bool) (bb : Nat) : Option Bool :=
  (matchShifted p sc rawX bb).bind fun (idx, shift) =>
    if isNonNegative p idx bb then
      sc.facts.findSome? fun f => (boundedBy p .ult f idx bb).bind fun (n, _) =>
        if isLengthBound p sc n y shift (p.ty rawX) bb then
          if (predicateOf op).order = .signed ∧ yNonNeg = false ∧ signedSafe p sc n bb = false then
            none
          else decides {.lt} (predicateOf op).accepts
        else none
    else none

/-- The right operand as the rules see it: a constant stands for itself. -/
def rightOperand (rawY bb : Nat) : Nat :=
  if (getConstInt p rawY).isSome then rawY else canonicalize p sc rawY bb

def operandNonNeg (raw bb : Nat) : Bool :=
  isNonNegative p raw bb || isNonNegative p (canonicalize p sc raw bb) bb

/-- The rules in the order in which they are asked. -/
def checkDirect (op : Comparison) (rawX rawY bb : Nat) : Option Bool :=
  direct p sc op (canonicalize p sc rawX bb) (rightOperand p sc rawY bb) rawY
    (operandNonNeg p sc rawX bb && operandNonNeg p sc rawY bb)

def checkTransitive (op : Comparison) (rawX rawY bb : Nat) : Option Bool :=
  if operandNonNeg p sc rawX bb then
    transitive p sc op (canonicalize p sc rawX bb) (rightOperand p sc rawY bb)
      (operandNonNeg p sc rawY bb) bb
  else none

def checkShifted (op : Comparison) (rawX rawY bb : Nat) : Option Bool :=
  shifted p sc op rawX (rightOperand p sc rawY bb) (operandNonNeg p sc rawY bb) bb

def checkImplied (op : Comparison) (rawX rawY bb : Nat) : Option Bool :=
  ((checkDirect p sc op rawX rawY bb).or (checkTransitive p sc op rawX rawY bb)).or
    (checkShifted p sc op rawX rawY bb)

end Folder

end Brass.Mir.ImpliedChecks
