import Mathlib.Tactic.Ring

/-!
# Value ranges

A range of 64-bit values in their signed reading, and what a comparison that is known to hold
says about the ranges of its operands.
-/

namespace Brass.Mir

def int64Min : Int := -2 ^ 63
def int64Max : Int := 2 ^ 63 - 1

def satAdd (a b : Int) : Int := max int64Min (min int64Max (a + b))
def satSub (a b : Int) : Int := max int64Min (min int64Max (a - b))

structure ValueRange where
  minVal : Int
  maxVal : Int
  deriving DecidableEq, Repr

namespace ValueRange

def isConstant (r : ValueRange) : Bool := r.minVal == r.maxVal
def isEmpty (r : ValueRange) : Bool := decide (r.maxVal < r.minVal)

def constant (c : Int) : ValueRange := ⟨c, c⟩
def full : ValueRange := ⟨int64Min, int64Max⟩
def empty : ValueRange := ⟨1, 0⟩
def fullI32 : ValueRange := ⟨-2 ^ 31, 2 ^ 31 - 1⟩

def intersectWith (r other : ValueRange) : ValueRange :=
  if r.isEmpty then r
  else if other.isEmpty then empty
  else ⟨max r.minVal other.minVal, min r.maxVal other.maxVal⟩

def unionWith (r other : ValueRange) : ValueRange :=
  if other.isEmpty then r
  else if r.isEmpty then other
  else ⟨min r.minVal other.minVal, max r.maxVal other.maxVal⟩

def isSubrangeOf (r other : ValueRange) : Bool :=
  if r.isEmpty then true
  else if other.isEmpty then false
  else decide (other.minVal ≤ r.minVal ∧ r.maxVal ≤ other.maxVal)

end ValueRange

inductive ValueType
  | i32
  | i64
  | other
  deriving DecidableEq, Repr

def ValueType.isInt : ValueType → Bool
  | i32 | i64 => true
  | other => false

def fitToType (r : ValueRange) : ValueType → ValueRange
  | .i32 =>
    if r.isEmpty then r
    else if r.isSubrangeOf .fullI32 then r else .fullI32
  | .i64 => r
  | .other => if r.isEmpty then r else .full

inductive Comparison
  | eq
  | ne
  | slt
  | sle
  | sgt
  | sge
  | ult
  | ule
  | ugt
  | uge
  deriving DecidableEq, Repr

def Comparison.invert : Comparison → Comparison
  | slt => sge
  | sle => sgt
  | sgt => sle
  | sge => slt
  | ult => uge
  | ule => ugt
  | ugt => ule
  | uge => ult
  | eq => ne
  | ne => eq

/-- The side of a comparison whose range is set. -/
inductive Side
  | lhs
  | rhs
  deriving DecidableEq, Repr

/-- The ranges that a comparison which holds sets, in the order in which they are set. -/
def Comparison.refine (rLhs rRhs : ValueRange) : Comparison → List (Side × ValueRange)
  | slt =>
    let l := rLhs.intersectWith ⟨int64Min, satSub rRhs.maxVal 1⟩
    let r := rRhs.intersectWith ⟨satAdd l.minVal 1, int64Max⟩
    [(.lhs, l), (.rhs, r)]
  | sle =>
    let l := rLhs.intersectWith ⟨int64Min, rRhs.maxVal⟩
    let r := rRhs.intersectWith ⟨l.minVal, int64Max⟩
    [(.lhs, l), (.rhs, r)]
  | sgt =>
    let r := rRhs.intersectWith ⟨int64Min, satSub rLhs.maxVal 1⟩
    let l := rLhs.intersectWith ⟨satAdd r.minVal 1, int64Max⟩
    [(.lhs, l), (.rhs, r)]
  | sge =>
    let r := rRhs.intersectWith ⟨int64Min, rLhs.maxVal⟩
    let l := rLhs.intersectWith ⟨r.minVal, int64Max⟩
    [(.lhs, l), (.rhs, r)]
  -- An unsigned order says something only when the side that bounds is not negative.
  | ult =>
    if 0 ≤ rRhs.minVal then
      [(.lhs, rLhs.intersectWith ⟨0, satSub rRhs.maxVal 1⟩),
       (.rhs, rRhs.intersectWith ⟨1, int64Max⟩)]
    else []
  | ule => if 0 ≤ rRhs.minVal then [(.lhs, rLhs.intersectWith ⟨0, rRhs.maxVal⟩)] else []
  | ugt =>
    if 0 ≤ rLhs.minVal then
      [(.rhs, rRhs.intersectWith ⟨0, satSub rLhs.maxVal 1⟩),
       (.lhs, rLhs.intersectWith ⟨1, int64Max⟩)]
    else []
  | uge => if 0 ≤ rLhs.minVal then [(.rhs, rRhs.intersectWith ⟨0, rLhs.maxVal⟩)] else []
  | eq => [(.lhs, rLhs.intersectWith rRhs), (.rhs, rLhs.intersectWith rRhs)]
  | ne =>
    if rRhs.isConstant then
      if rLhs.minVal = rRhs.minVal ∧ rRhs.minVal < rLhs.maxVal then
        [(.lhs, { rLhs with minVal := satAdd rRhs.minVal 1 })]
      else if rLhs.maxVal = rRhs.minVal ∧ rLhs.minVal < rRhs.minVal then
        [(.lhs, { rLhs with maxVal := satSub rRhs.minVal 1 })]
      else []
    else if rLhs.isConstant then
      if rRhs.minVal = rLhs.minVal ∧ rLhs.minVal < rRhs.maxVal then
        [(.rhs, { rRhs with minVal := satAdd rLhs.minVal 1 })]
      else if rRhs.maxVal = rLhs.minVal ∧ rRhs.minVal < rLhs.minVal then
        [(.rhs, { rRhs with maxVal := satSub rLhs.minVal 1 })]
      else []
    else []

end Brass.Mir
