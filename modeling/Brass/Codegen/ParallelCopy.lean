import Brass.Codegen.CopyMachine

/-!
# Parallel copies

`emit_parallel_copy` of `codegen/emit_parallel_copy.cpp`: first the moves whose destination no
move still reads, until only cycles are left; then a cycle of two is swapped, or the value of
the first destination of a longer one is parked in a scratch register, which opens the cycle.
The loops have fuel; `none` says that it ran out.
-/

namespace Brass.Codegen.Copy

structure CopyMove where
  dst : CopyOperand
  src : CopyOperand
  done : Bool := false
  deriving DecidableEq, Inhabited

/-- The moves, and what has been emitted. -/
structure Emission where
  moves : List CopyMove
  code : List CopyInst

namespace Emission

def move (st : Emission) (i : Nat) : CopyMove := st.moves.getD i default

def emit (st : Emission) (code : List CopyInst) : Emission := { st with code := st.code ++ code }

def finish (st : Emission) (i : Nat) : Emission :=
  { st with moves := st.moves.modify i (fun m => { m with done := true }) }

def setSrc (st : Emission) (i : Nat) (src : CopyOperand) : Emission :=
  { st with moves := st.moves.modify i (fun m => { m with src := src }) }

/-- A move that is not done reads the destination of `m`. -/
def dstUsed (st : Emission) (m : CopyMove) : Bool :=
  st.moves.any (fun other => !other.done && sameLoc m.dst other.src)

end Emission

section Emit

variable (addr : Int32 → Int)

/-! ## Moves that nothing waits for -/

def peelStep (r : Emission × Bool) (i : Nat) : Emission × Bool :=
  let m := r.1.move i
  if m.done || r.1.dstUsed m then r
  else ((r.1.emit (emitMove addr m.dst m.src)).finish i, true)

/-- One pass; the flag says that it emitted a move. -/
def peelAcyclic (st : Emission) : Emission × Bool :=
  (List.range st.moves.length).foldl (peelStep addr) (st, false)

def peelAll : Nat → Emission → Option Emission
  | 0, _ => none
  | fuel + 1, st =>
    let r := peelAcyclic addr st
    if r.2 then peelAll fuel r.1 else some r.1

/-! ## Cycles -/

/-- The first move that is not done and writes what `curr` reads. -/
def nextInCycle (st : Emission) (curr : Nat) : Option Nat :=
  st.moves.findIdx? (fun m => !m.done && sameLoc m.dst (st.move curr).src)

/-- From each move to the one that writes its source. -/
def traceCycle (st : Emission) (start : Nat) : Nat → List Nat → Nat → Option (List Nat)
  | 0, _, _ => none
  | fuel + 1, cycle, curr =>
    let cycle := cycle ++ [curr]
    match nextInCycle st curr with
    | none => some cycle
    | some next =>
      if next = start ∨ next ∈ cycle then some cycle else traceCycle st start fuel cycle next

/-- The reserved scratch register that memory moves do not use. -/
def cycleScratch (vec : Bool) (size : Nat) : CopyOperand :=
  ⟨.preg (if vec then ⟨.xmm, 14⟩ else ⟨.gpr, 10⟩), size⟩

def isXmmPreg (op : CopyOperand) : Bool :=
  match op.kind with
  | .preg p => p.isXmm
  | _ => false

def isGprPreg (op : CopyOperand) : Bool :=
  match op.kind with
  | .preg p => isGpr p
  | _ => false

def gprOf (op : CopyOperand) : Nat :=
  match op.kind with
  | .preg p => asGpr p
  | _ => 0

def wideSize (w : Nat) : Bool := w = 16 || w = 32

/-- A cycle of two: general registers are exchanged, else the first value goes through a
scratch register. -/
def swapTwo (st : Emission) (i₀ i₁ : Nat) : Emission :=
  let m₀ := st.move i₀
  let m₁ := st.move i₁
  let code :=
    if isGprPreg m₀.dst && isGprPreg m₁.dst && isGprPreg m₀.src && isGprPreg m₁.src then
      [.xchg (if m₀.dst.size = 4 ∧ m₁.dst.size = 4 then 4 else 8) (gprOf m₀.dst) (gprOf m₁.dst)]
    else
      let vec := isXmmPreg m₀.dst || isXmmPreg m₁.dst || isXmmPreg m₀.src || isXmmPreg m₁.src ||
        wideSize m₀.dst.size
      let scratch := cycleScratch vec m₀.dst.size
      emitMove addr scratch m₀.src ++ emitMove addr m₁.dst m₀.dst ++ emitMove addr m₀.dst scratch
  ((st.emit code).finish i₀).finish i₁

/-- Which class of scratch register a longer cycle gets, from its first move. -/
def parksVec (m₀ : CopyMove) : Bool :=
  isXmmPreg m₀.dst || isXmmPreg m₀.src || wideSize m₀.dst.size

/-- The size with which the value is parked for the last move of the cycle. -/
def parkSize (m₀ last : CopyMove) : Nat := max m₀.dst.size (max last.src.size last.dst.size)

/-- A longer cycle: the value of the first destination is parked for the last move, which
reads it. -/
def park (st : Emission) (i₀ last : Nat) : Emission :=
  let size := parkSize (st.move i₀) (st.move last)
  let scratch := cycleScratch (parksVec (st.move i₀)) size
  (st.emit (emitMove addr scratch { (st.move i₀).dst with size := size })).setSrc last scratch

def breakCycle (st : Emission) (start : Nat) (cycle : List Nat) : Emission :=
  match cycle with
  | [] => (st.emit (emitMove addr (st.move start).dst (st.move start).src)).finish start
  | [i₀, i₁] => swapTwo addr st i₀ i₁
  | i₀ :: rest => park addr st i₀ ((i₀ :: rest).getLastD i₀)

def emitLoop : Nat → Emission → Option (List CopyInst)
  | 0, _ => none
  | fuel + 1, st => do
    let st ← peelAll addr (st.moves.length + 1) st
    match st.moves.findIdx? (fun m => !m.done) with
    | none => some st.code
    | some start => do
      let cycle ← traceCycle st start (st.moves.length + 1) [] start
      emitLoop fuel (breakCycle addr st start cycle)

/-- The moves to make: an operand that is moved to itself is skipped. -/
def movesOf (defs uses : List CopyOperand) : List CopyMove :=
  ((defs.zip uses).filter (fun m => !sameLoc m.1 m.2)).map (fun m => { dst := m.1, src := m.2 })

def emitParallelCopy (defs uses : List CopyOperand) : Option (List CopyInst) :=
  if defs.length = 0 ∨ defs.length ≠ uses.length then some []
  else emitLoop addr (2 * defs.length + 2) ⟨movesOf defs uses, []⟩

end Emit

end Brass.Codegen.Copy
