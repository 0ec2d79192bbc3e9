import Mathlib.Data.List.Basic

/-!
# The moves of an edge in bytecode

`emit_parallel_moves` of the bytecode compiler: the arguments of a branch are moved into the
parameters of its target. A move is emitted when no other move still reads its destination;
when only cycles are left, the source of one move is parked in the scratch register. Which
destinations are still read is counted in a table that the edges of a function share.

A value is named by its id, a null pointer is `none`. The loops have fuel; `none` says that
it ran out.
-/

namespace Brass.Vm

abbrev Reg := UInt16

/-! ## Registers and the two moves -/

/-- What a register of a frame holds. -/
structure RegContents where
  scalar : UInt64
  vector : BitVec 256
  deriving DecidableEq

abbrev Registers := Reg → RegContents

inductive MoveOp
  | mov
  | vmov
  deriving DecidableEq

structure MoveInst where
  op : MoveOp
  dst : Reg
  src : Reg
  deriving DecidableEq

/-- `mov` leaves the vector state of the destination as it is. -/
def MoveOp.write (op : MoveOp) (old new : RegContents) : RegContents :=
  match op with
  | .mov => { old with scalar := new.scalar }
  | .vmov => new

def MoveInst.exec (m : Registers) (inst : MoveInst) : Registers :=
  Function.update m inst.dst (inst.op.write (m inst.dst) (m inst.src))

def runMoves (code : List MoveInst) (m : Registers) : Registers := code.foldl MoveInst.exec m

/-! ## The compiler's state -/

/-- What the function reads of the compiler's context: the registers of the values, which
registers have a vector type, and the scratch register, the number after the last register
that is assigned. -/
structure MoveContext where
  fnName : String
  reg : Nat → Option Reg
  isVector : Reg → Bool
  scratchReg : Reg
  reg_ne_scratch : ∀ {v r}, reg v = some r → r ≠ scratchReg

structure BranchTarget where
  block : Option (List (Option Nat))
  args : List (Option Nat)

/-- `move_use_count` and `move_writer_of`, where `none` is -1. -/
structure MoveTables where
  useCount : Reg → Nat := fun _ => 0
  writerOf : Reg → Option Nat := fun _ => none

structure Move where
  src : Reg
  dst : Reg
  done : Bool := false
  deriving DecidableEq

/-- The locals of the function with the tables it shares. The last element of the C++ vector
`ready` is the first one here. -/
structure MoveState extends MoveTables where
  moves : List Move := []
  ready : List Nat := []
  scan : Nat := 0
  remaining : Nat := 0
  code : List MoveInst := []

def MoveState.move (s : MoveState) (i : Nat) : Move := s.moves.getD i { src := 0, dst := 0, done := true }

section Emit

variable (ctx : MoveContext)

def failure {α : Type} (what : String) : Except String α :=
  .error ("Bytecode compiler: function @" ++ ctx.fnName ++ ": " ++ what)

def getReg : Option Nat → Except String Reg
  | none => failure ctx "operand is null"
  | some v =>
    match ctx.reg v with
    | none => failure ctx ("value %" ++ toString v ++ " has no register")
    | some r => .ok r

def moveOp (dst : Reg) : MoveOp := if ctx.isVector dst then .vmov else .mov

/-! ## Collecting the moves -/

def addMove (s : MoveState) (src dst : Reg) : MoveState :=
  if src = dst ∨ (s.writerOf dst).isSome then s
  else
    { s with
      writerOf := Function.update s.writerOf dst (some s.moves.length)
      useCount := Function.update s.useCount src (s.useCount src + 1)
      moves := s.moves ++ [{ src, dst }] }

/-- A parameter that is null is passed over. -/
def collectMoves : List (Option Nat × Option Nat) → MoveState → Except String MoveState
  | [], s => .ok s
  | (_, none) :: pairs, s => collectMoves pairs s
  | (arg, some param) :: pairs, s => do
    let src ← getReg ctx arg
    let dst ← getReg ctx (some param)
    collectMoves pairs (addMove s src dst)

/-! ## Emitting them -/

/-- One reader of `r` fewer; the move that writes `r` is ready when it was the last. -/
def release (s : MoveState) (r : Reg) : MoveState :=
  let s := { s with useCount := Function.update s.useCount r (s.useCount r - 1) }
  if s.useCount r = 0 then
    match s.writerOf r with
    | some w => if (s.move w).done then s else { s with ready := w :: s.ready }
    | none => s
  else s

/-- The move, taken from the list of ready moves, without what follows for its source. -/
def emitMove (s : MoveState) (i : Nat) (rest : List Nat) : MoveState :=
  let m := s.move i
  { s with
    ready := rest
    code := s.code ++ [{ op := moveOp ctx m.dst, dst := m.dst, src := m.src }]
    moves := s.moves.set i { m with done := true }
    writerOf := Function.update s.writerOf m.dst none
    remaining := s.remaining - 1 }

def emitReady (s : MoveState) (i : Nat) (rest : List Nat) : MoveState :=
  if (s.move i).done then { s with ready := rest }
  else if (s.move i).src = ctx.scratchReg then emitMove ctx s i rest
  else release (emitMove ctx s i rest) (s.move i).src

def drain : Nat → MoveState → Option MoveState
  | 0, _ => none
  | fuel + 1, s =>
    match s.ready with
    | [] => some s
    | i :: rest => drain fuel (emitReady ctx s i rest)

def nextWaiting (s : MoveState) : Option Nat :=
  (List.range s.moves.length).find? (fun i => decide (s.scan ≤ i) && !(s.move i).done)

/-- The source of a move goes to the scratch register. -/
def parkMove (s : MoveState) (i : Nat) : MoveState :=
  let m := s.move i
  { s with
    scan := i
    code := s.code ++ [{ op := moveOp ctx m.dst, dst := ctx.scratchReg, src := m.src }]
    moves := s.moves.set i { m with src := ctx.scratchReg } }

/-- Only cycles are left: one of them is opened at the next move. -/
def openCycle (s : MoveState) : Option MoveState :=
  (nextWaiting s).map fun i => release (parkMove ctx s i) (s.move i).src

def moveLoop : Nat → MoveState → Option MoveState
  | 0, _ => none
  | fuel + 1, s =>
    if s.remaining = 0 then some s
    else do
      let s ← drain ctx (s.ready.length + s.moves.length + 1) s
      if s.remaining = 0 then some s
      else do
        let s ← openCycle ctx s
        moveLoop fuel s

/-- The moves whose destination nobody reads, the last one on top. -/
def initialReady (s : MoveState) : List Nat :=
  ((List.range s.moves.length).filter (fun i => s.useCount (s.move i).dst = 0)).reverse

/-- The code and the tables behind it, or the text of the failure. -/
def emitParallelMoves (tables : MoveTables) (target : BranchTarget) :
    Option (Except String (List MoveInst × MoveTables)) :=
  match target.block with
  | none => some (.ok ([], tables))
  | some params =>
    if target.args = [] then some (.ok ([], tables))
    else if target.args.length ≠ params.length then
      some (failure ctx
        ("branch passes " ++ toString target.args.length ++ " arguments to a block with " ++
          toString params.length ++ " parameters"))
    else
      match collectMoves ctx (target.args.zip params) { toMoveTables := tables } with
      | .error what => some (.error what)
      | .ok s =>
        (moveLoop ctx (s.moves.length + 1)
          { s with ready := initialReady s, remaining := s.moves.length }).map
          fun s => .ok (s.code, s.toMoveTables)

end Emit

end Brass.Vm
