import Brass.Util.Worklist
import Mathlib.Data.List.Sort

/-!
# The dataflow of partial redundancy elimination

`PreDataflow` answers, for one candidate expression after another, where it is anticipated and
where it is available. It looks at the blocks an expression has events in, its evaluations, the
definitions of its operands and, for a load, writers of memory; whether any other block is
transparent is found out when the dataflow gets there. What one expression leaves behind is reset
only where it was set. Blocks are named by their ordinals, instructions by block and position.
-/

namespace Brass.Mir.Pre

open Brass.Util

/-- Block ordinal and index within the block. -/
abbrev Position := Nat × Nat

/-- `PreExpression`; `rest` holds the fields that are only compared (opcode, type, immediate,
scale and symbol). -/
structure PreExpression where
  isLoad : Bool
  op0 : Option Nat
  op1 : Option Nat
  op2 : Option Nat
  offset : BitVec 32
  memoryType : Nat
  rest : List Nat
  deriving DecidableEq

/-- An instruction, with its expression if it is a candidate. A `store` or `vstore` writes its
operand 1 to the address in operand 0; `mayWrite` holds for these, indexed stores, calls and
coroutine operations. -/
structure Instruction where
  expr : Option PreExpression
  result : Option Nat
  isStore : Bool
  mayWrite : Bool
  operand0 : Option Nat
  operand1 : Option Nat
  offset : BitVec 32
  memoryType : Nat

/-- A neighbour is `none` when the index does not know it. -/
structure BasicBlock where
  insts : List Instruction
  successors : List (Option Nat)
  predecessors : List (Option Nat)

/-- The blocks, and where the instruction that defines a value stands; the predecessor lists name
the sources of edges. -/
structure Function where
  blocks : List BasicBlock
  definingPosition : Nat → Option Position
  definingPosition_lt : ∀ v p, definingPosition v = some p →
    ∃ b : BasicBlock, blocks[p.1]? = some b ∧ p.2 < b.insts.length
  successors_lt : ∀ b ∈ blocks, ∀ s, some s ∈ b.successors → s < blocks.length
  predecessors_edge : ∀ (i : Nat) (b : BasicBlock), blocks[i]? = some b →
    ∀ p, some p ∈ b.predecessors → ∃ c : BasicBlock, blocks[p]? = some c ∧ some i ∈ c.successors

inductive AliasResult
  | noAlias | mayAlias | mustAlias
  deriving DecidableEq

/-- The alias analysis: the base of an address and the constant offset from it, and what it knows
about objects and about clobbering, all of which may be anything. -/
structure AliasAnalysis where
  underlyingBase : Nat → Option Nat × BitVec 64
  distinctObjects : Nat → Nat → Bool
  accessSize : Nat → BitVec 64
  canClobber : Position → Position → Bool

def compareRanges (off1 size1 off2 size2 : BitVec 64) : AliasResult :=
  if off1 = off2 then .mustAlias
  else if size1 ≠ 0 ∧ size2 ≠ 0 ∧ ((off1 + size1).sle off2 ∨ (off2 + size2).sle off1) then .noAlias
  else .mayAlias

namespace AliasAnalysis

def base (aa : AliasAnalysis) : Option Nat → Option Nat
  | none => none
  | some ptr => (aa.underlyingBase ptr).1

def aliasAccess (aa : AliasAnalysis) (ptr1 : Option Nat) (off1 : BitVec 32) (type1 : Nat)
    (ptr2 : Option Nat) (off2 : BitVec 32) (type2 : Nat) : AliasResult :=
  match ptr1, ptr2 with
  | some p1, some p2 =>
    if (aa.underlyingBase p1).1.isSome ∧ (aa.underlyingBase p1).1 = (aa.underlyingBase p2).1 then
      compareRanges (off1.signExtend 64 + (aa.underlyingBase p1).2) (aa.accessSize type1)
        (off2.signExtend 64 + (aa.underlyingBase p2).2) (aa.accessSize type2)
    else if aa.distinctObjects p1 p2 then .noAlias
    else .mayAlias
  | _, _ => .mayAlias

end AliasAnalysis

namespace Function

def block (f : Function) (b : Nat) : BasicBlock :=
  f.blocks.getD b { insts := [], successors := [], predecessors := [] }

def insts (f : Function) (b : Nat) : List Instruction := (f.block b).insts

def inst? (f : Function) (p : Position) : Option Instruction := (f.insts p.1)[p.2]?

def succs (f : Function) (b : Nat) : List Nat := (f.block b).successors.filterMap id

def preds (f : Function) (b : Nat) : List Nat := (f.block b).predecessors.filterMap id

/-- `succ_of_`: the blocks that name `b` as a successor, once for each edge. -/
def succOf (f : Function) (b : Nat) : List Nat :=
  (List.range f.blocks.length).flatMap fun p => (f.succs p).filterMap fun s =>
    if s = b then some p else none

def memoryWriters (f : Function) (b : Nat) : List Nat :=
  (f.insts b).zipIdx.filterMap fun i => if i.1.mayWrite then some i.2 else none

def evaluations (f : Function) (expr : PreExpression) : List Position :=
  (List.range f.blocks.length).flatMap fun b => (f.insts b).zipIdx.filterMap fun i =>
    if i.1.expr = some expr then some (b, i.2) else none

/-- `stores_by_base_`: the blocks with a store off `base`. -/
def storesByBase (f : Function) (aa : AliasAnalysis) (base : Nat) : List Nat :=
  (List.range f.blocks.length).filter fun b =>
    (f.insts b).any fun i => i.mayWrite && i.isStore && aa.base i.operand0 = some base

end Function

structure BlockLocalInfo where
  evaluations : List Position
  antLoc : Bool
  transp : Bool
  availLoc : Bool
  availVal : Option Nat
  deriving DecidableEq

def BlockLocalInfo.default : BlockLocalInfo where
  evaluations := []
  antLoc := false
  transp := true
  availLoc := false
  availVal := none

inductive EventKind
  | evaluation | kill | writer
  deriving DecidableEq

def EventKind.rank : EventKind → Nat
  | .evaluation => 0
  | .kill => 1
  | .writer => 2

structure Event where
  block : Nat
  position : Nat
  kind : EventKind
  deriving DecidableEq

/-- The order the events are sorted in. -/
def Event.le (a b : Event) : Bool :=
  if a.block ≠ b.block then a.block < b.block
  else if a.position ≠ b.position then a.position < b.position
  else a.kind.rank ≤ b.kind.rank

structure Query where
  fn : Function
  aa : AliasAnalysis
  expr : PreExpression
  exemplar : Option Position

/-- A block being replayed. -/
structure Replay where
  info : BlockLocalInfo
  operandKilled : Bool
  memoryClobbered : Bool

def Replay.begin : Replay where
  info := .default
  operandKilled := false
  memoryClobbered := false

namespace Query

def trackMemory (q : Query) : Bool := q.expr.isLoad && q.exemplar.isSome

def canClobber (q : Query) (p : Position) : Bool :=
  match q.exemplar with
  | some e => q.aa.canClobber p e
  | none => false

/-- A store of the location and type the expression loads. -/
def mustStore (q : Query) (i : Instruction) : Bool :=
  i.isStore && i.memoryType = q.expr.memoryType && q.expr.op0.isSome &&
    q.aa.aliasAccess i.operand0 i.offset i.memoryType q.expr.op0 q.expr.offset q.expr.memoryType =
      .mustAlias

/-- One event of the replayed block; `p` is where its instruction stands. -/
def apply (q : Query) (b : Nat) (r : Replay) (e : Nat × EventKind) : Replay :=
  match e.2 with
  | .evaluation =>
    { r with info := { r.info with
        evaluations := r.info.evaluations ++ [(b, e.1)]
        antLoc := r.info.antLoc || (!r.operandKilled && !r.memoryClobbered)
        availLoc := true
        availVal := (q.fn.inst? (b, e.1)).bind (·.result) } }
  | .kill =>
    { r with
      operandKilled := true
      info := { r.info with transp := false, availLoc := false, availVal := none } }
  | .writer =>
    if q.canClobber (b, e.1) then
      match q.fn.inst? (b, e.1) with
      | some i =>
        if q.mustStore i then
          { r with
            memoryClobbered := true
            info := { r.info with transp := false, availLoc := true, availVal := i.operand1 } }
        else
          { r with
            memoryClobbered := true
            info := { r.info with transp := false, availLoc := false, availVal := none } }
      | none => r
    else r

def operands (q : Query) : List Nat := [q.expr.op0, q.expr.op1, q.expr.op2].filterMap id

/-- The evaluations and the definitions of the operands, sorted. -/
def sparse (q : Query) : List Event :=
  ((q.fn.evaluations q.expr).map (fun p => Event.mk p.1 p.2 .evaluation) ++
    (q.operands.filterMap q.fn.definingPosition).map (fun p => Event.mk p.1 p.2 .kill)).mergeSort Event.le

/-- The blocks with an event and, for a load, those with a store off the same base. The lists are
sorted, so that equal blocks stand side by side. -/
def active (q : Query) : List Nat :=
  let own := (q.sparse.map (·.block)).dedup
  if q.trackMemory then
    match q.aa.base q.expr.op0 with
    | some base => ((own ++ q.fn.storesByBase q.aa base).mergeSort (· ≤ ·)).dedup
    | none => own
  else own

def writers (q : Query) (b : Nat) : List Nat := if q.trackMemory then q.fn.memoryWriters b else []

/-- The events of block `b` from the front of the sparse ones, merged with the writers; a sparse
event goes first on a tie. -/
def replay (q : Query) (b : Nat) : List Event → List Nat → Replay → Replay × List Event
  | [], [], r => (r, [])
  | [], w :: ws, r => q.replay b [] ws (q.apply b r (w, .writer))
  | e :: es, [], r =>
    if e.block = b then q.replay b es [] (q.apply b r (e.position, e.kind)) else (r, e :: es)
  | e :: es, w :: ws, r =>
    if e.block = b ∧ e.position ≤ w then q.replay b es (w :: ws) (q.apply b r (e.position, e.kind))
    else q.replay b (e :: es) ws (q.apply b r (w, .writer))
termination_by es ws => es.length + ws.length

end Query

inductive Opacity
  | kOpacityUnknown | kTransparent | kOpaque
  deriving DecidableEq

/-- What `PreDataflow` keeps from one expression to the next. -/
structure State where
  localInfo : Nat → BlockLocalInfo
  touched : List Nat
  isTouched : Nat → Bool
  opacity : Nat → Opacity
  opacitySet : List Nat
  antIn : Nat → Bool
  antSet : List Nat
  availAtExit : Nat → Option Nat
  availSet : List Nat

def State.init : State where
  localInfo _ := .default
  touched := []
  isTouched _ := false
  opacity _ := .kOpacityUnknown
  opacitySet := []
  antIn _ := false
  antSet := []
  availAtExit _ := none
  availSet := []

def clear {α : Type} (v : Nat → α) (os : List Nat) (x : α) : Nat → α :=
  os.foldl (fun v o => Function.update v o x) v

namespace State

def resetLocal (s : State) : State :=
  { s with
    localInfo := clear s.localInfo s.touched .default
    isTouched := clear s.isTouched s.touched false
    touched := []
    opacity := clear s.opacity s.opacitySet .kOpacityUnknown
    opacitySet := [] }

def endBlock (s : State) (b : Nat) (info : BlockLocalInfo) : State :=
  { s with
    localInfo := Function.update s.localInfo b info
    touched := s.touched ++ [b]
    isTouched := Function.update s.isTouched b true }

end State

namespace Query

def computeLocalInfo (q : Query) (s : State) : State :=
  (q.active.foldl (fun acc b =>
    let r := q.replay b acc.2 (q.writers b) .begin
    (acc.1.endBlock b r.1.info, r.2)) (s, q.sparse)).1

/-- `transparent`, which remembers what it has found out. -/
def transparent (q : Query) (s : State) (o : Nat) : Bool × State :=
  if s.isTouched o then ((s.localInfo o).transp, s)
  else if !q.trackMemory then (true, s)
  else if s.opacity o = .kOpacityUnknown then
    let clear := !(q.fn.memoryWriters o).any fun w => q.canClobber (o, w)
    (clear, { s with
      opacity := Function.update s.opacity o (if clear then .kTransparent else .kOpaque)
      opacitySet := s.opacitySet ++ [o] })
  else (s.opacity o = .kTransparent, s)

/-- `local_info_[o].ant_loc || transparent(o)`. -/
def passes (q : Query) (s : State) (o : Nat) : Bool × State :=
  if (s.localInfo o).antLoc then (true, s) else q.transparent s o

end Query

/-- The value all predecessors agree on. -/
def commonVal (avail : Nat → Option Nat) (preds : List Nat) : Option Nat :=
  match preds with
  | [] => none
  | p :: ps => if ps.all fun r => avail r = avail p then avail p else none

/-- A block is admitted once; the second component collects those admitted. -/
def State.admitAt (acc : State × List Nat) (o : Nat) : State × List Nat :=
  if acc.1.antIn o then acc
  else ({ acc.1 with antIn := Function.update acc.1.antIn o true, antSet := acc.1.antSet ++ [o] },
    acc.2 ++ [o])

namespace Query

def admitIf (q : Query) (acc : State × List Nat) (o : Nat) : State × List Nat :=
  let r := q.passes acc.1 o
  if r.1 then State.admitAt (r.2, acc.2) o else (r.2, acc.2)

/-- The walk backwards from an admitted block. -/
def admitVisit (q : Query) (s : State) (b : Nat) : State × List Nat :=
  (q.fn.succOf b).foldl q.admitIf (s, [])

def out (q : Query) (s : State) (b : Nat) : Bool :=
  !(q.fn.block b).successors.isEmpty && (q.fn.succs b).all s.antIn

/-- A block falls when nothing is anticipated below it. -/
def fallVisit (q : Query) (s : State) (b : Nat) : State × List Nat :=
  if !s.antIn b || (s.localInfo b).antLoc || q.out s b then (s, [])
  else
    let t := { s with antIn := Function.update s.antIn b false }
    (t, (q.fn.succOf b).filter fun p => t.antIn p && !(t.localInfo p).antLoc)

end Query

namespace Function

/-- Whether an exit is reached along the known successors, found backwards from the exits. -/
def exitVisit (f : Function) (reaches : Nat → Bool) (b : Nat) : (Nat → Bool) × List Nat :=
  (f.succOf b).foldl (fun acc p => if acc.1 p then acc else (Function.update acc.1 p true, acc.2 ++ [p]))
    (reaches, [])

def exits (f : Function) : List Nat :=
  (List.range f.blocks.length).filter fun b => (f.block b).successors.isEmpty

def noExitBlocks (f : Function) (fuel : Nat) : Option (List Nat) :=
  (drain (exitVisit f) fuel (fun b => decide (b ∈ exits f)) (exits f).reverse).map fun reaches =>
    (List.range f.blocks.length).filter fun b => !reaches b

end Function

namespace Query

/-- The state and the blocks to walk backwards from. -/
def startAnticipation (q : Query) (noExit : List Nat) (s : State) : State × List Nat :=
  let s := { s with antIn := clear s.antIn s.antSet false, antSet := [] }
  let acc := s.touched.foldl (fun acc o => if (acc.1.localInfo o).antLoc then State.admitAt acc o else acc)
    (s, [])
  noExit.foldl q.admitIf acc

def computeAnticipation (q : Query) (noExit : List Nat) (fuel : Nat) (s : State) : Option State := do
  let acc := q.startAnticipation noExit s
  let s ← drain q.admitVisit fuel acc.1 acc.2.reverse
  let s ← drain q.fallVisit fuel s s.antSet.reverse
  return { s with antSet := (s.antSet.filter s.antIn).mergeSort (· ≤ ·) }

/-- A block without its own value takes the common one of its predecessors. -/
def availVisit (q : Query) (s : State) (i : Nat) : State × List Nat :=
  if (s.localInfo i).availLoc then (s, [])
  else
    let r := q.transparent s i
    if !r.1 || (q.fn.block i).predecessors.isEmpty || (q.fn.block i).predecessors.contains none then
      (r.2, [])
    else
      match commonVal r.2.availAtExit (q.fn.preds i) with
      | none => (r.2, [])
      | some v =>
        if r.2.availAtExit i = some v then (r.2, [])
        else
          ({ r.2 with
              availAtExit := Function.update r.2.availAtExit i (some v)
              availSet := if r.2.availAtExit i = none then r.2.availSet ++ [i] else r.2.availSet },
            q.fn.succs i)

def seedAvail (q : Query) (acc : State × List Nat) (o : Nat) : State × List Nat :=
  match (acc.1.localInfo o).availLoc, (acc.1.localInfo o).availVal with
  | true, some v =>
    ({ acc.1 with
        availAtExit := Function.update acc.1.availAtExit o (some v)
        availSet := acc.1.availSet ++ [o] },
      acc.2 ++ q.fn.succs o)
  | _, _ => acc

/-- The state and the blocks to visit first. -/
def startAvailability (q : Query) (s : State) : State × List Nat :=
  let s := { s with availAtExit := clear s.availAtExit s.availSet none, availSet := [] }
  s.touched.foldl q.seedAvail (s, [])

def computeAvailability (q : Query) (fuel : Nat) (s : State) : Option State :=
  let acc := q.startAvailability s
  drain q.availVisit fuel acc.1 acc.2.reverse

/-- `analyze_expression`, each of its loops given `fuel` visits. -/
def analyze (q : Query) (noExit : List Nat) (fuel : Nat) (s : State) : Option State := do
  let s ← q.computeAnticipation noExit fuel (q.computeLocalInfo s.resetLocal)
  q.computeAvailability fuel s

end Query

/-- One dataflow asked about expressions one after another. -/
def analyzeAll (f : Function) (aa : AliasAnalysis) (fuel : Nat)
    (asked : List (PreExpression × Option Position)) : Option State := do
  let noExit ← f.noExitBlocks fuel
  asked.foldlM (fun s e => (Query.mk f aa e.1 e.2).analyze noExit fuel s) State.init

end Brass.Mir.Pre
