import Mathlib.Data.List.Basic

/-!
# Splitting critical edges

An edge from a block with several distinct successors to a block with several distinct
predecessors is split by a block that takes the parameters of its target and forwards them.
`split_critical_edge` splits one edge and rebuilds the predecessor lists; `split_critical_edges`
splits all of them against the lists it started with, and places the new blocks afterwards.
Blocks are named by their ids, and of a block's instructions only the terminator and whether the
first is a landing pad are kept.
-/

namespace Brass.Mir.CriticalEdge

variable {τ : Type}

/-- Appends what is not there yet: `add_predecessor`, and the loops over distinct blocks. -/
def pushNew (xs : List Nat) (x : Nat) : List Nat :=
  if x ∈ xs then xs else xs ++ [x]

def unique (xs : List Nat) : List Nat := xs.foldl pushNew []

/-- A target and the values passed to its parameters. -/
structure BranchTarget where
  block : Nat
  args : List Nat
  deriving DecidableEq

/-- The terminators that have successors; `exit` stands for all others. -/
inductive Terminator
  | br (target : BranchTarget)
  | brIf (trueTarget falseTarget : BranchTarget)
  | switch (defaultTarget : BranchTarget) (switchCases : List (Int × BranchTarget))
  | invoke (normalTarget unwindTarget : BranchTarget)
  | exit

namespace Terminator

def targets : Terminator → List BranchTarget
  | .br t => [t]
  | .brIf t u => [t, u]
  | .switch t cases => t :: cases.map (·.2)
  | .invoke t u => [t, u]
  | .exit => []

/-- `BasicBlock::successors`, which names both arms of a `br_if` even when they agree. -/
def successors : Terminator → List Nat
  | .br t => [t.block]
  | .brIf t u => [t.block, u.block]
  | .switch t cases => (cases.map (·.2.block)).foldl pushNew [t.block]
  | .invoke t u => pushNew [t.block] u.block
  | .exit => []

/-- The targets renamed; a plain branch is never redirected. -/
def redirect (dst new : Nat) : Terminator → Terminator
  | .br t => .br t
  | .brIf t u => .brIf (go t) (go u)
  | .switch t cases => .switch (go t) (cases.map fun c => (c.1, go c.2))
  | .invoke t u => .invoke (go t) (go u)
  | .exit => .exit
where
  go (t : BranchTarget) : BranchTarget := if t.block = dst then { t with block := new } else t

end Terminator

structure BasicBlock (τ : Type) where
  name : String
  /-- Each parameter's value and type. -/
  params : List (Nat × τ)
  landingPad : Bool
  terminator : Terminator
  predecessors : List Nat

namespace BasicBlock

def successors (b : BasicBlock τ) : List Nat := b.terminator.successors

def values (b : BasicBlock τ) : List Nat := b.params.map (·.1)

end BasicBlock

/-- The block list, the blocks under their ids, and the next ids. -/
structure Function (τ : Type) where
  blocks : List Nat
  block : Nat → BasicBlock τ
  nextBlockId : Nat
  nextValueId : Nat

namespace Function

def clearPredecessors (f : Function τ) : Function τ :=
  { f with block := fun b =>
      if b ∈ f.blocks then { f.block b with predecessors := [] } else f.block b }

def addPredecessor (f : Function τ) (pred succ : Nat) : Function τ :=
  { f with block := Function.update f.block succ { f.block succ with
      predecessors := pushNew (f.block succ).predecessors pred } }

def rebuildCfgPredecessors (f : Function τ) : Function τ :=
  f.blocks.foldl
    (fun g b => (g.block b).successors.foldl (fun g succ => g.addPredecessor b succ) g)
    f.clearPredecessors

/-- `is_critical_edge`, on the predecessor list as it stands. -/
def IsCriticalEdge (f : Function τ) (src dst : Nat) : Prop :=
  (f.block dst).landingPad = false ∧
    1 < (unique (f.block src).successors).length ∧ dst ∈ unique (f.block src).successors ∧
    1 < (unique (f.block dst).predecessors).length

instance (f : Function τ) (src dst : Nat) : Decidable (f.IsCriticalEdge src dst) :=
  inferInstanceAs (Decidable (_ ∧ _))

def blockName (f : Function τ) (b : Nat) : String :=
  if (f.block b).name.isEmpty then "b" ++ toString b else (f.block b).name

/-- The block that forwards to `dst`; its parameters are the next values, with the types of those
of `dst`. -/
def splitBlock (f : Function τ) (src dst : Nat) : BasicBlock τ :=
  let params := ((f.block dst).params.zipIdx f.nextValueId).map fun p => (p.2, p.1.2)
  { name := f.blockName src ++ "_" ++ f.blockName dst ++ "_crit"
    params
    landingPad := false
    terminator := .br ⟨dst, params.map (·.1)⟩
    predecessors := [] }

/-- The split block is created and the targets of `src` redirected to it. -/
def redirectEdge (f : Function τ) (src dst : Nat) : Function τ :=
  let block := Function.update f.block f.nextBlockId (f.splitBlock src dst)
  { f with
    block := Function.update block src { block src with
      terminator := (block src).terminator.redirect dst f.nextBlockId }
    nextBlockId := f.nextBlockId + 1
    nextValueId := f.nextValueId + (f.block dst).params.length }

/-- `split_edge` up to the placing of the block it returns. -/
def splitEdge (f : Function τ) (src dst : Nat) : Option (Nat × Function τ) :=
  if f.IsCriticalEdge src dst then some (f.nextBlockId, f.redirectEdge src dst) else none

end Function

/-- `new` right after the first `src`, or else at the end. -/
def insertAfter (src new : Nat) : List Nat → List Nat
  | [] => [new]
  | b :: bs => if b = src then b :: new :: bs else b :: insertAfter src new bs

/-- The order the batch gives the blocks: after each block its own splits, the last one first. -/
def arrange : List Nat → List (Nat × Nat) → List Nat
  | [], placed => placed.map (·.2)
  | b :: bs, placed =>
    b :: ((placed.takeWhile (·.1 = b)).map (·.2)).reverse ++
      arrange bs (placed.dropWhile (·.1 = b))

namespace Function

def splitCriticalEdge (f : Function τ) (src dst : Nat) : Function τ :=
  match f.splitEdge src dst with
  | none => f
  | some (new, g) => { g with blocks := insertAfter src new g.blocks }.rebuildCfgPredecessors

/-- An edge of the batch: the new block is recorded, to be placed later. -/
def deferSplit (src : Nat) (s : Function τ × List (Nat × Nat)) (dst : Nat) :
    Function τ × List (Nat × Nat) :=
  match s.1.splitEdge src dst with
  | none => s
  | some (new, g) => (g, s.2 ++ [(src, new)])

def splitFrom (s : Function τ × List (Nat × Nat)) (src : Nat) : Function τ × List (Nat × Nat) :=
  let succs := unique (s.1.block src).successors
  if succs.length ≤ 1 then s else succs.foldl (deferSplit src) s

/-- `split_critical_edges`, and whether it split anything. -/
def splitCriticalEdges (f : Function τ) : Function τ × Bool :=
  let f := f.rebuildCfgPredecessors
  let s := f.blocks.foldl splitFrom (f, [])
  if s.2.isEmpty then (s.1, false)
  else ({ s.1 with blocks := arrange s.1.blocks s.2 }.rebuildCfgPredecessors, true)

/-- The edges of the function in the same order, each split on its own. -/
def splitOneByOne (f : Function τ) : Function τ :=
  f.rebuildCfgPredecessors.blocks.foldl
    (fun g src => (unique (g.block src).successors).foldl (fun g dst => g.splitCriticalEdge src dst) g)
    f.rebuildCfgPredecessors

/-- What the verifier and the id counters promise of a function. -/
structure WellFormed (f : Function τ) : Prop where
  nodup : f.blocks.Nodup
  closed : ∀ b ∈ f.blocks, ∀ t ∈ (f.block b).terminator.targets, t.block ∈ f.blocks
  blockIds : ∀ b ∈ f.blocks, b < f.nextBlockId
  args : ∀ b ∈ f.blocks, ∀ t ∈ (f.block b).terminator.targets,
    t.args.length = (f.block t.block).params.length ∧ ∀ v ∈ t.args, v < f.nextValueId
  params : ∀ b ∈ f.blocks, (f.block b).values.Nodup ∧ ∀ v ∈ (f.block b).values, v < f.nextValueId

end Function

end Brass.Mir.CriticalEdge
