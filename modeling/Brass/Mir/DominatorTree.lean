import Brass.Mir.FlowGraph
import Brass.Util.Dominance
import Brass.Util.TreeWalk

/-!
# The dominator tree

`DominatorTree::build` numbers the blocks that the entry reaches, in the order of a breadth
first search, and works on these numbers from then on: a depth first search for a postorder,
the intersections of Cooper, Harvey and Kennedy in reverse postorder until nothing changes,
and a walk of the tree for the intervals that `dominates` compares. A loop of the source takes
fuel here, and the result is `none` when that runs out.
-/

namespace Brass.Mir

open Brass.Util

structure Cfg extends FlowGraph where
  preds : List (List Nat)
  mem_preds : ∀ a b, a ∈ preds.getD b [] ↔ b ∈ toFlowGraph.next a

/-- The reachable blocks under their numbers, of which the entry has 0. -/
structure BlockGraph where
  size : Nat
  succs : Nat → List Nat
  preds : Nat → List Nat
  pos : 0 < size
  succs_lt : ∀ u, ∀ v ∈ succs u, u < size ∧ v < size
  reaches : ∀ v, v < size → Search.Reaches succs 0 v
  mem_preds : ∀ p b, p ∈ preds b ↔ b ∈ succs p

/-! ## Postorder -/

namespace BlockGraph

/-- A stack of blocks, each with the successors that it has not looked at yet. -/
def postOrderLoop (succs : Nat → List Nat) :
    Nat → List (Nat × List Nat) → List Nat → List Nat → Option (List Nat)
  | 0, _, _, _ => none
  | _ + 1, [], _, postOrder => some postOrder
  | fuel + 1, (u, []) :: stack, dfsVisited, postOrder =>
    postOrderLoop succs fuel stack dfsVisited (postOrder ++ [u])
  | fuel + 1, (u, v :: rest) :: stack, dfsVisited, postOrder =>
    if v ∈ dfsVisited then postOrderLoop succs fuel ((u, rest) :: stack) dfsVisited postOrder
    else postOrderLoop succs fuel ((v, succs v) :: (u, rest) :: stack) (v :: dfsVisited) postOrder

def postOrder (G : BlockGraph) (fuel : Nat) : Option (List Nat) :=
  postOrderLoop G.succs fuel [(0, G.succs 0)] [0] []

/-- The numbers count down from `rpoCount` along the postorder. -/
def numberFrom (rpoCount : Nat) (rpoNum : Nat → Nat) : List Nat → Nat → Nat
  | [] => rpoNum
  | u :: postOrder =>
    numberFrom (rpoCount - 1) (Function.update rpoNum u (rpoCount - 1)) postOrder

def rpoNum (G : BlockGraph) (postOrder : List Nat) : Nat → Nat :=
  numberFrom G.size (fun _ => 0) postOrder

/-! ## Immediate dominators -/

/-- `while (rpo_num[finger] > bound) finger = idom_[finger]`. -/
def climb (rpoNum : Nat → Nat) (idom : Nat → Option Nat) (bound : Nat) : Nat → Nat → Option Nat
  | 0, _ => none
  | fuel + 1, finger =>
    if bound < rpoNum finger then (idom finger).bind (climb rpoNum idom bound fuel)
    else some finger

def intersect (rpoNum : Nat → Nat) (idom : Nat → Option Nat) (climbFuel : Nat) :
    Nat → Nat → Nat → Option Nat
  | 0, _, _ => none
  | fuel + 1, finger1, finger2 =>
    if finger1 = finger2 then some finger1
    else do
      let finger1 ← climb rpoNum idom (rpoNum finger2) climbFuel finger1
      let finger2 ← climb rpoNum idom (rpoNum finger1) climbFuel finger2
      intersect rpoNum idom climbFuel fuel finger1 finger2

/-- What all processed predecessors of `b` have in common; the inner result is `none` when
there are none. -/
def newIdom (G : BlockGraph) (rpoNum : Nat → Nat) (fuel : Nat) (idom : Nat → Option Nat)
    (b : Nat) : Option (Option Nat) :=
  match (G.preds b).find? (fun p => (idom p).isSome) with
  | none => some none
  | some first => do
    let d ← (G.preds b).foldlM (fun newIdom p =>
      if p ≠ newIdom ∧ (idom p).isSome then intersect rpoNum idom fuel fuel p newIdom
      else some newIdom) first
    pure (some d)

/-- One block of a pass: the immediate dominators, and whether one has changed. -/
def processBlock (G : BlockGraph) (rpoNum : Nat → Nat) (fuel : Nat)
    (s : (Nat → Option Nat) × Bool) (b : Nat) : Option ((Nat → Option Nat) × Bool) :=
  if b = 0 then some s
  else do
    match ← newIdom G rpoNum fuel s.1 b with
    | none => some s
    | some d =>
      if s.1 b ≠ some d then some (Function.update s.1 b (some d), true) else some s

/-- Passes over the blocks in reverse postorder, until one changes nothing. -/
def iterate (G : BlockGraph) (postOrder : List Nat) (rpoNum : Nat → Nat) (innerFuel : Nat) :
    Nat → (Nat → Option Nat) → Option (Nat → Option Nat)
  | 0, _ => none
  | fuel + 1, idom => do
    let s ← postOrder.reverse.foldlM (processBlock G rpoNum innerFuel) (idom, false)
    if s.2 then iterate G postOrder rpoNum innerFuel fuel s.1 else some s.1

/-- Only the entry has one at first, itself. -/
def initIdom : Nat → Option Nat := Function.update (fun _ => none) 0 (some 0)

def children (G : BlockGraph) (idom : Nat → Option Nat) (u : Nat) : List Nat :=
  (List.range G.size).filter fun i => i ≠ 0 ∧ idom i = some u

end BlockGraph

/-! ## Blocks and their numbers -/

namespace Cfg

variable {g : Cfg} {a b i j : Nat}

def blockIdx (g : Cfg) (b : Nat) : Option Nat := g.reachable.idxOf? b

def succIdx (g : Cfg) (i : Nat) : List Nat :=
  match g.reachable[i]? with
  | some b => (g.next b).filterMap g.blockIdx
  | none => []

def predIdx (g : Cfg) (i : Nat) : List Nat :=
  match g.reachable[i]? with
  | some b => (g.preds.getD b []).filterMap g.blockIdx
  | none => []

theorem reachable_nodup (g : FlowGraph) : g.reachable.Nodup :=
  (Search.mem_breadthFirst_iff (fun _ hu => List.mem_range.mpr
    (FlowGraph.lt_of_reaches (fun _ _ => FlowGraph.next_lt) hu)) (by simp)).1

theorem blockIdx_eq_some_iff : g.blockIdx b = some i ↔ g.reachable[i]? = some b := by
  have hnodup := reachable_nodup g.toFlowGraph
  rw [blockIdx, List.idxOf?_eq_some_iff]
  constructor
  · rintro ⟨h, hb, -⟩
    rw [List.getElem?_eq_getElem h, hb]
  · intro h
    obtain ⟨hlt, hb⟩ := List.getElem?_eq_some_iff.mp h
    refine ⟨hlt, hb, fun k hk hkb => ?_⟩
    have := (List.Nodup.getElem_inj_iff hnodup).mp (hkb.trans hb.symm)
    omega

theorem mem_succIdx : j ∈ g.succIdx i ↔
    ∃ a b, g.reachable[i]? = some a ∧ g.reachable[j]? = some b ∧ b ∈ g.next a := by
  unfold succIdx
  cases h : g.reachable[i]? with
  | none => simp
  | some a => simp [List.mem_filterMap, blockIdx_eq_some_iff, and_comm]

theorem mem_predIdx : i ∈ g.predIdx j ↔ j ∈ g.succIdx i := by
  rw [mem_succIdx]
  unfold predIdx
  cases h : g.reachable[j]? with
  | none => simp
  | some b =>
    simp only [List.mem_filterMap, blockIdx_eq_some_iff, g.mem_preds, Option.some.injEq]
    constructor
    · rintro ⟨a, hab, ha⟩
      exact ⟨a, b, ha, rfl, hab⟩
    · rintro ⟨a, _, ha, rfl, hab⟩
      exact ⟨a, hab, ha⟩

theorem lt_of_mem_succIdx (h : j ∈ g.succIdx i) :
    i < g.reachable.length ∧ j < g.reachable.length := by
  obtain ⟨a, b, ha, hb, -⟩ := mem_succIdx.mp h
  exact ⟨(List.getElem?_eq_some_iff.mp ha).1, (List.getElem?_eq_some_iff.mp hb).1⟩

theorem reachable_zero (g : Cfg) : g.reachable[0]? = some 0 := Search.breadthFirst_head _ _

theorem reaches_succIdx (h : Search.Reaches g.next 0 b) :
    ∃ i, g.reachable[i]? = some b ∧ Search.Reaches g.succIdx 0 i := by
  induction h with
  | refl => exact ⟨0, g.reachable_zero, .refl⟩
  | @tail a b ha hb ih =>
    obtain ⟨i, hi, hreach⟩ := ih
    obtain ⟨j, hj⟩ := List.mem_iff_getElem?.mp (FlowGraph.mem_reachable.mpr (ha.tail hb))
    exact ⟨j, hj, hreach.tail (mem_succIdx.mpr ⟨a, b, hi, hj, hb⟩)⟩

theorem reaches_succIdx_of_lt (h : i < g.reachable.length) : Search.Reaches g.succIdx 0 i := by
  obtain ⟨j, hj, hreach⟩ := reaches_succIdx (FlowGraph.mem_reachable.mp (List.getElem_mem h))
  obtain ⟨hlt, hget⟩ := List.getElem?_eq_some_iff.mp hj
  rwa [← (List.Nodup.getElem_inj_iff (reachable_nodup g.toFlowGraph)).mp hget]

def blockGraph (g : Cfg) : BlockGraph where
  size := g.reachable.length
  succs := g.succIdx
  preds := g.predIdx
  pos := (List.getElem?_eq_some_iff.mp g.reachable_zero).1
  succs_lt := fun _ _ => lt_of_mem_succIdx
  reaches := fun _ => reaches_succIdx_of_lt
  mem_preds := fun _ _ => mem_predIdx

end Cfg

/-! ## The tree -/

structure DominatorTree where
  reachableBlocks : List Nat
  size : Nat
  idom : Nat → Option Nat
  childList : Nat → List Nat
  stamps : TreeWalk.Stamps Nat

namespace DominatorTree

variable (t : DominatorTree) (a b : Nat)

def build (g : Cfg) (fuel : Nat) : Option DominatorTree := do
  let postOrder ← g.blockGraph.postOrder fuel
  let rpoNum := g.blockGraph.rpoNum postOrder
  let idom ← g.blockGraph.iterate postOrder rpoNum fuel fuel BlockGraph.initIdom
  let children := g.blockGraph.children idom
  let stamps ← TreeWalk.walkFrom children .enter .leave fuel 0 .init
  pure { reachableBlocks := g.reachable, size := g.blockGraph.size, idom,
         childList := children, stamps }

def blockIdx : Option Nat := t.reachableBlocks.idxOf? b

def isReachable : Bool := (t.blockIdx b).isSome

def dominates : Bool :=
  if a = b then true
  else match t.blockIdx a, t.blockIdx b with
    | some i, some j =>
      if t.size ≤ i ∨ t.size ≤ j then false
      else t.stamps.dfsIn i ≤ t.stamps.dfsIn j ∧ t.stamps.dfsOut j ≤ t.stamps.dfsOut i
    | _, _ => false

def immediateDominator : Option Nat := do
  let i ← t.blockIdx b
  let d ← t.idom i
  if d = i then none else t.reachableBlocks[d]?

def children : List Nat :=
  match t.blockIdx b with
  | some i => (t.childList i).filterMap (t.reachableBlocks[·]?)
  | none => []

end DominatorTree

end Brass.Mir
