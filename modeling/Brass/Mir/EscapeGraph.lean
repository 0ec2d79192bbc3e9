import Brass.Util.Worklist

/-!
# The connection graph of the escape analysis

`ConnectionGraph` of `mir/escape_graph.cpp`: references, objects and their fields, what each may
point to, the references that a reference is copied to, and how far each escapes. A node that is
not in `nodes` has the state and the sets of a new one. Sets are lists without a repetition, in
the order in which their members were added.
-/

namespace Brass.Mir.Escape

open Brass.Util

inductive EscapeState
  | noEscape
  | argEscape
  | globalEscape
  deriving DecidableEq, Repr

def EscapeState.toNat : EscapeState → Nat
  | .noEscape => 0
  | .argEscape => 1
  | .globalEscape => 2

instance : LinearOrder EscapeState :=
  LinearOrder.lift' EscapeState.toNat fun a b h => by cases a <;> cases b <;> first | rfl | cases h

theorem noEscape_le (s : EscapeState) : .noEscape ≤ s := Nat.zero_le s.toNat

theorem ne_noEscape_of_le {s t : EscapeState} (h : s ≤ t) (hs : s ≠ .noEscape) : t ≠ .noEscape := by
  rintro rfl
  exact hs (le_antisymm h (noEscape_le s))

/-- An object of an allocation, or the one that a parameter of the function points to. -/
inductive ObjectNode
  | allocation (v : Nat)
  | phantom (param : Nat)
  deriving DecidableEq, Repr

inductive CGNode
  | reference (v : Nat)
  | object (o : ObjectNode)
  | field (parent : ObjectNode) (offset : Int)
  deriving DecidableEq, Repr

structure ConnectionGraph where
  nodes : List CGNode
  state : CGNode → EscapeState
  pointsTo : CGNode → List ObjectNode
  deferred : CGNode → List CGNode

namespace ConnectionGraph

variable {g g' : ConnectionGraph} {n u v : CGNode} {o : ObjectNode}

def empty : ConnectionGraph where
  nodes := []
  state _ := .noEscape
  pointsTo _ := []
  deferred _ := []

def create (g : ConnectionGraph) (n : CGNode) : ConnectionGraph :=
  if n ∈ g.nodes then g else { g with nodes := g.nodes ++ [n] }

def addPointsTo (g : ConnectionGraph) (n : CGNode) (o : ObjectNode) : ConnectionGraph :=
  if o ∈ g.pointsTo n then g
  else { g with pointsTo := Function.update g.pointsTo n (g.pointsTo n ++ [o]) }

def addDeferred (g : ConnectionGraph) (u v : CGNode) : ConnectionGraph :=
  if u = v ∨ v ∈ g.deferred u then g
  else { g with deferred := Function.update g.deferred u (g.deferred u ++ [v]) }

def markEscapeState (g : ConnectionGraph) (n : CGNode) (s : EscapeState) : ConnectionGraph :=
  if g.state n < s then { g with state := Function.update g.state n s } else g

def getOrCreateRefNode (g : ConnectionGraph) (v : Nat) : ConnectionGraph := g.create (.reference v)

def createObjectNode (g : ConnectionGraph) (o : ObjectNode) (initial : EscapeState) :
    ConnectionGraph :=
  (g.create (.object o)).markEscapeState (.object o) initial

def getOrCreateFieldNode (g : ConnectionGraph) (o : ObjectNode) (offset : Int) : ConnectionGraph :=
  if .field o offset ∈ g.nodes then g
  else (g.create (.field o offset)).markEscapeState (.field o offset) (g.state (.object o))

/-! ## Propagation -/

def pushAlong (u : CGNode) (acc : ConnectionGraph × Bool) (v : CGNode) : ConnectionGraph × Bool :=
  let g := (acc.1.pointsTo u).foldl (fun g o => g.addPointsTo v o) acc.1
  (g, acc.2 || decide ((acc.1.pointsTo v).length < (g.pointsTo v).length))

def pushFrom (acc : ConnectionGraph × Bool) (u : CGNode) : ConnectionGraph × Bool :=
  (acc.1.deferred u).foldl (pushAlong u) acc

def pointsToRound (g : ConnectionGraph) : ConnectionGraph × Bool :=
  g.nodes.foldl pushFrom (g, false)

/-- The nodes whose state the worklist raises to that of a node. -/
def escapesTo (g : ConnectionGraph) : CGNode → List CGNode
  | .object o =>
    g.nodes.filter (fun n => match n with | .field o' _ => o' = o | _ => false) ++
      g.nodes.filter fun n => o ∈ g.pointsTo n
  | .field o offset => (g.pointsTo (.field o offset)).map .object ++ [.object o]
  | .reference v => (g.pointsTo (.reference v)).map .object ++ g.deferred (.reference v)

def propagateStates (fuel : Nat) (g : ConnectionGraph) : Option ConnectionGraph :=
  (raiseAlong g.escapesTo fuel g.state (g.nodes.filter fun n => .noEscape < g.state n)).map
    fun state => { g with state }

def propagate (fuel : Nat) (g : ConnectionGraph) : Option ConnectionGraph :=
  (untilStable (fun g => some (pointsToRound g)) fuel g).bind (propagateStates fuel)

def getEscapeState (g : ConnectionGraph) (v : Nat) : EscapeState :=
  if .object (.allocation v) ∈ g.nodes then g.state (.object (.allocation v))
  else if .reference v ∈ g.nodes then
    (g.pointsTo (.reference v)).foldl (fun s o => max s (g.state (.object o)))
      (g.state (.reference v))
  else .globalEscape

/-! ## Graphs grow -/

structure Grows (g g' : ConnectionGraph) : Prop where
  nodes : ∀ n ∈ g.nodes, n ∈ g'.nodes
  pointsTo : ∀ n, ∀ o ∈ g.pointsTo n, o ∈ g'.pointsTo n
  deferred : ∀ u, ∀ v ∈ g.deferred u, v ∈ g'.deferred u
  state : ∀ n, g.state n ≤ g'.state n

theorem Grows.refl (g : ConnectionGraph) : g.Grows g :=
  ⟨fun _ => id, fun _ _ => id, fun _ _ => id, fun _ => le_refl _⟩

theorem Grows.trans {g'' : ConnectionGraph} (h : g.Grows g') (h' : g'.Grows g'') : g.Grows g'' where
  nodes n hn := h'.nodes n (h.nodes n hn)
  pointsTo n o ho := h'.pointsTo n o (h.pointsTo n o ho)
  deferred u v hv := h'.deferred u v (h.deferred u v hv)
  state n := (h.state n).trans (h'.state n)

theorem mem_create (g : ConnectionGraph) (n : CGNode) : n ∈ (g.create n).nodes := by
  unfold create
  split
  · assumption
  · exact List.mem_append_right _ List.mem_cons_self

theorem grows_create (g : ConnectionGraph) (n : CGNode) : g.Grows (g.create n) := by
  unfold create
  split
  · exact .refl g
  · exact ⟨fun m hm => List.mem_append_left _ hm, fun _ _ => id, fun _ _ => id, fun _ => le_refl _⟩

theorem mem_addPointsTo (g : ConnectionGraph) (n : CGNode) (o : ObjectNode) :
    o ∈ (g.addPointsTo n o).pointsTo n := by
  unfold addPointsTo
  split
  · assumption
  · simp

theorem mem_pointsTo_addPointsTo {m : CGNode} {o' : ObjectNode}
    (h : o' ∈ (g.addPointsTo n o).pointsTo m) : o' ∈ g.pointsTo m ∨ (m = n ∧ o' = o) := by
  unfold addPointsTo at h
  split at h
  · exact .inl h
  · dsimp only at h
    by_cases hm : m = n
    · subst hm
      rw [Function.update_self] at h
      rcases List.mem_append.1 h with h | h
      · exact .inl h
      · exact .inr ⟨rfl, List.mem_singleton.1 h⟩
    · rw [Function.update_of_ne hm] at h
      exact .inl h

theorem grows_addPointsTo (g : ConnectionGraph) (n : CGNode) (o : ObjectNode) :
    g.Grows (g.addPointsTo n o) := by
  unfold addPointsTo
  split
  · exact .refl g
  · refine ⟨fun _ => id, fun m o' ho' => ?_, fun _ _ => id, fun _ => le_refl _⟩
    by_cases hm : m = n
    · subst hm
      simp [ho']
    · simpa [Function.update_of_ne hm] using ho'

theorem mem_addDeferred (g : ConnectionGraph) (u v : CGNode) :
    u = v ∨ v ∈ (g.addDeferred u v).deferred u := by
  unfold addDeferred
  split
  · assumption
  · simp

theorem mem_deferred_addDeferred {a b : CGNode} (h : b ∈ (g.addDeferred u v).deferred a) :
    b ∈ g.deferred a ∨ (a = u ∧ b = v) := by
  unfold addDeferred at h
  split at h
  · exact .inl h
  · dsimp only at h
    by_cases ha : a = u
    · subst ha
      rw [Function.update_self] at h
      rcases List.mem_append.1 h with h | h
      · exact .inl h
      · exact .inr ⟨rfl, List.mem_singleton.1 h⟩
    · rw [Function.update_of_ne ha] at h
      exact .inl h

theorem grows_addDeferred (g : ConnectionGraph) (u v : CGNode) : g.Grows (g.addDeferred u v) := by
  unfold addDeferred
  split
  · exact .refl g
  · refine ⟨fun _ => id, fun _ _ => id, fun a b hb => ?_, fun _ => le_refl _⟩
    by_cases ha : a = u
    · subst ha
      simp [hb]
    · simpa [Function.update_of_ne ha] using hb

theorem le_markEscapeState (g : ConnectionGraph) (n : CGNode) (s : EscapeState) :
    s ≤ (g.markEscapeState n s).state n := by
  unfold markEscapeState
  split
  · simp
  · exact not_lt.1 ‹_›

theorem grows_markEscapeState (g : ConnectionGraph) (n : CGNode) (s : EscapeState) :
    g.Grows (g.markEscapeState n s) := by
  unfold markEscapeState
  split
  · rename_i hlt
    refine ⟨fun _ => id, fun _ _ => id, fun _ _ => id, fun m => ?_⟩
    by_cases hm : m = n
    · subst hm
      simpa using hlt.le
    · simp [Function.update_of_ne hm]
  · exact .refl g

end ConnectionGraph

end Brass.Mir.Escape
