import Brass.Util.Search

/-!
# Flow graphs and dominance

The blocks of a function are numbered, and block 0 is the entry. `dominates` is what
`DominatorTree::dominates` answers: a block dominates itself, and `a` dominates another block
`b` when `b` is reachable and no path from the entry reaches it without `a`.
-/

namespace Brass.Mir

open Brass.Util

structure FlowGraph where
  succs : List (List Nat)
  nonempty : 0 < succs.length
  closed : ∀ ss ∈ succs, ∀ b ∈ ss, b < succs.length

namespace FlowGraph

variable {g : FlowGraph} {a b u v : Nat}

def size (g : FlowGraph) : Nat := g.succs.length

def next (g : FlowGraph) (b : Nat) : List Nat := g.succs.getD b []

def nextAvoiding (g : FlowGraph) (a b : Nat) : List Nat := (g.next b).filter (· ≠ a)

def reachable (g : FlowGraph) : List Nat := Search.breadthFirst g.next g.size 0

def reachableAvoiding (g : FlowGraph) (a : Nat) : List Nat :=
  if a = 0 then [] else Search.breadthFirst (g.nextAvoiding a) g.size 0

def dominates (g : FlowGraph) (a b : Nat) : Bool :=
  a == b || (decide (b ∈ g.reachable) && !decide (b ∈ g.reachableAvoiding a))

/-! ## Paths -/

/-- A path from `u` to `v` along edges that do not enter `a`. -/
abbrev Avoids (g : FlowGraph) (a : Nat) : Nat → Nat → Prop := Search.Reaches (g.nextAvoiding a)

theorem mem_nextAvoiding : v ∈ g.nextAvoiding a u ↔ v ∈ g.next u ∧ v ≠ a := by
  simp [nextAvoiding]

theorem next_lt (h : v ∈ g.next u) : v < g.size := by
  unfold next at h
  by_cases hu : u < g.succs.length
  · rw [List.getD_eq_getElem?_getD, List.getElem?_eq_getElem hu] at h
    exact g.closed _ (List.getElem_mem hu) v h
  · rw [List.getD_eq_getElem?_getD, List.getElem?_eq_none (by omega)] at h
    exact absurd h List.not_mem_nil

theorem lt_of_reaches {next : Nat → List Nat} (hnext : ∀ u, ∀ v ∈ next u, v < g.size)
    (h : Search.Reaches next 0 b) : b < g.size := by
  cases h with
  | refl => exact g.nonempty
  | tail _ hstep => exact hnext _ _ hstep

theorem mem_breadthFirst {next : Nat → List Nat} (hnext : ∀ u, ∀ v ∈ next u, v < g.size) :
    b ∈ Search.breadthFirst next g.size 0 ↔ Search.Reaches next 0 b :=
  (Search.mem_breadthFirst_iff (fun _ hu => List.mem_range.mpr (lt_of_reaches hnext hu))
    (by simp)).2 b

theorem mem_reachable : b ∈ g.reachable ↔ Search.Reaches g.next 0 b :=
  mem_breadthFirst fun _ _ => next_lt

theorem mem_reachableAvoiding : b ∈ g.reachableAvoiding a ↔ a ≠ 0 ∧ g.Avoids a 0 b := by
  unfold reachableAvoiding
  split
  · rename_i h
    simp [h]
  · rename_i h
    rw [mem_breadthFirst fun _ _ hv => next_lt (mem_nextAvoiding.mp hv).1]
    exact ⟨fun hb => ⟨h, hb⟩, fun hb => hb.2⟩

theorem dominates_iff : g.dominates a b = true ↔
    a = b ∨ (Search.Reaches g.next 0 b ∧ (a ≠ 0 → ¬ g.Avoids a 0 b)) := by
  simp only [dominates, Bool.or_eq_true, beq_iff_eq, Bool.and_eq_true, decide_eq_true_iff,
    Bool.not_eq_true', decide_eq_false_iff_not, mem_reachable, mem_reachableAvoiding, not_and]

theorem Avoids.ne (h : g.Avoids a u v) (hu : u ≠ a) : v ≠ a := by
  cases h with
  | refl => exact hu
  | tail _ hstep => exact (mem_nextAvoiding.mp hstep).2

theorem avoids_of_not_reaches (ha : ¬ Search.Reaches g.next 0 a)
    (h : Search.Reaches g.next 0 b) : g.Avoids a 0 b := by
  induction h with
  | refl => exact .refl
  | @tail u v huv hstep ih =>
    refine ih.tail (mem_nextAvoiding.mpr ⟨hstep, ?_⟩)
    rintro rfl
    exact ha (huv.tail hstep)

theorem reaches_of_dominates (h : g.dominates a b = true) (hne : a ≠ b) :
    Search.Reaches g.next 0 a := by
  obtain ⟨hb, hall⟩ := (dominates_iff.mp h).resolve_left hne
  by_contra ha
  refine hall ?_ (avoids_of_not_reaches ha hb)
  rintro rfl
  exact ha .refl

theorem dominates_of_avoids (h : g.dominates a b = true) (hne : a ≠ b)
    (hv : Search.Reaches g.next 0 v) (hvb : g.Avoids a v b) : g.dominates a v = true := by
  obtain ⟨-, hall⟩ := (dominates_iff.mp h).resolve_left hne
  exact dominates_iff.mpr (Or.inr ⟨hv, fun ha hav => hall ha (hav.trans hvb)⟩)

end FlowGraph

end Brass.Mir
