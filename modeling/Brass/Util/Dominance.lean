import Brass.Util.Search

/-!
# Dominance in a rooted graph

A node dominates another one when every path from the root to that one passes through it.
`Numbers` is what a reverse postorder gives: every node but the root has an edge from a node
with a smaller number. Then the number of a dominator is at most the number of the node it
dominates.
-/

namespace Brass.Util.Dominance

variable {α : Type} {next : α → List α} {root a b c d u v : α} {num : α → Nat}

/-- The nodes of a path from the root, the last one first. -/
inductive PathTo (next : α → List α) (root : α) : α → List α → Prop
  | root : PathTo next root root [root]
  | step {u v : α} {l : List α} : PathTo next root u l → v ∈ next u →
      PathTo next root v (v :: l)

def Dominates (next : α → List α) (root a b : α) : Prop :=
  ∀ l, PathTo next root b l → a ∈ l

/-- `d` is the strict dominator of `b` that all strict dominators of `b` dominate. -/
structure ClosestDominator (next : α → List α) (root d b : α) : Prop where
  ne : d ≠ b
  dominates : Dominates next root d b
  closest : ∀ e, e ≠ b → Dominates next root e b → Dominates next root e d

/-! ## Paths -/

theorem PathTo.self_mem {l : List α} (h : PathTo next root b l) : b ∈ l := by
  cases h with
  | root => exact List.mem_cons_self
  | step _ _ => exact List.mem_cons_self

theorem PathTo.reaches {l : List α} (h : PathTo next root b l) :
    ∀ u ∈ l, Search.Reaches next root u ∧ Search.Reaches next u b := by
  induction h with
  | root =>
    intro u hu
    obtain rfl := List.mem_singleton.mp hu
    exact ⟨.refl, .refl⟩
  | step hl hv ih =>
    intro u hu
    rcases List.mem_cons.mp hu with rfl | hu
    · exact ⟨(ih _ hl.self_mem).1.tail hv, .refl⟩
    · exact ⟨(ih u hu).1, (ih u hu).2.tail hv⟩

theorem exists_path (h : Search.Reaches next root b) : ∃ l, PathTo next root b l := by
  induction h with
  | refl => exact ⟨_, .root⟩
  | tail _ hv ih =>
    obtain ⟨l, hl⟩ := ih
    exact ⟨_, hl.step hv⟩

theorem PathTo.cut {l : List α} (h : PathTo next root b l) (ha : a ∈ l) :
    ∃ l', PathTo next root a l' ∧ (a ≠ b → l'.length < l.length) := by
  induction h with
  | root =>
    obtain rfl := List.mem_singleton.mp ha
    exact ⟨_, .root, fun hne => absurd rfl hne⟩
  | @step u v l hl hv ih =>
    rcases List.mem_cons.mp ha with rfl | ha
    · exact ⟨_, hl.step hv, fun hne => absurd rfl hne⟩
    · by_cases hau : a = u
      · subst hau
        exact ⟨l, hl, fun _ => Nat.lt_succ_self _⟩
      · obtain ⟨l', hl', hless⟩ := ih ha
        exact ⟨l', hl', fun _ => Nat.lt_succ_of_lt (hless hau)⟩

theorem PathTo.root_mem {l : List α} (h : PathTo next root b l) : root ∈ l := by
  induction h with
  | root => exact List.mem_cons_self
  | step _ _ ih => exact List.mem_cons_of_mem _ ih

/-! ## The relation -/

theorem dominates_refl : Dominates next root a a := fun _ h => h.self_mem

theorem dominates_root_iff : Dominates next root a root ↔ a = root := by
  constructor
  · intro h
    exact List.mem_singleton.mp (h _ .root)
  · rintro rfl
    exact dominates_refl

/-- A strict dominator dominates the nodes before the one it dominates. -/
theorem Dominates.before (h : Dominates next root a b) (hne : a ≠ b) (hb : b ∈ next u) :
    Dominates next root a u := by
  intro l hl
  exact (List.mem_cons.mp (h _ (hl.step hb))).resolve_left hne

theorem reaches_of_dominates (hb : Search.Reaches next root b)
    (h : Dominates next root a b) : Search.Reaches next root a := by
  obtain ⟨l, hl⟩ := exists_path hb
  exact (hl.reaches a (h l hl)).1

/-- Each of two nodes would be on the way to the other one, and the paths ever shorter. -/
theorem dominates_antisymm (hb : Search.Reaches next root b) (hab : Dominates next root a b)
    (hba : Dominates next root b a) : a = b := by
  by_contra hne
  have hnone : ∀ n, ∀ l, l.length = n → ¬ PathTo next root b l := by
    intro n
    induction n using Nat.strongRecOn with
    | ind n ih =>
      intro l hn hl
      obtain ⟨l', hl', hless⟩ := hl.cut (hab l hl)
      obtain ⟨l'', hl'', hless'⟩ := hl'.cut (hba l' hl')
      have := hless hne
      have := hless' (Ne.symm hne)
      exact ih l''.length (by omega) l'' rfl hl''
  obtain ⟨l, hl⟩ := exists_path hb
  exact hnone _ l rfl hl

theorem ClosestDominator.unique (hb : Search.Reaches next root b)
    (hc : ClosestDominator next root c b) (hd : ClosestDominator next root d b) : c = d :=
  dominates_antisymm (reaches_of_dominates hb hd.dominates)
    (hd.closest c hc.ne hc.dominates) (hc.closest d hd.ne hd.dominates)

/-! ## Numbered nodes -/

/-- Every node of `nodes` but the root has an edge from a node with a smaller number. -/
def Numbers (next : α → List α) (root : α) (nodes : α → Prop) (num : α → Nat) : Prop :=
  ∀ v, nodes v → v ≠ root → ∃ u, nodes u ∧ v ∈ next u ∧ num u < num v

variable {nodes : α → Prop}

theorem Numbers.le (h : Numbers next root nodes num) (hab : Dominates next root a b)
    (hb : nodes b) : num a ≤ num b := by
  induction hn : num b using Nat.strongRecOn generalizing b with
  | ind n ih =>
    by_cases hroot : b = root
    · subst hroot
      rw [dominates_root_iff.mp hab]
      exact Nat.le_of_eq hn
    · by_cases hne : a = b
      · rw [hne]
        exact Nat.le_of_eq hn
      · obtain ⟨u, hu, hbu, hlt⟩ := h b hb hroot
        have := ih (num u) (by omega) (hab.before hne hbu) hu rfl
        omega

end Brass.Util.Dominance
