import Mathlib.Data.List.Nodup
import Mathlib.Data.List.Perm.Subperm

/-!
# Searching a graph with marks

A search takes nodes from a list of things to do, and adds their neighbours that are not
marked yet, marking them. Whether the list is a queue or a stack makes no difference to what
is marked in the end: the nodes that are reachable from the start (`mem_search_iff`). The
fuel of a search is enough when it is the size of a set that holds them all.
-/

namespace Brass.Util.Search

open List

variable {α : Type} [DecidableEq α] {next : α → List α} {push : List α → List α → List α}
  {root u v : α} {todo marked space : List α} {fuel : Nat}
variable {roots : List α}

/-- The neighbours that have no mark yet, each of them once. -/
def fresh (next : α → List α) (marked : List α) (u : α) : List α :=
  (next u).foldl (fun acc v => if v ∈ marked ∨ v ∈ acc then acc else acc ++ [v]) []

def search (next : α → List α) (push : List α → List α → List α) :
    Nat → List α → List α → List α
  | 0, _, marked => marked
  | _, [], marked => marked
  | fuel + 1, u :: todo, marked =>
    search next push fuel (push (fresh next marked u) todo) (marked ++ fresh next marked u)

/-- The list of things to do is a queue. -/
def breadthFirst (next : α → List α) (fuel : Nat) (root : α) : List α :=
  search next (fun new todo => todo ++ new) fuel [root] [root]

/-- The list of things to do is a stack. -/
def depthFirst (next : α → List α) (fuel : Nat) (root : α) : List α :=
  search next (fun new todo => new.reverse ++ todo) fuel [root] [root]

def Reaches (next : α → List α) : α → α → Prop := Relation.ReflTransGen (fun u v => v ∈ next u)

/-! ## One step -/

theorem fresh_spec (next : α → List α) (marked : List α) (u : α) : (fresh next marked u).Nodup ∧
      ∀ v, v ∈ fresh next marked u ↔ v ∈ next u ∧ v ∉ marked := by
  have hfold : ∀ (vs acc : List α), acc.Nodup →
      (vs.foldl (fun acc v => if v ∈ marked ∨ v ∈ acc then acc else acc ++ [v]) acc).Nodup ∧
      ∀ v, v ∈ vs.foldl (fun acc v => if v ∈ marked ∨ v ∈ acc then acc else acc ++ [v]) acc ↔
        v ∈ acc ∨ (v ∈ vs ∧ v ∉ marked) := by
    intro vs
    induction vs with
    | nil => exact fun acc hacc => ⟨hacc, by simp⟩
    | cons x vs ih =>
      intro acc hacc
      rw [foldl_cons]
      split
      · rename_i hx
        obtain ⟨hnodup, hmem⟩ := ih acc hacc
        refine ⟨hnodup, fun v => (hmem v).trans ⟨?_, ?_⟩⟩
        · rintro (h | ⟨h, hm⟩)
          · exact .inl h
          · exact .inr ⟨mem_cons_of_mem _ h, hm⟩
        · rintro (h | ⟨h, hm⟩)
          · exact .inl h
          · rcases mem_cons.mp h with rfl | h
            · exact .inl (hx.resolve_left hm)
            · exact .inr ⟨h, hm⟩
      · rename_i hx
        obtain ⟨hm, ha⟩ := not_or.mp hx
        have hacc' : (acc ++ [x]).Nodup :=
          List.Nodup.append hacc (nodup_singleton x) (by simpa using ha)
        obtain ⟨hnodup, hmem⟩ := ih (acc ++ [x]) hacc'
        refine ⟨hnodup, fun v => (hmem v).trans ⟨?_, ?_⟩⟩
        · rintro (h | ⟨h, hv⟩)
          · rcases mem_append.mp h with h | h
            · exact .inl h
            · obtain rfl := mem_singleton.mp h
              exact .inr ⟨mem_cons_self, hm⟩
          · exact .inr ⟨mem_cons_of_mem _ h, hv⟩
        · rintro (h | ⟨h, hv⟩)
          · exact .inl (mem_append_left _ h)
          · rcases mem_cons.mp h with rfl | h
            · exact .inl (mem_append_right _ (mem_singleton.mpr rfl))
            · exact .inr ⟨h, hv⟩
  obtain ⟨hnodup, hmem⟩ := hfold (next u) [] nodup_nil
  exact ⟨hnodup, fun v => (hmem v).trans (by simp)⟩

/-- What holds during a search from several roots: a marked node is still to do, or its
neighbours are marked. -/
structure SearchingFrom (next : α → List α) (roots todo marked : List α) : Prop where
  nodup : marked.Nodup
  todoNodup : todo.Nodup
  sub : ∀ u ∈ todo, u ∈ marked
  rooted : ∀ r ∈ roots, r ∈ marked
  reached : ∀ u ∈ marked, ∃ r ∈ roots, Reaches next r u
  closed : ∀ u ∈ marked, u ∉ todo → ∀ v ∈ next u, v ∈ marked

omit [DecidableEq α] in
theorem searchingFrom_init (next : α → List α) (hroots : roots.Nodup) :
    SearchingFrom next roots roots roots where
  nodup := hroots
  todoNodup := hroots
  sub := fun _ h => h
  rooted := fun _ h => h
  reached := fun u hu => ⟨u, hu, Relation.ReflTransGen.refl⟩
  closed := fun _ hu hnot => absurd hu hnot

theorem SearchingFrom.step (h : SearchingFrom next roots (u :: todo) marked)
    (hpush : ∀ new todo, (push new todo).Perm (new ++ todo)) :
    SearchingFrom next roots (push (fresh next marked u) todo) (marked ++ fresh next marked u) := by
  obtain ⟨hnew, hmem⟩ := fresh_spec next marked u
  have hperm := hpush (fresh next marked u) todo
  have htodo := nodup_cons.mp h.todoNodup
  have hu : u ∈ marked := h.sub u mem_cons_self
  refine ⟨?_, ?_, ?_, fun r hr => mem_append_left _ (h.rooted r hr), ?_, ?_⟩
  · exact List.Nodup.append h.nodup hnew (fun v hv hv' => ((hmem v).mp hv').2 hv)
  · rw [hperm.nodup_iff]
    refine List.Nodup.append hnew htodo.2 (fun v hv hv' => ?_)
    exact ((hmem v).mp hv).2 (h.sub v (mem_cons_of_mem _ hv'))
  · intro v hv
    rcases mem_append.mp (hperm.mem_iff.mp hv) with hv | hv
    · exact mem_append_right _ hv
    · exact mem_append_left _ (h.sub v (mem_cons_of_mem _ hv))
  · intro v hv
    rcases mem_append.mp hv with hv | hv
    · exact h.reached v hv
    · obtain ⟨r, hr, hru⟩ := h.reached u hu
      exact ⟨r, hr, hru.tail ((hmem v).mp hv).1⟩
  · intro v hv hnot w hw
    have hnot' : v ∉ fresh next marked u ∧ v ∉ todo := by
      constructor
      · exact fun hf => hnot (hperm.mem_iff.mpr (mem_append_left _ hf))
      · exact fun ht => hnot (hperm.mem_iff.mpr (mem_append_right _ ht))
    have hvm := (mem_append.mp hv).resolve_right hnot'.1
    by_cases hvu : v = u
    · subst hvu
      by_cases hwm : w ∈ marked
      · exact mem_append_left _ hwm
      · exact mem_append_right _ ((hmem w).mpr ⟨hw, hwm⟩)
    · refine mem_append_left _ (h.closed v hvm ?_ w hw)
      exact fun hmem' => (mem_cons.mp hmem').elim hvu hnot'.2

/-- What holds during a search: a marked node is still to do, or its neighbours are marked. -/
structure Searching (next : α → List α) (root : α) (todo marked : List α) : Prop where
  nodup : marked.Nodup
  todoNodup : todo.Nodup
  sub : ∀ u ∈ todo, u ∈ marked
  rooted : root ∈ marked
  reached : ∀ u ∈ marked, Reaches next root u
  closed : ∀ u ∈ marked, u ∉ todo → ∀ v ∈ next u, v ∈ marked

omit [DecidableEq α] in
theorem searching_iff : Searching next root todo marked ↔ SearchingFrom next [root] todo marked := by
  constructor
  · rintro ⟨h₁, h₂, h₃, h₄, h₅, h₆⟩
    exact ⟨h₁, h₂, h₃, by simpa using h₄, by simpa using h₅, h₆⟩
  · rintro ⟨h₁, h₂, h₃, h₄, h₅, h₆⟩
    exact ⟨h₁, h₂, h₃, by simpa using h₄, by simpa using h₅, h₆⟩

omit [DecidableEq α] in
theorem searching_init (next : α → List α) (root : α) : Searching next root [root] [root] :=
  searching_iff.mpr (searchingFrom_init next (nodup_singleton root))

/-! ## The whole search -/

/-- With enough fuel nothing is left to do. -/
theorem SearchingFrom.search (hpush : ∀ new todo, (push new todo).Perm (new ++ todo))
    (hspace : ∀ r ∈ roots, ∀ u, Reaches next r u → u ∈ space) :
    ∀ {fuel : Nat} {todo marked : List α}, SearchingFrom next roots todo marked →
      space.length + todo.length ≤ fuel + marked.length →
      SearchingFrom next roots [] (search next push fuel todo marked) := by
  intro fuel
  induction fuel with
  | zero =>
    intro todo marked h hfuel
    have hsub : marked ⊆ space := by
      intro u hu
      obtain ⟨r, hr, hru⟩ := h.reached u hu
      exact hspace r hr u hru
    have hle : marked.length ≤ space.length := (subperm_of_subset h.nodup hsub).length_le
    have hnil : todo = [] := length_eq_zero_iff.mp (by omega)
    subst hnil
    exact h
  | succ fuel ih =>
    intro todo marked h hfuel
    cases todo with
    | nil => exact h
    | cons u todo =>
      refine ih (h.step hpush) ?_
      have hlen := (hpush (fresh next marked u) todo).length_eq
      simp only [length_append, length_cons] at hlen hfuel ⊢
      omega

theorem Searching.search (hpush : ∀ new todo, (push new todo).Perm (new ++ todo))
    (hspace : ∀ u, Reaches next root u → u ∈ space) (h : Searching next root todo marked)
    (hfuel : space.length + todo.length ≤ fuel + marked.length) :
    Searching next root [] (search next push fuel todo marked) :=
  searching_iff.mpr ((searching_iff.mp h).search hpush (by simpa using hspace) hfuel)

omit [DecidableEq α] in
theorem SearchingFrom.mem_iff (h : SearchingFrom next roots [] marked) :
    v ∈ marked ↔ ∃ r ∈ roots, Reaches next r v := by
  refine ⟨h.reached v, ?_⟩
  rintro ⟨r, hr, hv⟩
  induction hv with
  | refl => exact h.rooted r hr
  | tail _ hstep ih => exact h.closed _ ih (by simp) _ hstep

omit [DecidableEq α] in
theorem Searching.mem_iff (h : Searching next root [] marked) :
    v ∈ marked ↔ Reaches next root v := by
  simpa using (searching_iff.mp h).mem_iff (v := v)

theorem mem_searchFrom_iff (hroots : roots.Nodup)
    (hpush : ∀ new todo, (push new todo).Perm (new ++ todo))
    (hspace : ∀ r ∈ roots, ∀ u, Reaches next r u → u ∈ space) (hfuel : space.length ≤ fuel) :
    (search next push fuel roots roots).Nodup ∧
      ∀ v, v ∈ search next push fuel roots roots ↔ ∃ r ∈ roots, Reaches next r v := by
  have h := (searchingFrom_init next hroots).search hpush hspace
    (Nat.add_le_add_right hfuel roots.length)
  exact ⟨h.nodup, fun v => h.mem_iff⟩

theorem mem_search_iff (hpush : ∀ new todo, (push new todo).Perm (new ++ todo))
    (hspace : ∀ u, Reaches next root u → u ∈ space) (hfuel : space.length ≤ fuel) :
    (search next push fuel [root] [root]).Nodup ∧
      ∀ v, v ∈ search next push fuel [root] [root] ↔ Reaches next root v := by
  have h := (searching_init next root).search hpush hspace (by simpa using hfuel)
  exact ⟨h.nodup, fun v => h.mem_iff⟩

theorem marked_prefix_search (fuel : Nat) (todo marked : List α) :
    ∃ rest, search next push fuel todo marked = marked ++ rest := by
  induction fuel generalizing todo marked with
  | zero => exact ⟨[], (append_nil _).symm⟩
  | succ fuel ih =>
    cases todo with
    | nil => exact ⟨[], (append_nil _).symm⟩
    | cons u todo =>
      obtain ⟨rest, hrest⟩ := ih (push (fresh next marked u) todo) (marked ++ fresh next marked u)
      exact ⟨fresh next marked u ++ rest, by rw [search, hrest, append_assoc]⟩

theorem breadthFirst_head (fuel : Nat) (root : α) :
    (breadthFirst next fuel root)[0]? = some root := by
  unfold breadthFirst
  obtain ⟨rest, hrest⟩ := @marked_prefix_search _ _ next (fun new todo => todo ++ new) fuel
    [root] [root]
  rw [hrest]
  rfl

theorem mem_breadthFirst_iff (hspace : ∀ u, Reaches next root u → u ∈ space)
    (hfuel : space.length ≤ fuel) :
    (breadthFirst next fuel root).Nodup ∧
      ∀ v, v ∈ breadthFirst next fuel root ↔ Reaches next root v :=
  mem_search_iff (fun _ _ => perm_append_comm) hspace hfuel

theorem mem_depthFirst_iff (hspace : ∀ u, Reaches next root u → u ∈ space)
    (hfuel : space.length ≤ fuel) :
    (depthFirst next fuel root).Nodup ∧ ∀ v, v ∈ depthFirst next fuel root ↔ Reaches next root v :=
  mem_search_iff (fun new todo => (reverse_perm new).append_right todo) hspace hfuel

end Brass.Util.Search
