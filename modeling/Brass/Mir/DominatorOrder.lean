import Mathlib.Algebra.Order.BigOperators.Group.Finset
import Mathlib.Tactic.Ring
import Brass.Mir.DominatorTree

/-!
# The reverse postorder of a flow graph

The depth first search comes to an end with every reachable block in its postorder once. In
what it has finished and what is on its stack, taken together, every block but the entry has a
predecessor further back, and no step changes that (`Searching.pop`, `Searching.push`). So in
reverse postorder every block but the entry has a predecessor before it (`IsNumbering`).
-/

namespace Brass.Mir.BlockGraph

open Brass.Util List

variable {G : BlockGraph} {u v n : Nat} {rest visited post : List Nat}
  {stack : List (Nat × List Nat)} {num : Nat → Nat}

/-- Every block of the list but the entry has an edge from a later one. -/
def Parented (succs : Nat → List Nat) : List Nat → Prop
  | [] => True
  | v :: vs => (v ≠ 0 → ∃ u ∈ vs, v ∈ succs u) ∧ Parented succs vs

structure IsPostOrder (G : BlockGraph) (post : List Nat) : Prop where
  nodup : post.Nodup
  mem_iff : ∀ v, v ∈ post ↔ v < G.size
  entry : post.getLast? = some 0
  parented : Parented G.succs post

/-- The blocks that are finished, and those that are on the stack. -/
def seen (post : List Nat) (stack : List (Nat × List Nat)) : List Nat :=
  post ++ stack.map Prod.fst

structure Searching (G : BlockGraph) (stack : List (Nat × List Nat)) (visited post : List Nat) :
    Prop where
  nodup : (seen post stack).Nodup
  visited_iff : ∀ v, v ∈ visited ↔ v ∈ seen post stack
  entry : (seen post stack).getLast? = some 0
  parented : Parented G.succs (seen post stack)
  lt : ∀ v ∈ visited, v < G.size
  frame : ∀ f ∈ stack, (∀ v ∈ f.2, v ∈ G.succs f.1) ∧ ∀ v ∈ G.succs f.1, v ∈ f.2 ∨ v ∈ visited
  closed : ∀ u ∈ post, ∀ v ∈ G.succs u, v ∈ visited

/-! ## One step of the search -/

theorem searching_init (G : BlockGraph) : Searching G [(0, G.succs 0)] [0] [] where
  nodup := nodup_singleton 0
  visited_iff := fun _ => Iff.rfl
  entry := rfl
  parented := ⟨fun h => absurd rfl h, trivial⟩
  lt := fun v hv => by
    obtain rfl := mem_singleton.mp hv
    exact G.pos
  frame := fun f hf => by
    obtain rfl := mem_singleton.mp hf
    exact ⟨fun _ hv => hv, fun _ hv => .inl hv⟩
  closed := fun _ hu => absurd hu not_mem_nil

theorem seen_pop : seen (post ++ [u]) stack = seen post ((u, rest) :: stack) := by
  rw [seen, seen, append_assoc]
  rfl

theorem Searching.pop (h : Searching G ((u, []) :: stack) visited post) :
    Searching G stack visited (post ++ [u]) where
  nodup := seen_pop ▸ h.nodup
  visited_iff := fun v => (h.visited_iff v).trans (by rw [← seen_pop])
  entry := seen_pop ▸ h.entry
  parented := seen_pop ▸ h.parented
  lt := h.lt
  frame := fun f hf => h.frame f (mem_cons_of_mem _ hf)
  closed := fun w hw v hv => by
    rcases mem_append.mp hw with hw | hw
    · exact h.closed w hw v hv
    · obtain rfl := mem_singleton.mp hw
      exact ((h.frame _ mem_cons_self).2 v hv).resolve_left not_mem_nil

theorem Searching.skip (h : Searching G ((u, v :: rest) :: stack) visited post)
    (hv : v ∈ visited) : Searching G ((u, rest) :: stack) visited post where
  nodup := h.nodup
  visited_iff := h.visited_iff
  entry := h.entry
  parented := h.parented
  lt := h.lt
  frame := fun f hf => by
    rcases mem_cons.mp hf with rfl | hf
    · obtain ⟨hsub, hall⟩ := h.frame _ mem_cons_self
      refine ⟨fun w hw => hsub w (mem_cons_of_mem _ hw), fun w hw => ?_⟩
      rcases hall w hw with hw | hw
      · rcases mem_cons.mp hw with rfl | hw
        · exact .inr hv
        · exact .inl hw
      · exact .inr hw
    · exact h.frame f (mem_cons_of_mem _ hf)
  closed := h.closed

theorem Parented.insert {succs : Nat → List Nat} {as bs : List Nat}
    (h : Parented succs (as ++ bs)) (hv : ∃ u ∈ bs, v ∈ succs u) :
    Parented succs (as ++ v :: bs) := by
  induction as with
  | nil => exact ⟨fun _ => hv, h⟩
  | cons a as ih =>
    refine ⟨fun ha => ?_, ih h.2⟩
    obtain ⟨u, hu, hau⟩ := h.1 ha
    refine ⟨u, ?_, hau⟩
    rcases mem_append.mp hu with hu | hu
    · exact mem_append_left _ hu
    · exact mem_append_right _ (mem_cons_of_mem _ hu)

theorem Searching.push (h : Searching G ((u, v :: rest) :: stack) visited post) (hv : v ∉ visited) :
    Searching G ((v, G.succs v) :: (u, rest) :: stack) (v :: visited) post := by
  have huv : v ∈ G.succs u := (h.frame _ mem_cons_self).1 v mem_cons_self
  have hseen : v ∉ post ++ (u :: stack.map Prod.fst) := fun hmem =>
    hv ((h.visited_iff v).mpr hmem)
  have hperm : (post ++ v :: u :: stack.map Prod.fst).Perm
      (v :: (post ++ (u :: stack.map Prod.fst))) := perm_middle
  refine ⟨?_, fun w => ?_, ?_, ?_, fun w hw => ?_, fun f hf => ?_, fun w hw x hx => ?_⟩
  · exact (hperm.nodup_iff).mpr (nodup_cons.mpr ⟨hseen, h.nodup⟩)
  · show w ∈ v :: visited ↔ w ∈ post ++ v :: u :: stack.map Prod.fst
    rw [hperm.mem_iff, mem_cons, mem_cons, h.visited_iff]
    rfl
  · have hlast := h.entry
    unfold seen at hlast ⊢
    simp only [map_cons, getLast?_append, getLast?_cons_cons] at hlast ⊢
    exact hlast
  · exact h.parented.insert ⟨u, mem_cons_self, huv⟩
  · rcases mem_cons.mp hw with rfl | hw
    · exact (G.succs_lt u _ huv).2
    · exact h.lt w hw
  · rcases mem_cons.mp hf with rfl | hf
    · exact ⟨fun _ hw => hw, fun _ hw => .inl hw⟩
    · rcases mem_cons.mp hf with rfl | hf
      · obtain ⟨hsub, hall⟩ := h.frame _ mem_cons_self
        refine ⟨fun w hw => hsub w (mem_cons_of_mem _ hw), fun w hw => ?_⟩
        rcases hall w hw with hw | hw
        · rcases mem_cons.mp hw with rfl | hw
          · exact .inr mem_cons_self
          · exact .inl hw
        · exact .inr (mem_cons_of_mem _ hw)
      · obtain ⟨hsub, hall⟩ := h.frame f (mem_cons_of_mem _ hf)
        exact ⟨hsub, fun w hw => (hall w hw).imp_right (mem_cons_of_mem _)⟩
  · exact mem_cons_of_mem _ (h.closed w hw x hx)

theorem Searching.done (h : Searching G [] visited post) : IsPostOrder G post := by
  have hseen : seen post [] = post := append_nil _
  have hvisited : ∀ v, v ∈ visited ↔ v ∈ post := fun v => by
    rw [h.visited_iff, hseen]
  have hentry := hseen ▸ h.entry
  refine ⟨hseen ▸ h.nodup, fun v => ?_, hentry, hseen ▸ h.parented⟩
  constructor
  · intro hv
    exact h.lt v ((hvisited v).mpr hv)
  · intro hv
    have hreach := G.reaches v hv
    induction hreach with
    | refl => exact mem_of_getLast? hentry
    | tail _ hstep ih =>
      exact (hvisited _).mp (h.closed _ (ih (G.succs_lt _ _ hstep).1) _ hstep)

/-! ## The whole search -/

/-- The steps that a search has left at most. -/
def stepsLeft (G : BlockGraph) (stack : List (Nat × List Nat)) (visited : List Nat) : Nat :=
  (stack.map fun f => f.2.length + 1).sum +
    ∑ v ∈ Finset.range G.size, if v ∈ visited then 0 else (G.succs v).length + 1

theorem stepsLeft_push (hlt : v < G.size) (hv : v ∉ visited) :
    stepsLeft G ((v, G.succs v) :: (u, rest) :: stack) (v :: visited) + 1 =
      stepsLeft G ((u, v :: rest) :: stack) visited := by
  have hmem : v ∈ Finset.range G.size := Finset.mem_range.mpr hlt
  unfold stepsLeft
  rw [← Finset.add_sum_erase _ _ hmem, ← Finset.add_sum_erase _ (fun w => if w ∈ visited then 0 else _)
    hmem, if_pos mem_cons_self, if_neg hv]
  have hrest : ∑ w ∈ (Finset.range G.size).erase v,
        (if w ∈ v :: visited then 0 else (G.succs w).length + 1) =
      ∑ w ∈ (Finset.range G.size).erase v, if w ∈ visited then 0 else (G.succs w).length + 1 := by
    refine Finset.sum_congr rfl fun w hw => ?_
    simp only [mem_cons, (Finset.mem_erase.mp hw).1, false_or]
  rw [hrest]
  simp only [map_cons, sum_cons, length_cons]
  omega

theorem Searching.loop (h : Searching G stack visited post) :
    ∃ result, IsPostOrder G result ∧ ∀ fuel, stepsLeft G stack visited < fuel →
      postOrderLoop G.succs fuel stack visited post = some result := by
  induction hm : stepsLeft G stack visited using Nat.strongRecOn
    generalizing stack visited post with
  | ind m ih =>
    match stack, h with
    | [], h =>
      refine ⟨post, h.done, fun fuel hfuel => ?_⟩
      obtain ⟨fuel, rfl⟩ := Nat.exists_eq_succ_of_ne_zero (by omega : fuel ≠ 0)
      rfl
    | (u, []) :: stack, h =>
      have hless : stepsLeft G stack visited + 1 = m := by
        rw [← hm, stepsLeft, stepsLeft, map_cons, sum_cons]
        simp only [length_nil]
        omega
      obtain ⟨result, hresult, hloop⟩ := ih _ (by omega) h.pop rfl
      refine ⟨result, hresult, fun fuel hfuel => ?_⟩
      obtain ⟨fuel, rfl⟩ := Nat.exists_eq_succ_of_ne_zero (by omega : fuel ≠ 0)
      exact hloop fuel (by omega)
    | (u, v :: rest) :: stack, h =>
      by_cases hv : v ∈ visited
      · have hless : stepsLeft G ((u, rest) :: stack) visited + 1 = m := by
          rw [← hm, stepsLeft, stepsLeft]
          simp only [map_cons, sum_cons, length_cons]
          omega
        obtain ⟨result, hresult, hloop⟩ := ih _ (by omega) (h.skip hv) rfl
        refine ⟨result, hresult, fun fuel hfuel => ?_⟩
        obtain ⟨fuel, rfl⟩ := Nat.exists_eq_succ_of_ne_zero (by omega : fuel ≠ 0)
        rw [postOrderLoop, if_pos hv]
        exact hloop fuel (by omega)
      · have hpush := h.push hv
        have hless := @stepsLeft_push G u v rest visited stack (hpush.lt v mem_cons_self) hv
        obtain ⟨result, hresult, hloop⟩ := ih _ (by omega) hpush rfl
        refine ⟨result, hresult, fun fuel hfuel => ?_⟩
        obtain ⟨fuel, rfl⟩ := Nat.exists_eq_succ_of_ne_zero (by omega : fuel ≠ 0)
        rw [postOrderLoop, if_neg hv]
        exact hloop fuel (by omega)

theorem postOrder_spec (G : BlockGraph) :
    ∃ post, IsPostOrder G post ∧ ∃ n, ∀ fuel, n ≤ fuel → G.postOrder fuel = some post := by
  obtain ⟨post, hpost, hloop⟩ := (searching_init G).loop
  exact ⟨post, hpost, _, fun fuel hfuel => hloop fuel hfuel⟩

/-! ## The numbers -/

/-- The blocks in descending order of their numbers, which are below `size`. -/
structure IsNumbering (G : BlockGraph) (post : List Nat) (num : Nat → Nat) : Prop where
  mem_iff : ∀ v, v ∈ post ↔ v < G.size
  sorted : post.Pairwise fun u v => num v < num u
  num_lt : ∀ v, v < G.size → num v < G.size
  entry_le : ∀ v, v < G.size → num 0 ≤ num v
  numbers : Dominance.Numbers G.succs 0 (· < G.size) num

theorem numberFrom_of_not_mem (hv : v ∉ post) : numberFrom n num post v = num v := by
  induction post generalizing n num with
  | nil => rfl
  | cons u post ih =>
    obtain ⟨hne, hv⟩ := not_or.mp (mt mem_cons.mpr hv)
    rw [numberFrom, ih hv, Function.update_of_ne hne]

theorem numberFrom_spec (hnodup : post.Nodup) (hlen : post.length ≤ n) :
    (∀ v ∈ post, numberFrom n num post v < n) ∧
      post.Pairwise fun u v => numberFrom n num post v < numberFrom n num post u := by
  induction post generalizing n num with
  | nil => exact ⟨fun v hv => absurd hv not_mem_nil, .nil⟩
  | cons u post ih =>
    obtain ⟨hu, hnodup⟩ := nodup_cons.mp hnodup
    rw [length_cons] at hlen
    obtain ⟨hlt, hsorted⟩ := @ih (n - 1) (Function.update num u (n - 1)) hnodup (by omega)
    have hself : numberFrom n num (u :: post) u = n - 1 := by
      rw [numberFrom, numberFrom_of_not_mem hu, Function.update_self]
    refine ⟨fun v hv => ?_, pairwise_cons.mpr ⟨fun v hv => ?_, hsorted⟩⟩
    · rcases mem_cons.mp hv with rfl | hv
      · omega
      · have := hlt v hv
        rw [numberFrom]
        omega
    · rw [hself]
      exact hlt v hv

theorem Parented.numbers {succs : Nat → List Nat} (h : Parented succs post)
    (hsorted : post.Pairwise fun u v => num v < num u) (hv : v ∈ post) (hne : v ≠ 0) :
    ∃ u ∈ post, v ∈ succs u ∧ num u < num v := by
  induction post with
  | nil => exact absurd hv not_mem_nil
  | cons w post ih =>
    obtain ⟨hw, hsorted⟩ := pairwise_cons.mp hsorted
    rcases mem_cons.mp hv with rfl | hv
    · obtain ⟨u, hu, hvu⟩ := h.1 hne
      exact ⟨u, mem_cons_of_mem _ hu, hvu, hw u hu⟩
    · obtain ⟨u, hu, hvu⟩ := ih h.2 hsorted hv
      exact ⟨u, mem_cons_of_mem _ hu, hvu⟩

theorem IsPostOrder.length_eq (h : IsPostOrder G post) : post.length = G.size := by
  have hperm : post.Perm (range G.size) :=
    (perm_ext_iff_of_nodup h.nodup nodup_range).mpr fun v => by
      rw [h.mem_iff, mem_range]
  rw [hperm.length_eq, length_range]

theorem IsPostOrder.isNumbering (h : IsPostOrder G post) : IsNumbering G post (G.rpoNum post) := by
  obtain ⟨hlt, hsorted⟩ := @numberFrom_spec G.size post (fun _ => 0) h.nodup
    (Nat.le_of_eq h.length_eq)
  refine ⟨h.mem_iff, hsorted, fun v hv => hlt v ((h.mem_iff v).mpr hv), fun v hv => ?_,
    fun v hv hne => ?_⟩
  · obtain ⟨front, hfront⟩ := getLast?_eq_some_iff.mp h.entry
    have hmem := (h.mem_iff v).mpr hv
    rw [hfront] at hmem hsorted
    rcases mem_append.mp hmem with hmem | hmem
    · have := (pairwise_append.mp hsorted).2.2 v hmem 0 mem_cons_self
      rw [rpoNum, hfront]
      omega
    · rw [mem_singleton.mp hmem]
  · obtain ⟨u, hu, hvu, hless⟩ := h.parented.numbers hsorted ((h.mem_iff v).mpr hv) hne
    exact ⟨u, (h.mem_iff u).mp hu, hvu, hless⟩

theorem IsNumbering.inj (h : IsNumbering G post num) (hu : u < G.size) (hv : v < G.size)
    (heq : num u = num v) : u = v := by
  by_contra hne
  have hpair : post.Pairwise fun u v => num u ≠ num v := h.sorted.imp Nat.ne_of_gt
  have : Std.Symm fun u v => num u ≠ num v := ⟨fun _ _ => Ne.symm⟩
  exact hpair.forall ((h.mem_iff u).mpr hu) ((h.mem_iff v).mpr hv) hne heq

end Brass.Mir.BlockGraph
