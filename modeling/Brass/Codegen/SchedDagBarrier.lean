import Mathlib.Data.List.Range
import Brass.Codegen.SchedDagOrder

/-!
# Memory hazards and barriers in the scheduling graph

Memory accesses are compared pair by pair, so a hazard is an edge. A barrier is joined only
to the nodes no earlier edge orders: walking away from it, a node either gets an edge or has
one that stays on the barrier's side, and the chain of those ends at the barrier.
-/

namespace Brass.Codegen

open Relation SchedDag List ReflTransGen

variable {α : Type}

/-! ## Memory -/

variable {l : List Nat} {d : SchedDag α} {hi i j k lo : Nat}

theorem laterPairs_spec (hl : l.Pairwise (· < ·)) {p : Nat × Nat} :
    p ∈ laterPairs l ↔ p.1 ∈ l ∧ p.2 ∈ l ∧ p.1 < p.2 := by
  induction l with
  | nil => simp [laterPairs]
  | cons i is ih =>
      obtain ⟨hi, his⟩ := pairwise_cons.mp hl
      rw [laterPairs, mem_append, ih his, mem_map]
      constructor
      · rintro (⟨j, hj, rfl⟩ | ⟨h₁, h₂, hlt⟩)
        · exact ⟨mem_cons_self, mem_cons_of_mem i hj, hi j hj⟩
        · exact ⟨mem_cons_of_mem i h₁, mem_cons_of_mem i h₂, hlt⟩
      · rintro ⟨h₁, h₂, hlt⟩
        obtain ⟨a, b⟩ := p
        rcases mem_cons.mp h₁ with rfl | h₁
        · rcases mem_cons.mp h₂ with heq | h₂
          · exact absurd heq (by simp only at hlt ⊢; omega)
          · exact Or.inl ⟨b, h₂, rfl⟩
        · rcases mem_cons.mp h₂ with heq | h₂
          · have := hi a h₁
            simp only at hlt heq
            omega
          · exact Or.inr ⟨h₁, h₂, hlt⟩

theorem filter_range_sorted (n : Nat) (p : Nat → Bool) : ((range n).filter p).Pairwise (· < ·) :=
  pairwise_lt_range.filter p

theorem mem_memoryNodes :
    i ∈ memoryNodes d ↔ i < d.size ∧ (d.isLoad i = true ∨ d.isStore i = true) := by
  rw [memoryNodes, mem_filter, mem_range, Bool.or_eq_true]

theorem memoryHazard_congr {d' : SchedDag α} (h : Extends d d') (i j : Nat) :
    memoryHazard d' i j = memoryHazard d i j := by
  have hstore : d'.isStore = d.isStore := h.node _
  have hload : d'.isLoad = d.isLoad := h.node _
  have hrefs : d'.memoryRefs = d.memoryRefs := by
    funext k
    rw [SchedDag.memoryRefs, SchedDag.memoryRefs, h.insts]
  unfold memoryHazard
  rw [hstore, hload, hrefs]

theorem addMemoryEdge_extends (d : SchedDag α) {p : Nat × Nat} (hle : p.1 ≤ p.2) :
    Extends d (addMemoryEdge d p) := by
  unfold addMemoryEdge
  split
  · exact addEdge_extends d hle _ _
  · exact Extends.refl d

theorem buildMemoryDependencies_extends (d : SchedDag α) : Extends d (buildMemoryDependencies d) :=
  foldl_extends _ _ d fun d' _ _ hp =>
    addMemoryEdge_extends d' ((laterPairs_spec (filter_range_sorted _ _)).mp hp).2.2.le

theorem buildMemoryDependencies_hasEdge (hi : i ∈ memoryNodes d) (hj : j ∈ memoryNodes d)
    (hlt : i < j) (hhazard : memoryHazard d i j ≠ none) :
    (buildMemoryDependencies d).HasEdge i j := by
  have hsorted : (memoryNodes d).Pairwise (· < ·) := filter_range_sorted _ _
  have hpair : (i, j) ∈ laterPairs (memoryNodes d) := (laterPairs_spec hsorted).mpr ⟨hi, hj, hlt⟩
  refine foldl_establishes addMemoryEdge (laterPairs (memoryNodes d)) d
    (fun d' _ _ hp => addMemoryEdge_extends d' ((laterPairs_spec hsorted).mp hp).2.2.le)
    (fun d' p => memoryHazard d p.1 p.2 ≠ none → d'.HasEdge p.1 p.2)
    (fun hext hold h => hext.edge (hold h)) ?_ (i, j) hpair hhazard
  intro d' hd' p hp hne
  obtain ⟨_, hmem, hlt'⟩ := (laterPairs_spec hsorted).mp hp
  have hsize : p.2 < d'.size := hd'.size ▸ (mem_memoryNodes.mp hmem).1
  rw [← memoryHazard_congr hd'] at hne
  unfold addMemoryEdge
  split
  · exact addEdge_hasEdge d' hlt' hsize _ _
  · rename_i hnone
    exact absurd hnone hne

/-! ## Chains of barriers -/

theorem chain_extends (d : SchedDag α) (hl : l.Pairwise (· < ·)) : Extends d (chain d l) := by
  induction l generalizing d with
  | nil => exact Extends.refl d
  | cons i rest ih =>
      obtain ⟨hi, hrest⟩ := pairwise_cons.mp hl
      cases rest with
      | nil => exact Extends.refl d
      | cons j rest =>
          exact (addEdge_extends d (hi j mem_cons_self).le .barrier 1).trans (ih _ hrest)

theorem chain_reach (d : SchedDag α) (hl : l.Pairwise (· < ·)) (hsize : ∀ i ∈ l, i < d.size)
    {a b : Nat} (ha : a ∈ l) (hb : b ∈ l) (hab : a ≤ b) :
    (chain d l).Reach a b := by
  induction l generalizing d a with
  | nil => exact absurd ha not_mem_nil
  | cons i rest ih =>
      obtain ⟨hi, hrest⟩ := pairwise_cons.mp hl
      cases rest with
      | nil =>
          obtain rfl : a = i := by simpa using ha
          obtain rfl : b = a := by simpa using hb
          exact refl
      | cons j rest =>
          have hext := addEdge_extends d (hi j mem_cons_self).le .barrier 1
          have hsize' : ∀ k ∈ j :: rest, k < (d.addEdge i j .barrier 1).size := fun k hk =>
            hext.size ▸ hsize k (mem_cons_of_mem i hk)
          have htail : ∀ {a}, a ∈ j :: rest → b ∈ j :: rest → a ≤ b →
              (chain (d.addEdge i j .barrier 1) (j :: rest)).Reach a b :=
            fun ha hb hab => ih _ hrest hsize' ha hb hab
          rcases mem_cons.mp hb with hbi | hbr
          · rcases mem_cons.mp ha with hai | har
            · rw [hai, hbi]
              exact refl
            · have := hi a har
              omega
          · rcases mem_cons.mp ha with hai | har
            · -- from the head through the second node
              have hedge : (chain d (i :: j :: rest)).Reach i j :=
                (chain_extends _ hrest).reach (addEdge_reach d (hi j mem_cons_self).le
                  (hsize j (mem_cons_of_mem i mem_cons_self)) .barrier 1)
              have hjb : j ≤ b := by
                rcases mem_cons.mp hbr with hbj | hbr
                · exact hbj.ge
                · exact ((pairwise_cons.mp hrest).1 b hbr).le
              rw [hai]
              exact hedge.trans (htail mem_cons_self hbr hjb)
            · exact htail har hbr hab

/-! ## Nodes on one side of a barrier -/

theorem allBefore_step_extends (d : SchedDag α) (hlt : k ≤ i) :
    Extends d (if (d.succs k).any (fun s => s.dst ≤ i) then d
      else d.addEdge k i .barrier 1) := by
  split
  · exact Extends.refl d
  · exact addEdge_extends d hlt .barrier 1

theorem mem_range'_reverse : k ∈ (range' lo (i - lo)).reverse ↔ lo ≤ k ∧ k < i := by
  rw [mem_reverse, mem_range'_1]
  omega

theorem allBefore_extends (d : SchedDag α) (lo i : Nat) : Extends d (allBefore d lo i) :=
  foldl_extends _ _ d fun d' _ _ hk => allBefore_step_extends d' (mem_range'_reverse.mp hk).2.le

theorem allBefore_succ (d : SchedDag α) (hi : i < d.size) (hlo : lo ≤ k) (hk : k < i) :
    ∃ t, (allBefore d lo i).HasEdge k t ∧ t ≤ i := by
  refine foldl_establishes _ _ d
    (fun d' _ _ hk => allBefore_step_extends d' (mem_range'_reverse.mp hk).2.le)
    (fun d' k => ∃ t, d'.HasEdge k t ∧ t ≤ i)
    (fun hext => fun ⟨t, ht, hle⟩ => ⟨t, hext.edge ht, hle⟩) ?_ k
    (mem_range'_reverse.mpr ⟨hlo, hk⟩)
  intro d' hd' k hk
  split
  · rename_i hany
    obtain ⟨s, hs, hle⟩ := any_eq_true.mp hany
    obtain ⟨he, hsrc⟩ := mem_succs.mp hs
    exact ⟨s.dst, ⟨s, he, hsrc, rfl⟩, of_decide_eq_true hle⟩
  · have hlt : k < i := (mem_range'_reverse.mp hk).2
    exact ⟨i, addEdge_hasEdge d' hlt (hd'.size ▸ hi) .barrier 1, Nat.le_refl i⟩

theorem allBefore_reach (d : SchedDag α) (hd : d.Forward) (hi : i < d.size) (hlo : lo ≤ k)
    (hk : k ≤ i) : (allBefore d lo i).Reach k i := by
  -- each successor is nearer to the barrier
  induction hm : i - k using Nat.strongRecOn generalizing k with
  | ind m ih =>
      rcases Nat.eq_or_lt_of_le hk with rfl | hlt
      · exact refl
      · obtain ⟨t, ht, hle⟩ := allBefore_succ d hi hlo hlt
        have hfwd := ((allBefore_extends d lo i).forward hd).lt ht
        exact head ht (ih (i - t) (by omega) (by omega) hle rfl)

theorem allAfter_step_extends (d : SchedDag α) (hlt : i ≤ k) :
    Extends d (if (d.preds k).any (fun p => i ≤ p.src) then d
      else d.addEdge i k .barrier 1) := by
  split
  · exact Extends.refl d
  · exact addEdge_extends d hlt .barrier 1

theorem mem_range'_after : k ∈ range' (i + 1) (hi - i) ↔ i < k ∧ k ≤ hi := by
  rw [mem_range'_1]
  omega

theorem allAfter_extends (d : SchedDag α) (i hi : Nat) : Extends d (allAfter d i hi) :=
  foldl_extends _ _ d fun d' _ _ hk => allAfter_step_extends d' (mem_range'_after.mp hk).1.le

theorem allAfter_pred (d : SchedDag α) (hhi : hi < d.size) (hik : i < k) (hk : k ≤ hi) :
    ∃ p, (allAfter d i hi).HasEdge p k ∧ i ≤ p := by
  refine foldl_establishes _ _ d
    (fun d' _ _ hk => allAfter_step_extends d' (mem_range'_after.mp hk).1.le)
    (fun d' k => ∃ p, d'.HasEdge p k ∧ i ≤ p)
    (fun hext => fun ⟨p, hp, hle⟩ => ⟨p, hext.edge hp, hle⟩) ?_ k
    (mem_range'_after.mpr ⟨hik, hk⟩)
  intro d' hd' k hk
  obtain ⟨hlt, hle⟩ := mem_range'_after.mp hk
  split
  · rename_i hany
    obtain ⟨p, hp, hle⟩ := any_eq_true.mp hany
    obtain ⟨he, hdst⟩ := mem_preds.mp hp
    exact ⟨p.src, ⟨p, he, rfl, hdst⟩, of_decide_eq_true hle⟩
  · have hsize : k < d'.size := by
      rw [hd'.size]
      omega
    exact ⟨i, addEdge_hasEdge d' hlt hsize .barrier 1, Nat.le_refl i⟩

theorem allAfter_reach (d : SchedDag α) (hd : d.Forward) (hhi : hi < d.size) (hik : i ≤ k)
    (hk : k ≤ hi) : (allAfter d i hi).Reach i k := by
  induction k using Nat.strongRecOn with
  | ind k ih =>
      rcases Nat.eq_or_lt_of_le hik with rfl | hlt
      · exact refl
      · obtain ⟨p, hp, hle⟩ := allAfter_pred d hhi hlt hk
        have hfwd := ((allAfter_extends d i hi).forward hd).lt hp
        exact tail (ih p hfwd.1 hle (by omega)) hp

/-! ## Full barriers -/

theorem head_getD_le {rest : List Nat} {n : Nat} (hsize : ∀ j ∈ rest, j < n) (hn : 0 < n) :
    rest.head?.getD (n - 1) < n := by
  cases rest with
  | nil => exact Nat.sub_lt hn Nat.one_pos
  | cons j rest => exact hsize j mem_cons_self

theorem orderFullBarriers_extends (d : SchedDag α) (lo : Nat) (l : List Nat) :
    Extends d (orderFullBarriers d lo l) := by
  induction l generalizing d lo with
  | nil => exact Extends.refl d
  | cons i rest ih =>
      exact ((allBefore_extends d lo i).trans (allAfter_extends _ i _)).trans (ih _ i)

theorem orderFullBarriers_reach (d : SchedDag α) (hd : d.Forward) (lo : Nat)
    (hl : l.Pairwise (· < ·)) (hsize : ∀ i ∈ l, i < d.size) (hi : i ∈ l) :
    (∀ k, lo ≤ k → k < i → (orderFullBarriers d lo l).Reach k i) ∧
      ∀ k, i < k → k < d.size → (orderFullBarriers d lo l).Reach i k := by
  induction l generalizing d lo i with
  | nil => exact absurd hi not_mem_nil
  | cons f rest ih =>
      obtain ⟨hf, hrest⟩ := pairwise_cons.mp hl
      have hfsize : f < d.size := hsize f mem_cons_self
      have hrsize : ∀ j ∈ rest, j < d.size := fun j hj => hsize j (mem_cons_of_mem f hj)
      have hbefore := allBefore_extends d lo f
      have hdB := hbefore.forward hd
      have hafter := allAfter_extends (allBefore d lo f) f (rest.head?.getD (d.size - 1))
      have hext := hbefore.trans hafter
      have htail := orderFullBarriers_extends
        (allAfter (allBefore d lo f) f (rest.head?.getD (d.size - 1))) f rest
      have ih' := fun {j} (hj : j ∈ rest) =>
        ih (allAfter (allBefore d lo f) f (rest.head?.getD (d.size - 1))) (hext.forward hd) f hrest
          (fun j hj => (hrsize j hj).trans_eq hext.size.symm) hj
      have hlast : rest.head?.getD (d.size - 1) < (allBefore d lo f).size :=
        (head_getD_le hrsize (Nat.zero_lt_of_lt hfsize)).trans_eq hbefore.size.symm
      have fBefore : ∀ k, lo ≤ k → k ≤ f → (orderFullBarriers d lo (f :: rest)).Reach k f :=
        fun k hlo hk => htail.reach (hafter.reach (allBefore_reach d hd hfsize hlo hk))
      have fAfter : ∀ k, f ≤ k → k ≤ rest.head?.getD (d.size - 1) →
          (orderFullBarriers d lo (f :: rest)).Reach f k :=
        fun k hle hk => htail.reach (allAfter_reach _ hdB hlast hle hk)
      rcases mem_cons.mp hi with rfl | hir
      · refine ⟨fun k hlo hk => fBefore k hlo hk.le, fun k hik hk => ?_⟩
        cases rest with
        | nil => exact fAfter k hik.le (Nat.le_sub_one_of_lt hk)
        | cons r rest =>
            rcases Nat.lt_or_ge r k with hrk | hkr
            · have hreach := fAfter r (hf r mem_cons_self).le (Nat.le_refl r)
              exact hreach.trans ((ih' mem_cons_self).2 k hrk (hk.trans_eq hext.size.symm))
            · exact fAfter k hik.le hkr
      · obtain ⟨hB, hA⟩ := ih' hir
        refine ⟨fun k hlo hk => ?_, fun k hik hk => hA k hik (hk.trans_eq hext.size.symm)⟩
        rcases Nat.lt_or_ge k f with hkf | hfk
        · exact (fBefore k hlo hkf.le).trans (hB f (Nat.le_refl f) (hf i hir))
        · exact hB k hfk hk

/-! ## Calls -/

theorem orderMemory_extends (d : SchedDag α) (nodes : List Nat)
    (edge : SchedDag α → Nat → SchedDag α)
    (hedge : ∀ d' : SchedDag α, ∀ k ∈ nodes, Extends d' (edge d' k)) :
    Extends d (orderMemory d nodes edge) := by
  refine foldl_extends _ _ d fun d' _ k hk => ?_
  split
  · exact hedge d' k hk
  · exact Extends.refl d'

theorem orderMemory_establishes (d : SchedDag α) (nodes : List Nat)
    (edge : SchedDag α → Nat → SchedDag α)
    (hedge : ∀ d' : SchedDag α, ∀ k ∈ nodes, Extends d' (edge d' k)) (ends : Nat → Nat × Nat)
    (hends : ∀ d', Extends d d' → ∀ k ∈ nodes, (edge d' k).HasEdge (ends k).1 (ends k).2)
    (hk : k ∈ nodes) (hmem : d.isLoad k = true ∨ d.isStore k = true) :
    (orderMemory d nodes edge).HasEdge (ends k).1 (ends k).2 := by
  refine foldl_establishes _ nodes d (fun d' _ k hk => ?_)
    (fun d' k => (d.isLoad k = true ∨ d.isStore k = true) → d'.HasEdge (ends k).1 (ends k).2)
    (fun hext hold h => hext.edge (hold h)) ?_ k hk hmem
  · split
    · exact hedge d' k hk
    · exact Extends.refl d'
  · intro d' hd' k hk hmem
    have hload : d'.isLoad = d.isLoad := hd'.node _
    have hstore : d'.isStore = d.isStore := hd'.node _
    rw [hload, hstore, if_pos (by rw [Bool.or_eq_true]; exact hmem)]
    exact hends d' hd' k hk

/-- The edges between a call and the memory accesses on either side of it. -/
def joinCall (d : SchedDag α) (lo i hi : Nat) : SchedDag α :=
  orderMemory
    (orderMemory d (List.range' lo (i - lo)) fun d k => d.addEdge k i .barrier 1)
    (List.range' (i + 1) (hi - (i + 1))) fun d k => d.addEdge i k .barrier 1

theorem mem_range'_between : k ∈ range' lo (i - lo) ↔ lo ≤ k ∧ k < i := by
  rw [mem_range'_1]
  omega

theorem joinBefore_extends (d : SchedDag α) (lo i : Nat) :
    Extends d (orderMemory d (range' lo (i - lo)) fun d k => d.addEdge k i .barrier 1) :=
  orderMemory_extends d _ _ fun d' _ hk =>
    addEdge_extends d' (mem_range'_between.mp hk).2.le .barrier 1

theorem joinAfter_extends (d : SchedDag α) (i hi : Nat) :
    Extends d (orderMemory d (range' (i + 1) (hi - (i + 1))) fun d k => d.addEdge i k .barrier 1) :=
  orderMemory_extends d _ _ fun d' _ hk =>
    addEdge_extends d' (Nat.le_of_succ_le (mem_range'_between.mp hk).1) .barrier 1

theorem joinCall_extends (d : SchedDag α) (lo i hi : Nat) : Extends d (joinCall d lo i hi) :=
  (joinBefore_extends d lo i).trans (joinAfter_extends _ i hi)

theorem joinCall_before (d : SchedDag α) (hi' : i < d.size) (hlo : lo ≤ k) (hk : k < i)
    (hmem : d.isLoad k = true ∨ d.isStore k = true) :
    (joinCall d lo i hi).HasEdge k i := by
  refine (joinAfter_extends _ i hi).edge ?_
  refine orderMemory_establishes d (range' lo (i - lo)) _
    (fun d' _ hk => addEdge_extends d' (mem_range'_between.mp hk).2.le .barrier 1)
    (fun k => (k, i)) (fun d' hd' k hk => ?_) (mem_range'_between.mpr ⟨hlo, hk⟩) hmem
  exact addEdge_hasEdge d' (mem_range'_between.mp hk).2 (hi'.trans_eq hd'.size.symm) .barrier 1

theorem joinCall_after (d : SchedDag α) (hhi : hi ≤ d.size) (hik : i < k) (hk : k < hi)
    (hmem : d.isLoad k = true ∨ d.isStore k = true) :
    (joinCall d lo i hi).HasEdge i k := by
  have hext := joinBefore_extends d lo i
  have hload : (orderMemory d (range' lo (i - lo))
      fun d k => d.addEdge k i .barrier 1).isLoad = d.isLoad := hext.node _
  have hstore : (orderMemory d (range' lo (i - lo))
      fun d k => d.addEdge k i .barrier 1).isStore = d.isStore := hext.node _
  refine orderMemory_establishes _ (range' (i + 1) (hi - (i + 1))) _
    (fun d' _ hk => addEdge_extends d' (Nat.le_of_succ_le (mem_range'_between.mp hk).1) .barrier 1)
    (fun k => (i, k)) (fun d' hd' k hk => ?_) (mem_range'_between.mpr ⟨hik, hk⟩) ?_
  · obtain ⟨hlt, hlt'⟩ := mem_range'_between.mp hk
    have hsize : k < d'.size := by
      rw [hd'.size, hext.size]
      omega
    exact addEdge_hasEdge d' hlt hsize .barrier 1
  · rw [hload, hstore]
    exact hmem

theorem orderCalls_cons (d : SchedDag α) (lo i : Nat) (rest : List Nat) :
    orderCalls d lo (i :: rest) =
      orderCalls (joinCall d lo i (rest.head?.getD d.size)) (i + 1) rest := rfl

theorem orderCalls_extends (d : SchedDag α) (lo : Nat) (l : List Nat) :
    Extends d (orderCalls d lo l) := by
  induction l generalizing d lo with
  | nil => exact Extends.refl d
  | cons i rest ih =>
      rw [orderCalls_cons]
      exact (joinCall_extends d lo i _).trans (ih _ (i + 1))

/-- A memory access before a call has an edge to a call no later than it, and one after a
call an edge from a call no earlier. -/
theorem orderCalls_edges (d : SchedDag α) (lo : Nat) (hl : l.Pairwise (· < ·))
    (hsize : ∀ i ∈ l, i < d.size) (hi : i ∈ l) (hkl : k ∉ l)
    (hmem : d.isLoad k = true ∨ d.isStore k = true) :
    (lo ≤ k → k < i → ∃ c ∈ l, c ≤ i ∧ (orderCalls d lo l).HasEdge k c) ∧
      (i < k → k < d.size → ∃ c ∈ l, i ≤ c ∧ (orderCalls d lo l).HasEdge c k) := by
  induction l generalizing d lo i with
  | nil => exact absurd hi not_mem_nil
  | cons f rest ih =>
      rw [orderCalls_cons]
      obtain ⟨hf, hrest⟩ := pairwise_cons.mp hl
      have hfsize : f < d.size := hsize f mem_cons_self
      have hrsize : ∀ j ∈ rest, j < d.size := fun j hj => hsize j (mem_cons_of_mem f hj)
      have hkf : k ≠ f := fun h => hkl (h ▸ mem_cons_self)
      have hkrest : k ∉ rest := fun h => hkl (mem_cons_of_mem f h)
      have hext := joinCall_extends d lo f (rest.head?.getD d.size)
      have htail := orderCalls_extends (joinCall d lo f (rest.head?.getD d.size)) (f + 1) rest
      have hmem' : (joinCall d lo f (rest.head?.getD d.size)).isLoad k = true ∨
          (joinCall d lo f (rest.head?.getD d.size)).isStore k = true := by
        rw [show SchedDag.isLoad _ = d.isLoad from hext.node _,
          show SchedDag.isStore _ = d.isStore from hext.node _]
        exact hmem
      have ih' := fun {j} (hj : j ∈ rest) =>
        ih (joinCall d lo f (rest.head?.getD d.size)) (f + 1) hrest
          (fun j hj => (hrsize j hj).trans_eq hext.size.symm) hj hkrest hmem'
      have lift : ∀ {P : Nat → Prop}, (∃ c ∈ rest, P c) → ∃ c ∈ f :: rest, P c :=
        fun ⟨c, hc, h⟩ => ⟨c, mem_cons_of_mem f hc, h⟩
      rcases mem_cons.mp hi with rfl | hir
      · refine ⟨fun hlo hk => ?_, fun hik hk => ?_⟩
        · exact ⟨i, mem_cons_self, Nat.le_refl i, htail.edge (joinCall_before d hfsize hlo hk hmem)⟩
        · cases rest with
          | nil =>
              exact ⟨i, mem_cons_self, Nat.le_refl i,
                htail.edge (joinCall_after d (Nat.le_refl _) hik hk hmem)⟩
          | cons r rest =>
              rcases Nat.lt_or_ge k r with hkr | hrk
              · exact ⟨i, mem_cons_self, Nat.le_refl i,
                  htail.edge (joinCall_after d (hrsize r mem_cons_self).le hik hkr hmem)⟩
              · -- past the next call, whose edges come later
                have hne : k ≠ r := fun h => hkrest (h ▸ mem_cons_self)
                have hrk' : r < k := by omega
                obtain ⟨c, hc, hrc, hedge⟩ :=
                  (ih' mem_cons_self).2 hrk' (hk.trans_eq hext.size.symm)
                have hir := hf r mem_cons_self
                exact lift ⟨c, hc, by omega, hedge⟩
      · obtain ⟨hB, hA⟩ := ih' hir
        refine ⟨fun hlo hk => ?_, fun hik hk => lift (hA hik (hk.trans_eq hext.size.symm))⟩
        rcases Nat.lt_or_ge k f with hkf' | hfk
        · exact ⟨f, mem_cons_self, (hf i hir).le,
            htail.edge (joinCall_before d hfsize hlo hkf' hmem)⟩
        · have hlo' : f + 1 ≤ k := Nat.lt_of_le_of_ne hfk hkf.symm
          exact lift (hB hlo' hk)

/-! ## Terminators -/

theorem range'_sorted (t n : Nat) : (range' t n).Pairwise (· < ·) :=
  pairwise_lt_range'

theorem orderTerminators_extends (d : SchedDag α) : Extends d (orderTerminators d) := by
  unfold orderTerminators
  split
  · exact (allBefore_extends d 0 _).trans (chain_extends _ (range'_sorted _ _))
  · exact Extends.refl d

theorem orderTerminators_reach (d : SchedDag α) (hd : d.Forward) {t a b : Nat}
    (hterm : d.isTerminator t = true) (htb : t ≤ b) (hab : a < b) (hb : b < d.size) :
    (orderTerminators d).Reach a b := by
  unfold orderTerminators
  cases hfind : (range d.size).find? d.isTerminator with
  | none =>
      have hmem : t ∈ range d.size := mem_range.mpr (by omega)
      exact absurd hterm (find?_eq_none.mp hfind t hmem)
  | some t₀ =>
      dsimp only
      have ht₀ : t₀ < d.size := mem_range.mp (mem_of_find?_eq_some hfind)
      have hfirst : t₀ ≤ t := by
        by_contra hlt
        have hnot := (find?_range_eq_some.mp hfind).2.2 t (by omega)
        rw [hterm] at hnot
        exact absurd hnot (by simp)
      have hext := allBefore_extends d 0 t₀
      have hchain : ∀ {x y}, t₀ ≤ x → x ≤ y → y < d.size →
          (chain (allBefore d 0 t₀) (range' t₀ (d.size - t₀))).Reach x y := by
        intro x y hx hxy hy
        refine chain_reach _ (range'_sorted _ _) (fun i hi => ?_)
          (mem_range'_between.mpr ⟨hx, by omega⟩) (mem_range'_between.mpr ⟨by omega, hy⟩) hxy
        exact (mem_range'_between.mp hi).2.trans_eq hext.size.symm
      rcases Nat.lt_or_ge a t₀ with hlt | hge
      · have hbefore := allBefore_reach d hd ht₀ (Nat.zero_le a) hlt.le
        exact ((chain_extends _ (range'_sorted _ _)).reach hbefore).trans
          (hchain (Nat.le_refl t₀) (by omega) hb)
      · exact hchain hge hab.le hb

/-! ## The finished graph -/

theorem mem_nodesWhere {test : LirInst α → Bool} :
    i ∈ nodesWhere d test ↔ i < d.size ∧ d.node test i = true := by
  rw [nodesWhere, mem_filter, mem_range]

theorem node_eq_true {test : LirInst α → Bool} :
    d.node test i = true ↔ ∃ inst, d.insts[i]? = some inst ∧ test inst = true := by
  rw [SchedDag.node, Option.any_eq_true]

/-- The graph after each of the four barrier rules. -/
def afterChain (d : SchedDag α) : SchedDag α := chain d (nodesWhere d isSchedulingBarrier)

def afterFull (d : SchedDag α) : SchedDag α :=
  orderFullBarriers (afterChain d) 0 (nodesWhere d isFullBarrier)

def afterCalls (d : SchedDag α) : SchedDag α :=
  orderCalls (afterFull d) 0 (nodesWhere d LirInst.isCall)

theorem nodesWhere_sorted (d : SchedDag α) (test : LirInst α → Bool) :
    (nodesWhere d test).Pairwise (· < ·) := filter_range_sorted _ _

theorem afterChain_extends (d : SchedDag α) : Extends d (afterChain d) :=
  chain_extends d (nodesWhere_sorted d _)

theorem afterFull_extends (d : SchedDag α) : Extends (afterChain d) (afterFull d) :=
  orderFullBarriers_extends _ 0 _

theorem afterCalls_extends (d : SchedDag α) : Extends (afterFull d) (afterCalls d) :=
  orderCalls_extends _ 0 _

theorem buildBarrierDependencies_extends (d : SchedDag α) :
    Extends d (buildBarrierDependencies d) :=
  (((afterChain_extends d).trans (afterFull_extends d)).trans (afterCalls_extends d)).trans
    (orderTerminators_extends _)

theorem barriers_reach (d : SchedDag α) (hi : d.node isSchedulingBarrier i = true)
    (hj : d.node isSchedulingBarrier j = true) (hij : i ≤ j) (hsize : j < d.size) :
    (buildBarrierDependencies d).Reach i j := by
  have hrest := ((afterFull_extends d).trans (afterCalls_extends d)).trans
    (orderTerminators_extends _)
  refine hrest.reach (chain_reach d (nodesWhere_sorted d _)
    (fun k hk => (mem_nodesWhere.mp hk).1) ?_ ?_ hij)
  · exact mem_nodesWhere.mpr ⟨by omega, hi⟩
  · exact mem_nodesWhere.mpr ⟨hsize, hj⟩

theorem fullBarrier_reach (d : SchedDag α) (hd : d.Forward) (hij : i < j) (hsize : j < d.size)
    (hfull : d.node isFullBarrier i = true ∨ d.node isFullBarrier j = true) :
    (buildBarrierDependencies d).Reach i j := by
  have hext := afterChain_extends d
  have hrest := (afterCalls_extends d).trans (orderTerminators_extends _)
  have hbound : ∀ k ∈ nodesWhere d isFullBarrier, k < (afterChain d).size := fun k hk =>
    (mem_nodesWhere.mp hk).1.trans_eq hext.size.symm
  refine hrest.reach ?_
  rcases hfull with hfull | hfull
  · have hmem : i ∈ nodesWhere d isFullBarrier := mem_nodesWhere.mpr ⟨by omega, hfull⟩
    exact (orderFullBarriers_reach (afterChain d) (hext.forward hd) 0
      (nodesWhere_sorted d _) hbound hmem).2 j hij (hsize.trans_eq hext.size.symm)
  · have hmem : j ∈ nodesWhere d isFullBarrier := mem_nodesWhere.mpr ⟨hsize, hfull⟩
    exact (orderFullBarriers_reach (afterChain d) (hext.forward hd) 0
      (nodesWhere_sorted d _) hbound hmem).1 i (Nat.zero_le i) hij

theorem isSchedulingBarrier_of_isCall {inst : LirInst α} (h : inst.isCall = true) :
    isSchedulingBarrier inst = true := by
  rw [isSchedulingBarrier, h, Bool.true_or, Bool.true_or]

theorem call_reach (d : SchedDag α) {i j : Nat} (hij : i < j) (hsize : j < d.size)
    (hcall : (d.node LirInst.isCall i = true ∧ (d.isLoad j = true ∨ d.isStore j = true)) ∨
      ((d.isLoad i = true ∨ d.isStore i = true) ∧ d.node LirInst.isCall j = true)) :
    (buildBarrierDependencies d).Reach i j := by
  have hext := (afterChain_extends d).trans (afterFull_extends d)
  have hrest := orderTerminators_extends (afterCalls d)
  have hload : (afterFull d).isLoad = d.isLoad := hext.node _
  have hstore : (afterFull d).isStore = d.isStore := hext.node _
  have hbound : ∀ k ∈ nodesWhere d LirInst.isCall, k < (afterFull d).size := fun k hk =>
    (mem_nodesWhere.mp hk).1.trans_eq hext.size.symm
  have barrier : ∀ {k}, d.node LirInst.isCall k = true → d.node isSchedulingBarrier k = true := by
    intro k hk
    obtain ⟨inst, hinst, htest⟩ := node_eq_true.mp hk
    exact node_eq_true.mpr ⟨inst, hinst, isSchedulingBarrier_of_isCall htest⟩
  have calls : ∀ {k}, k ∈ nodesWhere d LirInst.isCall → d.node LirInst.isCall k = true :=
    fun hk => (mem_nodesWhere.mp hk).2
  have edge : ∀ {a b}, (afterCalls d).HasEdge a b → (buildBarrierDependencies d).Reach a b :=
    fun h => single (hrest.edge h)
  rcases hcall with ⟨hi, hmem⟩ | ⟨hmem, hj⟩
  · have himem : i ∈ nodesWhere d LirInst.isCall := mem_nodesWhere.mpr ⟨by omega, hi⟩
    by_cases hjmem : j ∈ nodesWhere d LirInst.isCall
    · exact barriers_reach d (barrier hi) (barrier (calls hjmem)) hij.le hsize
    · rw [← hload, ← hstore] at hmem
      obtain ⟨c, hc, hic, hedge⟩ := (orderCalls_edges (afterFull d) 0
        (nodesWhere_sorted d _) hbound himem hjmem hmem).2 hij (hsize.trans_eq hext.size.symm)
      exact (barriers_reach d (barrier hi) (barrier (calls hc)) hic
        (mem_nodesWhere.mp hc).1).trans (edge hedge)
  · have hjmem : j ∈ nodesWhere d LirInst.isCall := mem_nodesWhere.mpr ⟨hsize, hj⟩
    by_cases himem : i ∈ nodesWhere d LirInst.isCall
    · exact barriers_reach d (barrier (calls himem)) (barrier hj) hij.le hsize
    · rw [← hload, ← hstore] at hmem
      obtain ⟨c, hc, hcj, hedge⟩ := (orderCalls_edges (afterFull d) 0
        (nodesWhere_sorted d _) hbound hjmem himem hmem).1 (Nat.zero_le i) hij
      exact (edge hedge).trans (barriers_reach d (barrier (calls hc)) (barrier hj) hcj hsize)

/-- No instruction crosses the first terminator or moves after it. -/
theorem terminator_reach (d : SchedDag α) (hd : d.Forward) {t : Nat}
    (hterm : d.isTerminator t = true) (htj : t ≤ j) (hij : i < j) (hsize : j < d.size) :
    (buildBarrierDependencies d).Reach i j := by
  have hext := ((afterChain_extends d).trans (afterFull_extends d)).trans (afterCalls_extends d)
  have hterm' : (afterCalls d).isTerminator = d.isTerminator := hext.node _
  exact orderTerminators_reach _ (hext.forward hd) (hterm' ▸ hterm) htj hij
    (hsize.trans_eq hext.size.symm)

end Brass.Codegen
