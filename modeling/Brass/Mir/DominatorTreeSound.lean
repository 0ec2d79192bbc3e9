import Brass.Mir.DominatorIteration

/-!
# The dominator tree is right

When all blocks are fixed, the chain of immediate dominators from a block holds its dominators
and no others: a fixed chain is on every path (`Settled.mem_path`), and every strict dominator
goes on to the immediate dominator. The blocks under a block in the tree are the ones with it on
their chains, so the intervals compare what they should, and `build_correct` carries this over
from the numbers to the blocks.
-/

namespace Brass.Mir

open Brass.Util Brass.Util.Dominance List Option FlowGraph

namespace BlockGraph

variable {G : BlockGraph} {post : List Nat} {num : Nat → Nat} {idom : Nat → Option Nat}
  {a b c d u v x y : Nat}

/-- What the iteration ends with. -/
structure Settled (G : BlockGraph) (num : Nat → Nat) (idom : Nat → Option Nat) : Prop
    extends Descending G num idom where
  fixed : ∀ b, b < G.size → b ≠ 0 → Fixed G idom b

theorem Settled.isSome (h : Settled G num idom) (hx : x < G.size) : (idom x).isSome := by
  by_cases hx0 : x = 0
  · rw [hx0, h.entry]
    rfl
  · obtain ⟨d, hd, -⟩ := h.fixed x hx hx0
    rw [hd]
    rfl

section

variable (h : Settled G num idom) (hnum : IsNumbering G post num)
include h hnum

theorem Settled.eq_zero_of_anc (hc : Anc idom c 0) : c = 0 := by
  have hlt := h.lt_of_processed (h.anc_processed hc (h.isSome G.pos))
  exact hnum.inj hlt G.pos (Nat.le_antisymm (h.num_le hc) (hnum.entry_le c hlt))

theorem Settled.mem_path {l : List Nat}
    (hl : PathTo G.succs 0 x l) (hc : Anc idom c x) : c ∈ l := by
  induction hl generalizing c with
  | root =>
    rw [h.eq_zero_of_anc hnum hc]
    exact mem_cons_self
  | @step u v l hl hv ih =>
    by_cases hcv : c = v
    · rw [hcv]
      exact mem_cons_self
    · obtain ⟨hult, hvlt⟩ := G.succs_lt u v hv
      refine mem_cons_of_mem _ (ih ?_)
      by_cases hv0 : v = 0
      · subst hv0
        exact absurd (h.eq_zero_of_anc hnum hc) hcv
      · obtain ⟨d, hd, hfix⟩ := h.fixed v hvlt hv0
        exact (hfix u ((G.mem_preds u v).mpr hv) (h.isSome hult)).trans (anc_step hc hcv hd)

theorem Settled.anc_iff (hx : x < G.size) : Anc idom a x ↔ Dom G a x := by
  constructor
  · exact fun ha l hl => h.mem_path hnum hl ha
  · intro ha
    induction hn : num x using Nat.strongRecOn generalizing x with
    | ind n ih =>
      by_cases hax : a = x
      · rw [hax]
      · have hx0 : x ≠ 0 := by
          rintro rfl
          exact hax (dominates_root_iff.mp ha)
        obtain ⟨d, hd, -⟩ := h.fixed x hx hx0
        have hless := h.smaller x d hx0 hd
        exact .head hd (ih (num d) (hn ▸ hless) (h.lt x d hd).2
          (h.dominated x d hx0 hd a hax ha) rfl)

theorem Settled.closest (hb : b ≠ 0) (hd : idom b = some d) : ClosestDominator G.succs 0 d b where
  ne := by
    rintro rfl
    exact Nat.lt_irrefl _ (h.smaller d d hb hd)
  dominates := (h.anc_iff hnum (h.lt b d hd).1).mp (.single hd)
  closest := fun e hne he => h.dominated b d hb hd e hne he

end

theorem Settled.unique {idom' : Nat → Option Nat} (h : Settled G num idom)
    (h' : Settled G num idom') (hnum : IsNumbering G post num) : idom = idom' := by
  funext x
  by_cases hx : x < G.size
  · by_cases hx0 : x = 0
    · rw [hx0, h.entry, h'.entry]
    · obtain ⟨d, hd, -⟩ := h.fixed x hx hx0
      obtain ⟨d', hd', -⟩ := h'.fixed x hx hx0
      rw [hd, hd', (h.closest hnum hx0 hd).unique (G.reaches x hx) (h'.closest hnum hx0 hd')]
  · have hnone : ∀ {idom}, Settled G num idom → idom x = none := fun h =>
      eq_none_iff_forall_ne_some.mpr fun d hd => hx (h.lt x d hd).1
    rw [hnone h, hnone h']

/-- With enough fuel the iteration ends, always with the same result. -/
theorem exists_settled (hnum : IsNumbering G post num) : ∃ idom, Settled G num idom ∧
    ∃ n, ∀ fuel, n ≤ fuel → G.iterate post num fuel fuel initIdom = some idom := by
  have hrun : ∀ fuel, 2 * G.size ≤ fuel → ∃ idom, Settled G num idom ∧ ∀ fuel',
      height G num initIdom < fuel' → G.iterate post num fuel fuel' initIdom = some idom := by
    intro fuel hfuel
    obtain ⟨idom, hpass, hfixed, hrun⟩ := iterate_spec hnum hfuel (passing_init hnum)
    exact ⟨idom, ⟨hpass.toDescending, hfixed⟩, hrun⟩
  obtain ⟨idom, hidom, -⟩ := hrun _ (Nat.le_refl _)
  refine ⟨idom, hidom, 2 * G.size + height G num initIdom + 1, fun fuel hfuel => ?_⟩
  obtain ⟨idom', hidom', hrun'⟩ := hrun fuel (by omega)
  rw [hidom.unique hidom' hnum]
  exact hrun' fuel (by omega)

/-! ## The tree -/

theorem mem_children : v ∈ G.children idom u ↔ v < G.size ∧ v ≠ 0 ∧ idom v = some u := by
  simp [children]

theorem Settled.isTree (h : Settled G num idom) (hnum : IsNumbering G post num) :
    TreeWalk.IsTree (G.children idom) fun v => G.size - num v where
  rank_lt := fun u v hv => by
    obtain ⟨hlt, hv0, huv⟩ := mem_children.mp hv
    have := h.smaller v u hv0 huv
    have := hnum.num_lt v hlt
    omega
  nodup := fun u => nodup_range.filter _
  parent_unique := fun u w v hu hw => by
    have := (mem_children.mp hu).2.2.symm.trans (mem_children.mp hw).2.2
    exact some.inj this

theorem Settled.under_iff (h : Settled G num idom) (hv : v < G.size) :
    TreeWalk.Under (G.children idom) u v ↔ Anc idom u v := by
  constructor
  · intro huv
    induction huv with
    | refl => exact .refl
    | tail _ hstep ih =>
      obtain ⟨-, -, hidom⟩ := mem_children.mp hstep
      exact .head hidom (ih (h.lt _ _ hidom).2)
  · intro huv
    induction huv using Relation.ReflTransGen.head_induction_on with
    | refl => exact .refl
    | @head x y hxy _ ih =>
      obtain ⟨hx, hy⟩ := h.lt x y hxy
      by_cases hx0 : x = 0
      · subst hx0
        rw [h.entry, some.injEq] at hxy
        exact hxy ▸ ih hy
      · exact (ih hy).tail (mem_children.mpr ⟨hx, hx0, hxy⟩)

end BlockGraph

/-! ## From the numbers back to the blocks -/

namespace Cfg

variable {g : Cfg} {a b i j : Nat} {l : List Nat}

def block (g : Cfg) (i : Nat) : Nat := g.reachable.getD i 0

theorem block_of_getElem? (h : g.reachable[i]? = some b) : g.block i = b := by
  rw [block, getD_eq_getElem?_getD, h, getD_some]

theorem path_block (h : PathTo g.succIdx 0 j l) : PathTo g.next 0 (g.block j) (l.map g.block) := by
  induction h with
  | root =>
    rw [map_singleton, block_of_getElem? g.reachable_zero]
    exact .root
  | step _ hv ih =>
    obtain ⟨a, b, ha, hb, hab⟩ := mem_succIdx.mp hv
    rw [block_of_getElem? ha] at ih
    rw [map_cons, block_of_getElem? hb]
    exact ih.step hab

theorem path_number (h : PathTo g.next 0 b l) :
    ∃ j l', g.reachable[j]? = some b ∧ PathTo g.succIdx 0 j l' ∧ l = l'.map g.block := by
  induction h with
  | root => exact ⟨0, [0], g.reachable_zero, .root, by
      rw [map_singleton, block_of_getElem? g.reachable_zero]⟩
  | @step u v l hl hv ih =>
    obtain ⟨i, l', hi, hl', rfl⟩ := ih
    have hreach := (hl.reaches u hl.self_mem).1.tail hv
    obtain ⟨j, hj⟩ := mem_iff_getElem?.mp (mem_reachable.mpr hreach)
    exact ⟨j, j :: l', hj, hl'.step (mem_succIdx.mpr ⟨u, v, hi, hj, hv⟩), by
      rw [map_cons, block_of_getElem? hj]⟩

theorem number_inj (hi : g.reachable[i]? = some a) (hj : g.reachable[j]? = some a) : i = j := by
  obtain ⟨hilt, hia⟩ := List.getElem?_eq_some_iff.mp hi
  obtain ⟨hjlt, hja⟩ := List.getElem?_eq_some_iff.mp hj
  exact (List.Nodup.getElem_inj_iff (reachable_nodup g.toFlowGraph)).mp (hia.trans hja.symm)

theorem dominates_block_iff (hi : g.reachable[i]? = some a) (hj : g.reachable[j]? = some b) :
    BlockGraph.Dom g.blockGraph i j ↔ Dominates g.next 0 a b := by
  constructor
  · intro h l hl
    obtain ⟨j', l', hj', hl', rfl⟩ := path_number hl
    obtain rfl := number_inj hj hj'
    exact mem_map.mpr ⟨i, h l' hl', block_of_getElem? hi⟩
  · intro h l hl
    have hpath := path_block hl
    rw [block_of_getElem? hj] at hpath
    obtain ⟨k, hk, hka⟩ := mem_map.mp (h _ hpath)
    have hreach := (hl.reaches k hk).1
    have hklt : k < g.reachable.length := by
      cases hreach with
      | refl => exact g.blockGraph.pos
      | tail _ hstep => exact (lt_of_mem_succIdx hstep).2
    have hka' : g.reachable[k]? = some a := by
      rw [getElem?_eq_getElem hklt, ← hka, block, getD_eq_getElem?_getD,
        getElem?_eq_getElem hklt, getD_some]
    rwa [number_inj hi hka']

end Cfg

namespace DominatorTree

open BlockGraph

variable {g : Cfg} {t : DominatorTree} {a b i j : Nat}

/-- What `build` stores, in terms of the numbers of the blocks. -/
structure Built (g : Cfg) (t : DominatorTree) : Prop where
  blocks : t.reachableBlocks = g.reachable
  size : t.size = g.reachable.length
  holds : ∀ i j, i < t.size → j < t.size → (t.stamps.Holds i j ↔ Dom g.blockGraph i j)
  closest : ∀ j, j < t.size → j ≠ 0 → ∃ d, d < t.size ∧ t.idom j = some d ∧
    ClosestDominator g.blockGraph.succs 0 d j
  tree : ∃ rank, TreeWalk.IsTree t.childList rank
  child : ∀ i, ∀ j ∈ t.childList i, i < t.size ∧ j < t.size ∧ j ≠ 0
  under : ∀ i j, j < t.size → (TreeWalk.Under t.childList i j ↔ Dom g.blockGraph i j)

theorem build_spec (g : Cfg) : ∃ t, Built g t ∧ ∃ n, ∀ fuel, n ≤ fuel → build g fuel = some t := by
  obtain ⟨post, hpost, n₁, hrun₁⟩ := g.blockGraph.postOrder_spec
  have hnum := hpost.isNumbering
  obtain ⟨idom, hidom, n₂, hrun₂⟩ := exists_settled hnum
  obtain ⟨stamps, ⟨n₃, hrun₃⟩, hholds⟩ := TreeWalk.stamps_spec (hidom.isTree hnum) 0
  have hunder : ∀ i j, j < g.blockGraph.size →
      (TreeWalk.Under (g.blockGraph.children idom) i j ↔ Dom g.blockGraph i j) :=
    fun i j hj => (hidom.under_iff hj).trans (hidom.anc_iff hnum hj)
  have hroot : ∀ i, i < g.blockGraph.size → TreeWalk.Under (g.blockGraph.children idom) 0 i :=
    fun i hi => (hunder 0 i hi).mpr fun l hl => hl.root_mem
  refine ⟨{ reachableBlocks := g.reachable, size := g.blockGraph.size, idom,
            childList := g.blockGraph.children idom, stamps },
    ⟨rfl, rfl, ?_, ?_, ⟨_, hidom.isTree hnum⟩, ?_, hunder⟩, n₁ + n₂ + n₃, fun fuel hfuel => ?_⟩
  · exact fun i j hi hj => (hholds i j (hroot i hi) (hroot j hj)).trans (hunder i j hj)
  · intro j hj hj0
    obtain ⟨d, hd, -⟩ := hidom.fixed j hj hj0
    exact ⟨d, (hidom.lt j d hd).2, hd, hidom.closest hnum hj0 hd⟩
  · intro i j hj
    obtain ⟨hlt, hj0, hji⟩ := mem_children.mp hj
    exact ⟨(hidom.lt j i hji).2, hlt, hj0⟩
  · rw [build, hrun₁ fuel (by omega)]
    simp only [bind_eq_bind, bind_some]
    rw [hrun₂ fuel (by omega), bind_some, hrun₃ fuel (by omega)]
    rfl

/-! ## Queries -/

theorem Built.blockIdx_eq_some_iff (h : Built g t) :
    t.blockIdx b = some i ↔ g.reachable[i]? = some b := by
  rw [blockIdx, h.blocks]
  exact Cfg.blockIdx_eq_some_iff

theorem Built.exists_number (h : Built g t) (hb : Search.Reaches g.next 0 b) :
    ∃ i, i < t.size ∧ t.blockIdx b = some i ∧ g.reachable[i]? = some b := by
  obtain ⟨i, hi⟩ := List.mem_iff_getElem?.mp (mem_reachable.mpr hb)
  exact ⟨i, h.size ▸ (List.getElem?_eq_some_iff.mp hi).1, h.blockIdx_eq_some_iff.mpr hi, hi⟩

theorem Built.dominates_iff (h : Built g t) (ha : Search.Reaches g.next 0 a)
    (hb : Search.Reaches g.next 0 b) :
    t.dominates a b = true ↔ Dominates g.next 0 a b := by
  obtain ⟨i, hilt, hi, hia⟩ := h.exists_number ha
  obtain ⟨j, hjlt, hj, hjb⟩ := h.exists_number hb
  rw [← Cfg.dominates_block_iff hia hjb, ← h.holds i j hilt hjlt]
  unfold dominates
  split
  · rename_i hab
    subst hab
    obtain rfl := some.inj (hi.symm.trans hj)
    exact iff_of_true rfl ⟨Nat.le_refl _, Nat.le_refl _⟩
  · simp only [hi, hj, if_neg (show ¬ (t.size ≤ i ∨ t.size ≤ j) by omega), decide_eq_true_iff]
    exact Iff.rfl

theorem Built.closestDominator (h : Built g t) (hb : Search.Reaches g.next 0 b) (hb0 : b ≠ 0) :
    ∃ d, t.immediateDominator b = some d ∧ ClosestDominator g.next 0 d b := by
  obtain ⟨j, hjlt, hj, hjb⟩ := h.exists_number hb
  have hj0 : j ≠ 0 := by
    rintro rfl
    exact hb0 (some.inj (hjb.symm.trans g.reachable_zero))
  obtain ⟨d, hdlt, hd, hclosest⟩ := h.closest j hjlt hj0
  have hdget : g.reachable[d]? = some (g.block d) := by
    rw [h.size] at hdlt
    rw [getElem?_eq_getElem hdlt, Cfg.block, getD_eq_getElem?_getD,
      getElem?_eq_getElem hdlt, getD_some]
  refine ⟨g.block d, ?_, ?_, ?_, ?_⟩
  · simp only [immediateDominator, hj, hd, bind_eq_bind, bind_some,
      if_neg hclosest.ne, h.blocks, hdget]
  · intro heq
    rw [heq] at hdget
    exact hclosest.ne (Cfg.number_inj hdget hjb)
  · exact (Cfg.dominates_block_iff hdget hjb).mp hclosest.dominates
  · intro e hne he
    obtain ⟨k, -, -, hke⟩ := h.exists_number (reaches_of_dominates hb he)
    refine (Cfg.dominates_block_iff hke hdget).mp (hclosest.closest k ?_ ?_)
    · rintro rfl
      exact hne (some.inj (hke.symm.trans hjb))
    · exact (Cfg.dominates_block_iff hke hjb).mpr he

theorem Built.blockIdx_eq_none (h : Built g t) (hb : ¬ Search.Reaches g.next 0 b) :
    t.blockIdx b = none := by
  refine eq_none_iff_forall_ne_some.mpr fun i hi => hb ?_
  exact mem_reachable.mp (mem_of_getElem? (h.blockIdx_eq_some_iff.mp hi))

theorem avoids_iff_path (ha : a ≠ 0) :
    g.Avoids a 0 b ↔ ∃ path, PathTo g.next 0 b path ∧ a ∉ path := by
  constructor
  · intro h
    induction h with
    | refl => exact ⟨_, .root, fun hmem => ha (mem_singleton.mp hmem)⟩
    | tail _ hstep ih =>
      obtain ⟨l, hl, hal⟩ := ih
      obtain ⟨hv, hne⟩ := mem_nextAvoiding.mp hstep
      refine ⟨_, hl.step hv, fun hmem => ?_⟩
      exact (mem_cons.mp hmem).elim (fun heq => hne heq.symm) hal
  · rintro ⟨l, hl, hal⟩
    induction hl with
    | root => exact .refl
    | step _ hv ih =>
      obtain ⟨hne, hal⟩ := not_or.mp (mt mem_cons.mpr hal)
      exact (ih hal).tail (mem_nextAvoiding.mpr ⟨hv, Ne.symm hne⟩)

/-- The tree answers what searches around `a` answer, for unreachable blocks as well. -/
theorem Built.dominates_eq (h : Built g t) : t.dominates a b = g.dominates a b := by
  rw [Bool.eq_iff_iff, FlowGraph.dominates_iff]
  by_cases hab : a = b
  · exact iff_of_true (by rw [dominates, if_pos hab]) (Or.inl hab)
  · rw [or_iff_right hab]
    by_cases hb : Search.Reaches g.next 0 b
    · by_cases ha : Search.Reaches g.next 0 a
      · rw [h.dominates_iff ha hb, and_iff_right hb]
        constructor
        · intro hall ha0 havoid
          obtain ⟨l, hl, hal⟩ := (avoids_iff_path ha0).mp havoid
          exact hal (hall l hl)
        · intro hall l hl
          by_contra hal
          have ha0 : a ≠ 0 := fun heq => hal (heq ▸ hl.root_mem)
          exact hall ha0 ((avoids_iff_path ha0).mpr ⟨l, hl, hal⟩)
      · refine iff_of_false ?_ fun hall => ?_
        · rw [dominates, if_neg hab, h.blockIdx_eq_none ha]
          exact Bool.false_ne_true
        · refine hall.2 ?_ (FlowGraph.avoids_of_not_reaches ha hb)
          rintro rfl
          exact ha .refl
    · refine iff_of_false ?_ fun hall => hb hall.1
      rw [dominates, if_neg hab, h.blockIdx_eq_none hb]
      cases t.blockIdx a <;> exact Bool.false_ne_true

/-! ## Walking the tree -/

section

variable (h : Built g t)
include h

theorem Built.mem_children : b ∈ t.children a ↔
    ∃ i j, g.reachable[i]? = some a ∧ g.reachable[j]? = some b ∧ j ∈ t.childList i := by
  unfold children
  cases hi : t.blockIdx a with
  | none =>
    refine iff_of_false not_mem_nil ?_
    rintro ⟨i, j, ha, -⟩
    rw [h.blockIdx_eq_some_iff.mpr ha] at hi
    cases hi
  | some i =>
    have ha := h.blockIdx_eq_some_iff.mp hi
    simp only [mem_filterMap, h.blocks]
    constructor
    · rintro ⟨j, hj, hb⟩
      exact ⟨i, j, ha, hb, hj⟩
    · rintro ⟨i', j, ha', hb, hj⟩
      rw [Cfg.number_inj ha' ha] at hj
      exact ⟨j, hj, hb⟩

theorem Built.children_ne_zero (hb : b ∈ t.children a) : b ≠ 0 := by
  obtain ⟨i, j, -, hj, hji⟩ := h.mem_children.mp hb
  rintro rfl
  exact (h.child i j hji).2.2 (Cfg.number_inj hj g.reachable_zero)

theorem Built.isTree : ∃ rank, TreeWalk.IsTree t.children rank := by
  obtain ⟨rank, hrank⟩ := h.tree
  refine ⟨fun b => rank ((t.blockIdx b).getD 0), fun u v hv => ?_, fun u => ?_,
    fun u w v hu hw => ?_⟩
  · obtain ⟨i, j, hi, hj, hji⟩ := h.mem_children.mp hv
    rw [h.blockIdx_eq_some_iff.mpr hi, h.blockIdx_eq_some_iff.mpr hj]
    exact hrank.rank_lt i j hji
  · unfold children
    split
    · rename_i i _
      refine (hrank.nodup i).filterMap fun j k b hj hk => ?_
      rw [h.blocks] at hj hk
      exact Cfg.number_inj hj hk
    · exact nodup_nil
  · obtain ⟨i, j, hi, hj, hji⟩ := h.mem_children.mp hu
    obtain ⟨i', j', hi', hj', hji'⟩ := h.mem_children.mp hw
    obtain rfl := Cfg.number_inj hj hj'
    obtain rfl := hrank.parent_unique i i' j hji hji'
    exact some.inj (hi.symm.trans hi')

theorem Built.under_iff (hb : Search.Reaches g.next 0 b) :
    TreeWalk.Under t.children a b ↔ Dominates g.next 0 a b := by
  obtain ⟨j, hjlt, -, hj⟩ := h.exists_number hb
  constructor
  · intro hab
    have hnumbers : ∃ i, g.reachable[i]? = some a ∧ TreeWalk.Under t.childList i j := by
      induction hab using Relation.ReflTransGen.head_induction_on with
      | refl => exact ⟨j, hj, .refl⟩
      | head hstep _ ih =>
        obtain ⟨k, hk, hkj⟩ := ih
        obtain ⟨i, k', hi, hk', hik⟩ := h.mem_children.mp hstep
        obtain rfl := Cfg.number_inj hk hk'
        exact ⟨i, hi, .head hik hkj⟩
    obtain ⟨i, hi, hij⟩ := hnumbers
    exact (Cfg.dominates_block_iff hi hj).mp ((h.under i j hjlt).mp hij)
  · intro hab
    obtain ⟨i, -, -, hi⟩ := h.exists_number (reaches_of_dominates hb hab)
    have hij := (h.under i j hjlt).mpr ((Cfg.dominates_block_iff hi hj).mpr hab)
    clear hab hb hjlt
    induction hij generalizing b with
    | refl =>
      rw [some.inj (hi.symm.trans hj)]
      exact .refl
    | @tail k j _ hstep ih =>
      have hklt := (h.child k j hstep).1
      rw [h.size] at hklt
      have hk := getElem?_eq_getElem hklt
      exact (ih hk).tail (h.mem_children.mpr ⟨k, j, hk, hj, hstep⟩)

theorem Built.dominates_iff_under (hb : Search.Reaches g.next 0 b) :
    t.dominates a b = true ↔ TreeWalk.Under t.children a b := by
  by_cases ha : Search.Reaches g.next 0 a
  · rw [h.dominates_iff ha hb, h.under_iff hb]
  · refine iff_of_false (fun hab => ?_) fun hab => ha ?_
    · by_cases hne : a = b
      · exact ha (hne ▸ hb)
      · rw [h.dominates_eq] at hab
        exact ha (reaches_of_dominates hab hne)
    · exact reaches_of_dominates hb ((h.under_iff hb).mp hab)

theorem Built.isReachable_iff : t.isReachable b = true ↔ Search.Reaches g.next 0 b := by
  unfold isReachable
  constructor
  · intro hb
    obtain ⟨i, hi⟩ := isSome_iff_exists.mp hb
    exact mem_reachable.mp (mem_of_getElem? (h.blockIdx_eq_some_iff.mp hi))
  · intro hb
    obtain ⟨i, -, hi, -⟩ := h.exists_number hb
    rw [hi]
    rfl

theorem Built.under_zero_iff : TreeWalk.Under t.children 0 b ↔ Search.Reaches g.next 0 b := by
  constructor
  · intro hb
    rcases Relation.ReflTransGen.cases_tail hb with rfl | ⟨a, -, hab⟩
    · exact .refl
    · obtain ⟨i, j, -, hj, -⟩ := h.mem_children.mp hab
      exact mem_reachable.mp (mem_of_getElem? hj)
  · intro hb
    exact (h.under_iff hb).mpr fun l hl => hl.root_mem

/-- What a walk from the entry keeps: at its end the blocks that were entered are the reachable
ones. -/
theorem Built.visits {σ : Type} {enter leave : σ → Nat → σ} {s r : σ}
    {P : List Nat → (Nat → Prop) → σ → Prop}
    (henter : ∀ path visited s v, P path visited s → ¬ visited v →
      TreeWalk.EnteredAt t.children [0] path v →
      P (v :: path) (fun x => x = v ∨ visited x) (enter s v))
    (hleave : ∀ path visited s v, P (v :: path) visited s → P path visited (leave s v))
    (hwalk : TreeWalk.Walks t.children enter leave [0] s r) (hP : P [] (fun _ => False) s) :
    P [] (Search.Reaches g.next 0) r := by
  obtain ⟨rank, htree⟩ := h.isTree
  have hvisits := hwalk.visits htree henter hleave (nodup_singleton 0)
    (fun v hv w hw hne => absurd ((mem_singleton.mp hv).trans (mem_singleton.mp hw).symm) hne)
    (show ∀ v ∈ [0], TreeWalk.EnteredAt t.children [0] [] v from fun _ hv => hv)
    (fun _ _ hx => hx) hP
  have heq : (fun x => TreeWalk.UnderOne t.children [0] x ∨ False) = Search.Reaches g.next 0 := by
    funext b
    rw [or_false, ← h.under_zero_iff]
    refine propext ⟨?_, fun hb => ⟨0, mem_cons_self, hb⟩⟩
    rintro ⟨v, hv, hvb⟩
    exact mem_singleton.mp hv ▸ hvb
  rwa [heq] at hvisits

end

/-- The construction of the tree comes to an end, and its answers are dominance in terms of
paths: `dominates` for all reachable blocks, and the immediate dominator of a block is the only
closest one of its strict dominators. -/
theorem build_correct (g : Cfg) :
    ∃ t n, (∀ fuel, n ≤ fuel → build g fuel = some t) ∧
      (∀ a b, Search.Reaches g.next 0 a → Search.Reaches g.next 0 b →
        (t.dominates a b = true ↔ ∀ path, PathTo g.next 0 b path → a ∈ path)) ∧
      ∀ b, Search.Reaches g.next 0 b → b ≠ 0 →
        ∃ d, t.immediateDominator b = some d ∧ ∀ e, ClosestDominator g.next 0 e b ↔ e = d := by
  obtain ⟨t, ht, n, hrun⟩ := build_spec g
  refine ⟨t, n, hrun, fun a b ha hb => ht.dominates_iff ha hb, fun b hb hb0 => ?_⟩
  obtain ⟨d, hd, hclosest⟩ := ht.closestDominator hb hb0
  refine ⟨d, hd, fun e => ⟨fun he => he.unique hb hclosest, ?_⟩⟩
  rintro rfl
  exact hclosest

end DominatorTree

/-! ## The open blocks -/

section Open

open DominatorTree

variable {g : Cfg} {t : DominatorTree} {path : List Nat} {visited : Nat → Prop} {v : Nat}
  {s : List Nat × List (Nat × List Nat)}

def IsPath (children : Nat → List Nat) : List Nat → Prop
  | [] => True
  | u :: path => (∀ x, x ∈ u :: path ↔ TreeWalk.Under children x u) ∧ IsPath children path

theorem IsPath.cons (h : Built g t) (hisPath : IsPath t.children path)
    (hv : TreeWalk.EnteredAt t.children [0] path v) : IsPath t.children (v :: path) := by
  obtain ⟨rank, htree⟩ := h.isTree
  refine ⟨fun x => ?_, hisPath⟩
  cases path with
  | nil =>
    have hroot : ∀ u, v ∉ t.children u := fun u hu => by
      rw [mem_singleton.mp hv] at hu
      exact h.children_ne_zero hu rfl
    constructor
    · intro hx
      rw [mem_singleton.mp hx]
      exact .refl
    · intro hx
      rcases Relation.ReflTransGen.cases_tail hx with rfl | ⟨w, -, hw⟩
      · exact mem_singleton.mpr rfl
      · exact absurd hw (hroot w)
  | cons u p =>
    have hvu : v ∈ t.children u := hv
    constructor
    · intro hx
      rcases mem_cons.mp hx with rfl | hx
      · exact .refl
      · exact ((hisPath.1 x).mp hx).tail hvu
    · intro hx
      rcases Relation.ReflTransGen.cases_tail hx with rfl | ⟨w, hxw, hw⟩
      · exact mem_cons_self
      · rw [htree.parent_unique w u v hw hvu] at hxw
        exact mem_cons_of_mem _ ((hisPath.1 x).mpr hxw)

/-- The open blocks, the innermost first, and each block entered with those open then. -/
def enterBlock (s : List Nat × List (Nat × List Nat)) (b : Nat) : List Nat × List (Nat × List Nat) :=
  (b :: s.1, (b, s.1) :: s.2)

def leaveBlock (s : List Nat × List (Nat × List Nat)) (_ : Nat) : List Nat × List (Nat × List Nat) :=
  (s.1.tail, s.2)

structure Walking (t : DominatorTree) (path : List Nat) (visited : Nat → Prop)
    (s : List Nat × List (Nat × List Nat)) : Prop where
  opened : s.1 = path
  isPath : IsPath t.children path
  pathVisited : ∀ x ∈ path, visited x
  once : (s.2.map Prod.fst).Nodup
  entered : ∀ b, b ∈ s.2.map Prod.fst ↔ visited b
  above : ∀ e ∈ s.2, ∀ a, a ∈ e.2 ↔ a ≠ e.1 ∧ TreeWalk.Under t.children a e.1

theorem Walking.enter (hs : Walking t path visited s) (h : Built g t) (hnew : ¬ visited v)
    (hv : TreeWalk.EnteredAt t.children [0] path v) :
    Walking t (v :: path) (fun x => x = v ∨ visited x) (enterBlock s v) := by
  have hpath := IsPath.cons h hs.isPath hv
  refine ⟨by rw [enterBlock, hs.opened], hpath, fun x hx => ?_, ?_, fun b => ?_, fun e he a => ?_⟩
  · exact (mem_cons.mp hx).imp_right (hs.pathVisited x)
  · exact nodup_cons.mpr ⟨fun hb => hnew ((hs.entered v).mp hb), hs.once⟩
  · exact mem_cons.trans (or_congr_right (hs.entered b))
  · rcases mem_cons.mp he with rfl | he
    · have hne : v ∉ path := fun hmem => hnew (hs.pathVisited v hmem)
      show a ∈ s.1 ↔ a ≠ v ∧ TreeWalk.Under t.children a v
      rw [hs.opened, ← hpath.1 a, mem_cons]
      constructor
      · exact fun ha => ⟨fun heq => hne (heq ▸ ha), .inr ha⟩
      · exact fun ha => ha.2.resolve_left ha.1
    · exact hs.above e he a

theorem Walking.leave (hs : Walking t (v :: path) visited s) :
    Walking t path visited (leaveBlock s v) where
  opened := by rw [leaveBlock, hs.opened, tail_cons]
  isPath := hs.isPath.2
  pathVisited := fun x hx => hs.pathVisited x (mem_cons_of_mem _ hx)
  once := hs.once
  entered := hs.entered
  above := hs.above

/-- A walk of the tree ends with no block open. It enters every reachable block once, when the
blocks that strictly dominate it are the open ones. -/
theorem walk_enters (g : Cfg) :
    ∃ t log n, (∀ fuel, n ≤ fuel → build g fuel = some t ∧
        TreeWalk.walkFrom t.children enterBlock leaveBlock fuel 0 ([], []) = some ([], log)) ∧
      (log.map Prod.fst).Nodup ∧ (∀ b, b ∈ log.map Prod.fst ↔ Search.Reaches g.next 0 b) ∧
      ∀ e ∈ log, ∀ a, a ∈ e.2 ↔ a ≠ e.1 ∧ Dominates g.next 0 a e.1 := by
  obtain ⟨t, ht, n₁, hbuild⟩ := build_spec g
  obtain ⟨rank, htree⟩ := ht.isTree
  obtain ⟨r, hr, n₂, hrun⟩ := @TreeWalk.walkFrom_spec _ _ t.children _ enterBlock leaveBlock
    htree.rank_lt 0 ([], [])
  have hw : Walking t [] (Search.Reaches g.next 0) r :=
    ht.visits (fun path visited s v hs hnew hv => hs.enter ht hnew hv)
      (fun path visited s v hs => hs.leave) hr
      ⟨rfl, trivial, fun _ hx => absurd hx not_mem_nil, nodup_nil,
        fun _ => iff_of_false not_mem_nil id, fun _ he => absurd he not_mem_nil⟩
  refine ⟨t, r.2, n₁ + n₂, fun fuel hfuel => ⟨hbuild fuel (by omega), ?_⟩, hw.once, hw.entered,
    fun e he a => ?_⟩
  · rw [hrun fuel (by omega)]
    exact congrArg some (Prod.ext hw.opened rfl)
  · have hb : Search.Reaches g.next 0 e.1 := (hw.entered e.1).mp (mem_map_of_mem he)
    rw [hw.above e he, ht.under_iff hb]

end Open

end Brass.Mir
