import Brass.Mir.CriticalEdgeStep

/-!
# The batch against one edge at a time

Both ways of splitting go over the same edges in the same order. What the batch has built is the
function of the other way but for the predecessor lists, which it leaves as they were at the
start, and for the places of the new blocks. Since a critical edge is told by the numbers of
distinct neighbours alone, both split the same edges, and the placing at the end gives the order
of the other.
-/

namespace Brass.Mir.CriticalEdge

open List

variable {τ : Type} {f g h : Function τ} {σ : Nat → Nat → Nat} {a b d : Nat}

section Order

/-- The splits of each block, in the order they were made. -/
def groupOrder (groups : List (Nat × List Nat)) : List Nat :=
  groups.flatMap fun p => p.1 :: p.2.reverse

def groupPlaced (groups : List (Nat × List Nat)) : List (Nat × Nat) :=
  groups.flatMap fun p => p.2.map (p.1, ·)

theorem groupOrder_append {gs hs : List (Nat × List Nat)} :
    groupOrder (gs ++ hs) = groupOrder gs ++ groupOrder hs :=
  flatMap_append

theorem groupOrder_singleton {p : Nat × List Nat} : groupOrder [p] = p.1 :: p.2.reverse :=
  append_nil _

theorem groupPlaced_append {gs hs : List (Nat × List Nat)} :
    groupPlaced (gs ++ hs) = groupPlaced gs ++ groupPlaced hs :=
  flatMap_append

theorem arrange_nil {bs : List Nat} : arrange bs [] = bs := by
  induction bs with
  | nil => rfl
  | cons b bs ih =>
    rw [arrange, dropWhile_nil, ih]
    rfl

/-- Placing the recorded blocks, each group after its own block. -/
theorem arrange_groups {groups : List (Nat × List Nat)} {rest : List Nat}
    (hnodup : (groups.map (·.1)).Nodup) :
    arrange (groups.map (·.1) ++ rest) (groupPlaced groups) = groupOrder groups ++ rest := by
  induction groups with
  | nil => exact arrange_nil
  | cons p groups ih =>
    obtain ⟨hp, hnodup⟩ := nodup_cons.1 hnodup
    have hplaced : groupPlaced (p :: groups) = p.2.map (p.1, ·) ++ groupPlaced groups := rfl
    have hfirst : ∀ x ∈ p.2.map (p.1, ·), decide (x.1 = p.1) = true := by
      intro x hx
      obtain ⟨n, -, rfl⟩ := mem_map.1 hx
      exact decide_eq_true rfl
    have hlater : ∀ x ∈ groupPlaced groups, decide (x.1 = p.1) = false := by
      intro x hx
      obtain ⟨q, hq, hx⟩ := mem_flatMap.1 hx
      obtain ⟨n, -, rfl⟩ := mem_map.1 hx
      exact decide_eq_false fun heq => hp (mem_map.2 ⟨q, hq, heq⟩)
    have htake : (groupPlaced groups).takeWhile (fun x => decide (x.1 = p.1)) = [] := by
      cases hg : groupPlaced groups with
      | nil => rfl
      | cons x xs =>
        rw [takeWhile_cons_of_neg]
        rw [hlater x (hg ▸ mem_cons_self)]
        exact Bool.false_ne_true
    have hdrop : (groupPlaced groups).dropWhile (fun x => decide (x.1 = p.1)) =
        groupPlaced groups := by
      cases hg : groupPlaced groups with
      | nil => rfl
      | cons x xs =>
        rw [dropWhile_cons_of_neg]
        rw [hlater x (hg ▸ mem_cons_self)]
        exact Bool.false_ne_true
    have hvals : (p.2.map (p.1, ·)).map (·.2) = p.2 := by
      rw [map_map]
      exact map_id _
    rw [map_cons, cons_append, arrange, hplaced, takeWhile_append_of_pos hfirst,
      dropWhile_append_of_pos hfirst, htake, hdrop, ih hnodup, append_nil, hvals]
    simp only [groupOrder, flatMap_cons, cons_append, append_assoc]

theorem insertAfter_groups {groups : List (Nat × List Nat)} {rest ns : List Nat} {src new : Nat}
    (hsrc : src ∉ groupOrder groups) :
    insertAfter src new (groupOrder (groups ++ [(src, ns)]) ++ rest) =
      groupOrder (groups ++ [(src, ns ++ [new])]) ++ rest := by
  have hskip : ∀ xs ys : List Nat, src ∉ xs →
      insertAfter src new (xs ++ src :: ys) = xs ++ src :: new :: ys := by
    intro xs ys hxs
    induction xs with
    | nil => rw [nil_append, insertAfter, if_pos rfl]; rfl
    | cons x xs ih =>
      obtain ⟨hne, hxs⟩ := not_or.1 (mt mem_cons.2 hxs)
      rw [cons_append, insertAfter, if_neg (Ne.symm hne), ih hxs]
      rfl
  rw [groupOrder_append, groupOrder_append, groupOrder_singleton, groupOrder_singleton,
    append_assoc, append_assoc, cons_append, hskip _ _ hsrc, reverse_concat]
  rfl

end Order

/-- A block without its predecessor list. -/
def BasicBlock.bare (b : BasicBlock τ) : BasicBlock τ := { b with predecessors := [] }

theorem BasicBlock.eq_of_bare {b c : BasicBlock τ} (h : b.bare = c.bare)
    (hpreds : b.predecessors = c.predecessors) : b = c := by
  cases b
  cases c
  simp only [BasicBlock.bare, BasicBlock.mk.injEq] at h hpreds ⊢
  exact ⟨h.1, h.2.1, h.2.2.1, h.2.2.2.1, hpreds⟩

theorem Function.eq_of_fields (hblocks : g.blocks = h.blocks) (hblock : g.block = h.block)
    (hid : g.nextBlockId = h.nextBlockId) (hvalue : g.nextValueId = h.nextValueId) : g = h := by
  cases g
  cases h
  simp only [Function.mk.injEq] at hblocks hblock hid hvalue ⊢
  exact ⟨hblocks, hblock, hid, hvalue⟩

/-- Functions that differ in block order and predecessor lists at most. -/
structure Alike (g h : Function τ) : Prop where
  bare : ∀ b, (g.block b).bare = (h.block b).bare
  nextBlockId : g.nextBlockId = h.nextBlockId
  nextValueId : g.nextValueId = h.nextValueId

namespace Alike

theorem fields (hgh : Alike g h) (b : Nat) :
    (g.block b).name = (h.block b).name ∧ (g.block b).params = (h.block b).params ∧
      (g.block b).landingPad = (h.block b).landingPad ∧
      (g.block b).terminator = (h.block b).terminator := by
  have hb := hgh.bare b
  simp only [BasicBlock.bare, BasicBlock.mk.injEq] at hb
  exact ⟨hb.1, hb.2.1, hb.2.2.1, hb.2.2.2.1⟩

theorem successors (hgh : Alike g h) (b : Nat) : (g.block b).successors = (h.block b).successors :=
  congrArg Terminator.successors (hgh.fields b).2.2.2

theorem splitBlock (hgh : Alike g h) : g.splitBlock a d = h.splitBlock a d := by
  have hname : ∀ b, g.blockName b = h.blockName b := fun b => by
    rw [Function.blockName, Function.blockName, (hgh.fields b).1]
  unfold Function.splitBlock
  rw [hname, hname, (hgh.fields d).2.1, hgh.nextValueId]

theorem redirectEdge (hgh : Alike g h) : Alike (g.redirectEdge a d) (h.redirectEdge a d) where
  bare b := by
    have hone : ∀ x, (Function.update g.block g.nextBlockId (g.splitBlock a d) x).bare =
        (Function.update h.block h.nextBlockId (h.splitBlock a d) x).bare := by
      intro x
      rw [← hgh.nextBlockId, ← hgh.splitBlock]
      by_cases hx : x = g.nextBlockId
      · rw [hx, Function.update_self, Function.update_self]
      · rw [Function.update_of_ne hx, Function.update_of_ne hx, hgh.bare]
    simp only [Function.redirectEdge]
    by_cases hb : b = a
    · subst hb
      rw [Function.update_self, Function.update_self, ← hgh.nextBlockId]
      have h' := hone b
      rw [← hgh.nextBlockId] at h'
      simp only [BasicBlock.bare, BasicBlock.mk.injEq] at h' ⊢
      exact ⟨h'.1, h'.2.1, h'.2.2.1, by rw [h'.2.2.2.1], trivial⟩
    · rw [Function.update_of_ne hb, Function.update_of_ne hb]
      exact hone b
  nextBlockId := congrArg (· + 1) hgh.nextBlockId
  nextValueId := by
    simp only [Function.redirectEdge]
    rw [hgh.nextValueId, (hgh.fields d).2.1]

theorem withPredecessors (hgh : Alike g h) {preds : Nat → List Nat} :
    Alike g (h.withPredecessors preds) where
  bare b := by
    rw [hgh.bare b]
    unfold Function.withPredecessors
    dsimp only
    split <;> rfl
  nextBlockId := hgh.nextBlockId
  nextValueId := hgh.nextValueId

end Alike

/-- What `split_critical_edges` has built, `s`, against the function `g` of one edge at a time,
once the blocks of `groups` have been visited. -/
structure Simulates (f : Function τ) (groups : List (Nat × List Nat)) (rest : List Nat)
    (s : Function τ × List (Nat × Nat)) (g : Function τ) : Prop where
  split : ∃ σ, Split f σ g
  alike : Alike s.1 g
  outside : ∀ b, b ∉ g.blocks → s.1.block b = g.block b
  preds : ∀ b ∈ f.blocks, (s.1.block b).predecessors = f.preds b
  noPreds : ∀ b ∈ g.blocks, b ∉ f.blocks → (s.1.block b).predecessors = []
  blocks : s.1.blocks = f.blocks
  visited : f.blocks = groups.map (·.1) ++ rest
  placed : s.2 = groupPlaced groups
  order : g.blocks = groupOrder groups ++ rest
  unsplit : s.2 = [] → s.1 = g

namespace Simulates

variable {groups : List (Nat × List Nat)} {rest ns : List Nat} {src : Nat}
  {s : Function τ × List (Nat × Nat)}

/-- The stale lists answer as the rebuilt ones. -/
theorem critical_iff (sim : Simulates f groups rest s g) (hf : f.WellFormed) (hup : f.UpToDate)
    (ha : a ∈ f.blocks) (hd : d ∈ g.blocks) : s.1.IsCriticalEdge a d ↔ g.IsCriticalEdge a d := by
  obtain ⟨σ, h⟩ := sim.split
  by_cases hdf : d ∈ f.blocks
  · have hcard : (unique (s.1.block d).predecessors).length =
        (unique (g.block d).predecessors).length := by
      rw [length_unique, length_unique, sim.preds d hdf, h.upToDate d hd, h.card_preds hf hdf]
    unfold Function.IsCriticalEdge
    rw [(sim.alike.fields d).2.2.1, sim.alike.successors a, hcard]
  · constructor
    · rintro ⟨-, -, -, hcard⟩
      rw [sim.noPreds d hd hdf] at hcard
      exact absurd hcard (Nat.not_lt_zero _)
    · intro hcrit
      obtain ⟨-, hmem, -⟩ := h.of_critical hf hup (h.mem a ha) hcrit
      exact absurd (hf.closed_successors a ha d hmem) hdf

theorem edge (sim : Simulates f (groups ++ [(src, ns)]) rest s g) (hf : f.WellFormed)
    (hup : f.UpToDate) (hd : d ∈ g.blocks) :
    ∃ ns', Simulates f (groups ++ [(src, ns')]) rest (Function.deferSplit src s d)
      (g.splitCriticalEdge src d) := by
  obtain ⟨σ, h⟩ := sim.split
  have hvisited := sim.visited
  rw [map_append, map_singleton] at hvisited
  have hsrc : src ∈ f.blocks := by
    rw [hvisited]
    exact mem_append_left _ (mem_append_right _ (mem_singleton.2 rfl))
  by_cases hcrit : g.IsCriticalEdge src d
  · have hs := (sim.critical_iff hf hup hsrc hd).2 hcrit
    obtain ⟨-, hmem, -⟩ := h.of_critical hf hup (h.mem src hsrc) hcrit
    have hdf := hf.closed_successors src hsrc d hmem
    have hwf := h.wellFormed.splitOff (h.mem src hsrc) (h.mem d hdf)
    have hne : ∀ {x}, x ∈ g.blocks → x ≠ g.nextBlockId := h.wellFormed.ne_new
    have hstep := h.step hf hup (h.mem src hsrc) hcrit
    have hdefer : Function.deferSplit src s d =
        (s.1.redirectEdge src d, s.2 ++ [(src, g.nextBlockId)]) := by
      rw [Function.deferSplit, Function.splitEdge, if_pos hs, sim.alike.nextBlockId]
    have hsrcNew := hne (h.mem src hsrc)
    have hkept : ∀ b, b ≠ g.nextBlockId →
        ((s.1.redirectEdge src d).block b).predecessors = (s.1.block b).predecessors := by
      intro b hb
      rw [← sim.alike.nextBlockId] at hb hsrcNew
      by_cases hbs : b = src
      · rw [hbs, Function.redirectEdge_src hsrcNew]
      · rw [Function.redirectEdge_other hbs hb]
    have hblocks : ∀ x, x ∈ (g.splitOff src d).blocks ↔ _ := fun x => Function.mem_blocks_splitOff
    have halike : Alike (s.1.redirectEdge src d) (g.splitOff src d) :=
      ⟨sim.alike.redirectEdge.bare, sim.alike.redirectEdge.nextBlockId,
        sim.alike.redirectEdge.nextValueId⟩
    rw [hdefer]
    rw [Function.splitCriticalEdge_eq hcrit, hwf.rebuild_eq] at hstep ⊢
    refine ⟨ns ++ [g.nextBlockId], {
      split := ⟨_, hstep⟩
      alike := halike.withPredecessors
      outside := fun b hb => ?_
      preds := fun b hb => (hkept b (hne (h.mem b hb))).trans (sim.preds b hb)
      noPreds := fun b hb hnew => ?_
      blocks := sim.blocks
      visited := ?_
      placed := ?_
      order := ?_
      unsplit := fun hnil => (append_ne_nil_of_right_ne_nil _ (cons_ne_nil _ _) hnil).elim }⟩
    · have hb' : b ∉ (g.splitOff src d).blocks := hb
      rw [hblocks] at hb'
      obtain ⟨hbn, hbg⟩ := not_or.1 hb'
      have hbs : b ≠ src := fun heq => hbg (heq ▸ h.mem src hsrc)
      have hg : ((g.splitOff src d).withPredecessors (g.splitOff src d).preds).block b =
          (g.splitOff src d).block b := if_neg hb
      have hg' : (g.splitOff src d).block b = g.block b := Function.redirectEdge_other hbs hbn
      rw [hg, hg', ← sim.outside b hbg]
      exact Function.redirectEdge_other hbs (sim.alike.nextBlockId ▸ hbn)
    · rcases (hblocks b).1 hb with rfl | hb
      · rw [← sim.alike.nextBlockId] at hsrcNew ⊢
        rw [Function.redirectEdge_new hsrcNew]
        rfl
      · exact (hkept b (hne hb)).trans (sim.noPreds b hb hnew)
    · rw [map_append]
      exact hvisited
    · dsimp only
      rw [sim.placed, groupPlaced_append, groupPlaced_append]
      simp only [groupPlaced, flatMap_cons, flatMap_nil, append_nil, map_append,
        map_singleton, append_assoc]
    · have hnot : src ∉ groupOrder groups := by
        have hnodup := h.wellFormed.nodup
        rw [sim.order, groupOrder_append, groupOrder_singleton, append_assoc] at hnodup
        exact fun hmem => (nodup_append.1 hnodup).2.2 src hmem src (mem_cons_self) rfl
      have horder : (g.splitOff src d).blocks = insertAfter src g.nextBlockId g.blocks := rfl
      exact horder.trans (sim.order ▸ insertAfter_groups hnot)
  · have hs : ¬ s.1.IsCriticalEdge src d := mt (sim.critical_iff hf hup hsrc hd).1 hcrit
    refine ⟨ns, ?_⟩
    rw [Function.deferSplit, Function.splitCriticalEdge, Function.splitEdge, Function.splitEdge,
      if_neg hs, if_neg hcrit]
    exact sim

theorem edges (sim : Simulates f (groups ++ [(src, ns)]) rest s g) (hf : f.WellFormed)
    (hup : f.UpToDate) {ds : List Nat} (hds : ∀ d ∈ ds, d ∈ g.blocks) :
    ∃ ns', Simulates f (groups ++ [(src, ns')]) rest (ds.foldl (Function.deferSplit src) s)
      (ds.foldl (fun g d => g.splitCriticalEdge src d) g) := by
  induction ds generalizing ns s g with
  | nil => exact ⟨ns, sim⟩
  | cons d ds ih =>
    obtain ⟨ns', sim'⟩ := sim.edge hf hup (hds d mem_cons_self)
    refine ih sim' fun x hx => ?_
    have hx := hds x (mem_cons_of_mem _ hx)
    show x ∈ (g.splitCriticalEdge src d).blocks
    by_cases hcrit : g.IsCriticalEdge src d
    · rw [Function.splitCriticalEdge_eq hcrit]
      have hblocks : (g.splitOff src d).rebuildCfgPredecessors.blocks = (g.splitOff src d).blocks :=
        Function.blocks_rebuild
      rw [hblocks, Function.mem_blocks_splitOff]
      exact .inr hx
    · rw [Function.splitCriticalEdge, Function.splitEdge, if_neg hcrit]
      exact hx

theorem block (sim : Simulates f groups (src :: rest) s g) (hf : f.WellFormed) (hup : f.UpToDate) :
    ∃ ns, Simulates f (groups ++ [(src, ns)]) rest (Function.splitFrom s src)
      ((unique (g.block src).successors).foldl (fun g d => g.splitCriticalEdge src d) g) := by
  have hsrc : src ∈ g.blocks := by
    rw [sim.order]
    exact mem_append_right _ mem_cons_self
  have hvisit : Simulates f (groups ++ [(src, [])]) rest s g := {
    sim with
    visited := by
      rw [sim.visited, map_append, append_assoc]
      rfl
    placed := by
      rw [sim.placed, groupPlaced_append]
      exact (append_nil _).symm
    order := by
      rw [sim.order, groupOrder_append, groupOrder_singleton, append_assoc]
      rfl }
  have hquiet : ∀ d, ¬ 1 < (unique (s.1.block src).successors).length →
      Function.deferSplit src s d = s := by
    intro d hlen
    rw [Function.deferSplit, Function.splitEdge, if_neg fun hcrit => hlen hcrit.2.1]
  have hfrom : Function.splitFrom s src =
      (unique (g.block src).successors).foldl (Function.deferSplit src) s := by
    rw [← sim.alike.successors src]
    unfold Function.splitFrom
    dsimp only
    split
    · rename_i hlen
      have hlen' : ¬ 1 < (unique (s.1.block src).successors).length := by omega
      rcases hsuccs : unique (s.1.block src).successors with - | ⟨d, - | ⟨e, ds⟩⟩
      · rfl
      · rw [foldl_cons, hquiet d hlen', foldl_nil]
      · rw [hsuccs] at hlen
        simp at hlen
    · rfl
  rw [hfrom]
  obtain ⟨σ, h⟩ := sim.split
  exact hvisit.edges hf hup fun d hd =>
    h.wellFormed.closed_successors src hsrc d (mem_unique.1 hd)

theorem run (sim : Simulates f groups rest s g) (hf : f.WellFormed) (hup : f.UpToDate) :
    ∃ groups', Simulates f groups' [] (rest.foldl Function.splitFrom s) (rest.foldl (fun g src =>
        (unique (g.block src).successors).foldl (fun g d => g.splitCriticalEdge src d) g) g) := by
  induction rest generalizing groups s g with
  | nil => exact ⟨groups, sim⟩
  | cons src rest ih =>
    obtain ⟨ns, sim'⟩ := sim.block hf hup
    exact ih sim'

theorem start (hf : f.WellFormed) (hup : f.UpToDate) : Simulates f [] f.blocks (f, []) f where
  split := ⟨_, Split.refl hf hup⟩
  alike := ⟨fun _ => rfl, rfl, rfl⟩
  outside _ _ := rfl
  preds b hb := hup b hb
  noPreds _ hb hnew := absurd hb hnew
  blocks := rfl
  visited := rfl
  placed := rfl
  order := rfl
  unsplit _ := rfl

/-- Placing the new blocks and rebuilding the lists gives the other function. -/
theorem finish (sim : Simulates f groups [] s g) (hf : f.WellFormed) :
    { s.1 with blocks := arrange s.1.blocks s.2 }.rebuildCfgPredecessors = g := by
  obtain ⟨σ, h⟩ := sim.split
  have hnodup : (groups.map (·.1)).Nodup := by
    have := hf.nodup
    rwa [sim.visited, append_nil] at this
  have harrange : arrange s.1.blocks s.2 = g.blocks := by
    have harr := @arrange_groups groups [] hnodup
    rw [sim.blocks, sim.visited, sim.placed, harr, sim.order]
  rw [harrange]
  have hclosed : ∀ b ∈ g.blocks, ∀ x ∈ (s.1.block b).successors, x ∈ g.blocks := by
    intro b hb x hx
    rw [sim.alike.successors b] at hx
    exact h.wellFormed.closed_successors b hb x hx
  rw [@Function.rebuildCfgPredecessors_eq τ { s.1 with blocks := g.blocks } h.wellFormed.nodup
    hclosed]
  have hpreds : ∀ b, ({ s.1 with blocks := g.blocks } : Function τ).preds b = g.preds b := fun b => by
    unfold Function.preds
    refine filter_congr fun p _ => ?_
    rw [sim.alike.successors p]
  have hblock : (({ s.1 with blocks := g.blocks } : Function τ).withPredecessors
      ({ s.1 with blocks := g.blocks } : Function τ).preds).block = g.block := by
    funext b
    unfold Function.withPredecessors
    dsimp only
    split
    · rename_i hb
      refine BasicBlock.eq_of_bare (sim.alike.bare b) ?_
      rw [hpreds b, h.upToDate b hb]
    · exact sim.outside b ‹_›
  exact Function.eq_of_fields rfl hblock sim.alike.nextBlockId sim.alike.nextValueId

end Simulates

end Brass.Mir.CriticalEdge
