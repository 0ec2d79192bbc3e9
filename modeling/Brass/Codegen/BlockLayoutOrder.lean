import Brass.Codegen.BlockLayout
import Mathlib.Data.List.Perm.Subperm
import Mathlib.Data.List.TakeWhile

/-!
# Every block is placed once

The traces place each block that is not cold exactly once, and the rest of the blocks follow
when they are wanted at the end. The scores decide the order only.
-/

namespace Brass.Codegen.BlockLayout

open List

/-! ## Blocks with ids of their own -/

variable {b : LayoutBlock} {layout : List LayoutBlock} {targets : UInt32 → List UInt32}
  {s : ColdState} {all : List UInt32}

def ids (blocks : List LayoutBlock) : List UInt32 := blocks.map (·.id)

theorem eq_of_id {blocks : List LayoutBlock} (hids : (ids blocks).Nodup) {a : LayoutBlock}
    (ha : a ∈ blocks) (hb : b ∈ blocks) (h : a.id = b.id) : a = b :=
  inj_on_of_nodup_map hids ha hb h

theorem nodup_of_ids {blocks : List LayoutBlock} (hids : (ids blocks).Nodup) : blocks.Nodup :=
  List.Nodup.of_map _ hids

theorem isPlaced_iff {id : UInt32} : isPlaced layout id = true ↔ ∃ b ∈ layout, b.id = id := by
  simp [isPlaced]

theorem isPlaced_iff_mem {blocks : List LayoutBlock} (hids : (ids blocks).Nodup)
    (hsub : layout ⊆ blocks) (hb : b ∈ blocks) :
    isPlaced layout b.id = true ↔ b ∈ layout := by
  rw [isPlaced_iff]
  constructor
  · rintro ⟨a, ha, hid⟩
    exact eq_of_id hids (hsub ha) hb hid ▸ ha
  · exact fun h => ⟨b, h, rfl⟩

theorem idToBlock_mem {blocks : List LayoutBlock} {id : UInt32}
    (h : idToBlock blocks id = some b) : b ∈ blocks ∧ b.id = id := by
  refine ⟨mem_of_find?_eq_some h, ?_⟩
  have hp := find?_some h
  exact beq_iff_eq.mp hp

theorem idToBlock_of_mem {blocks : List LayoutBlock} (hids : (ids blocks).Nodup)
    (hb : b ∈ blocks) : idToBlock blocks b.id = some b := by
  cases hfind : idToBlock blocks b.id with
  | none => exact absurd (find?_eq_none.mp hfind b hb) (by simp)
  | some a =>
    obtain ⟨ha, hid⟩ := idToBlock_mem hfind
    rw [eq_of_id hids ha hb hid]

/-! ## The cold blocks -/

theorem visitTarget_cold_subset (targets : UInt32 → List UInt32) (entry : UInt32) (s : ColdState)
    (x : UInt32) : s.cold ⊆ (visitTarget targets entry s x).cold := by
  unfold visitTarget
  split
  · exact List.Subset.refl _
  · exact subset_append_left _ _

theorem visitTarget_entry {entry : UInt32} (x : UInt32) (h : entry ∉ s.cold) :
    entry ∉ (visitTarget targets entry s x).cold := by
  unfold visitTarget
  split
  · exact h
  · next hx =>
    have hne : x ≠ entry := fun he => hx (Or.inr (Or.inr he))
    simpa [h] using hne.symm

theorem visitTargets_cold_subset (targets : UInt32 → List UInt32) (entry : UInt32) (xs : List UInt32)
    (s : ColdState) : s.cold ⊆ (xs.foldl (visitTarget targets entry) s).cold := by
  induction xs generalizing s with
  | nil => exact List.Subset.refl _
  | cons x xs ih => exact List.Subset.trans (visitTarget_cold_subset targets entry s x) (ih _)

theorem visitTargets_entry {entry : UInt32} (xs : List UInt32) (h : entry ∉ s.cold) :
    entry ∉ (xs.foldl (visitTarget targets entry) s).cold := by
  induction xs generalizing s with
  | nil => exact h
  | cons x xs ih => exact ih (visitTarget_entry x h)

theorem spreadCold_cold_subset (targets : UInt32 → List UInt32) (entry : UInt32) (fuel : Nat)
    (s : ColdState) : s.cold ⊆ (spreadCold targets entry fuel s).cold := by
  induction fuel generalizing s with
  | zero => exact List.Subset.refl _
  | succ fuel ih =>
    unfold spreadCold
    split
    · exact List.Subset.refl _
    · next c work _ =>
      have h := visitTargets_cold_subset targets entry (targets c) { s with work := work }
      exact List.Subset.trans h (ih _)

theorem spreadCold_entry {entry : UInt32} (fuel : Nat) (h : entry ∉ s.cold) :
    entry ∉ (spreadCold targets entry fuel s).cold := by
  induction fuel generalizing s with
  | zero => exact h
  | succ fuel ih =>
    unfold spreadCold
    split
    · exact h
    · exact ih (visitTargets_entry _ h)

theorem spreadCold_of_work_nil (targets : UInt32 → List UInt32) (entry : UInt32) (fuel : Nat)
    (h : s.work = []) : spreadCold targets entry fuel s = s := by
  cases fuel with
  | zero => rfl
  | succ fuel => simp [spreadCold, h]

/-- The steps that a state still needs at most: one for each block on the worklist, and one
for each target that is not cold. -/
def ColdState.left (targets : List UInt32) (s : ColdState) : Nat :=
  s.work.length + (targets.filter fun x => x ∉ s.cold).length

theorem visitTarget_left {entry x : UInt32} (hx : x ∈ all) (s : ColdState) :
    (visitTarget targets entry s x).left all ≤ s.left all := by
  unfold visitTarget
  split
  · exact le_rfl
  · next hcond =>
    have hnew : x ∉ s.cold := fun hin => hcond (Or.inl hin)
    have hfilter : (all.filter fun y => y ∉ s.cold ++ [x]) =
        (all.filter fun y => y ∉ s.cold).filter fun y => y ≠ x := by
      rw [filter_filter]
      apply filter_congr
      intro y _
      simp [and_comm]
    have hlt : ((all.filter fun y => y ∉ s.cold).filter fun y => y ≠ x).length <
        (all.filter fun y => y ∉ s.cold).length := by
      refine length_filter_lt_length_iff_exists.mpr ⟨x, ?_, by simp⟩
      exact mem_filter.mpr ⟨hx, by simpa using hnew⟩
    simp only [ColdState.left, length_cons, hfilter]
    omega

theorem visitTargets_left {entry : UInt32} {xs : List UInt32} (hxs : xs ⊆ all) (s : ColdState) :
    (xs.foldl (visitTarget targets entry) s).left all ≤ s.left all := by
  induction xs generalizing s with
  | nil => exact le_rfl
  | cons x xs ih =>
    obtain ⟨hx, hxs⟩ := cons_subset.mp hxs
    exact (ih hxs _).trans (visitTarget_left hx s)

theorem spreadCold_work {entry : UInt32} (hall : ∀ c, targets c ⊆ all) (fuel : Nat)
    (hfuel : s.left all ≤ fuel) :
    (spreadCold targets entry fuel s).work = [] := by
  induction fuel generalizing s with
  | zero =>
    have hzero : s.work.length = 0 := by
      simp only [ColdState.left] at hfuel
      omega
    exact length_eq_zero_iff.mp hzero
  | succ fuel ih =>
    unfold spreadCold
    split
    · next hwork => exact hwork
    · next c work hwork =>
      apply ih
      refine (visitTargets_left (hall c) _).trans ?_
      simp only [ColdState.left, hwork, length_cons] at hfuel ⊢
      omega

theorem targetsOf_subset (blocks : List LayoutBlock) (c : UInt32) :
    targetsOf blocks c ⊆ blocks.flatMap fun b => targetsOf blocks b.id := by
  cases hfind : idToBlock blocks c with
  | none => simp [targetsOf, hfind]
  | some b =>
    obtain ⟨hmem, rfl⟩ := idToBlock_mem hfind
    exact fun x hx => mem_flatMap.mpr ⟨b, hmem, hx⟩

/-- The fuel of the pass is enough: the search for cold blocks ends with an empty
worklist. -/
theorem coldFuel_enough (walk : SetOrder) (fn : LayoutFunction) (opts : BlockLayoutOptions)
    (blocks : List LayoutBlock) (entry : UInt32) :
    (spreadCold (targetsOf blocks) entry (coldFuel blocks)
      (coldStart walk blocks (ownCold fn opts blocks))).work = [] := by
  apply spreadCold_work (targetsOf_subset blocks)
  have hown : (ownCold fn opts blocks).length ≤ blocks.length := by
    simpa [ownCold] using length_filter_le (isBlockCold fn opts) blocks
  have hwork : ((walk.order (ownCold fn opts blocks)).reverse).length =
      (ownCold fn opts blocks).length := by
    rw [length_reverse, (walk.order_perm _).length_eq]
  exact Nat.add_le_add (hwork.trans_le hown) (length_filter_le _ _)

theorem ownCold_subset (walk : SetOrder) (fn : LayoutFunction) (opts : BlockLayoutOptions)
    (blocks : List LayoutBlock) (entry : UInt32) :
    ownCold fn opts blocks ⊆ coldBlocks walk fn opts blocks entry :=
  spreadCold_cold_subset _ _ _ (coldStart walk blocks (ownCold fn opts blocks))

theorem coldBlocks_of_ownCold_nil (walk : SetOrder) {fn : LayoutFunction}
    {opts : BlockLayoutOptions} {blocks : List LayoutBlock} {entry : UInt32}
    (h : ownCold fn opts blocks = []) : coldBlocks walk fn opts blocks entry = [] := by
  have hwork : (coldStart walk blocks (ownCold fn opts blocks)).work = [] := by
    have hnil : walk.order [] = [] := (walk.order_perm []).eq_nil
    simp [coldStart, h, hnil]
  rw [coldBlocks, spreadCold_of_work_nil _ _ _ hwork, coldStart, h]

theorem entry_notMem_coldBlocks (walk : SetOrder) {fn : LayoutFunction}
    {opts : BlockLayoutOptions} {blocks : List LayoutBlock} {entry : UInt32}
    (hentry : fn.blocks.head?.map (·.id) = some entry) :
    entry ∉ coldBlocks walk fn opts blocks entry := by
  apply spreadCold_entry
  intro hmem
  obtain ⟨b, hb, hid⟩ := mem_map.mp hmem
  have hcold := (mem_filter.mp hb).2
  rw [isBlockCold, if_pos (by rw [hentry, hid])] at hcold
  exact absurd hcold (by simp)

/-! ## Traces -/

section Traces

variable {opts : BlockLayoutOptions} {blocks : List LayoutBlock} {cold : List UInt32}
variable {starts : List LayoutBlock}

def nonColdBlocks (blocks : List LayoutBlock) (cold : List UInt32) : List LayoutBlock :=
  blocks.filter fun b => b.id ∉ cold

theorem mem_nonColdBlocks : b ∈ nonColdBlocks blocks cold ↔ b ∈ blocks ∧ b.id ∉ cold := by
  simp [nonColdBlocks]

theorem nonColdBlocks_subset : nonColdBlocks blocks cold ⊆ blocks :=
  filter_subset_self _

def Candidate (blocks layout : List LayoutBlock) (best : Option LayoutBlock) : Prop :=
  ∀ s ∈ best, s ∈ blocks ∧ isPlaced layout s.id = false

theorem Candidate.better {best : Option LayoutBlock × Int} (h : Candidate blocks layout best.1)
    (curr : LayoutBlock) (bt : BlockBranchTargets) (succId : UInt32) :
    Candidate blocks layout (betterSuccessor opts blocks cold layout curr bt best succId).1 := by
  unfold betterSuccessor
  split
  · exact h
  · next hplaced =>
    split
    · exact h
    · next s hfind =>
      obtain ⟨hmem, hid⟩ := idToBlock_mem hfind
      dsimp only
      split
      · intro t ht
        obtain rfl : s = t := by simpa using ht
        exact ⟨hmem, by rw [hid]; simpa using hplaced⟩
      · exact h

theorem bestSuccessor_spec {curr s : LayoutBlock}
    (h : bestSuccessor opts blocks cold layout curr = some s) :
    s ∈ blocks ∧ isPlaced layout s.id = false := by
  have hall : ∀ (xs : List UInt32) (best : Option LayoutBlock × Int),
      Candidate blocks layout best.1 →
      Candidate blocks layout
        (xs.foldl (betterSuccessor opts blocks cold layout curr (getBranchTargets curr)) best).1 := by
    intro xs
    induction xs with
    | nil => exact fun best hbest => hbest
    | cons x xs ih => exact fun best hbest => ih _ (hbest.better curr _ x)
  have hnone : Candidate blocks layout none := fun s hs => by simp at hs
  exact hall _ (none, -10000) hnone s h

/-- What holds between two steps of the loop: the layout is made of blocks that are not
cold, each at most once, and the queue holds all of them that are not placed. -/
structure Tracing (blocks : List LayoutBlock) (cold : List UInt32) (layout starts : List LayoutBlock) :
    Prop where
  nodup : layout.Nodup
  subset : layout ⊆ nonColdBlocks blocks cold
  queued : ∀ b ∈ nonColdBlocks blocks cold, b ∉ layout → b ∈ starts
  starts_subset : starts ⊆ nonColdBlocks blocks cold

theorem Tracing.place (h : Tracing blocks cold layout starts)
    (hb : b ∈ nonColdBlocks blocks cold) (hnew : isPlaced layout b.id = false) :
    Tracing blocks cold (layout ++ [b]) starts := by
  have hnot : b ∉ layout := by
    intro hmem
    have hplaced := isPlaced_iff.mpr ⟨b, hmem, rfl⟩
    rw [hnew] at hplaced
    exact absurd hplaced (by simp)
  constructor
  · rw [nodup_append]
    refine ⟨h.nodup, nodup_singleton b, ?_⟩
    intro x hx y hy
    obtain rfl : y = b := by simpa using hy
    exact fun he => hnot (he ▸ hx)
  · intro x hx
    rcases mem_append.mp hx with hx | hx
    · exact h.subset hx
    · obtain rfl : x = b := by simpa using hx
      exact hb
  · intro x hx hout
    exact h.queued x hx fun hin => hout (mem_append_left _ hin)
  · exact h.starts_subset

theorem Tracing.pop (hids : (ids blocks).Nodup) (h : Tracing blocks cold layout starts) :
    Tracing blocks cold layout (starts.dropWhile fun b => isPlaced layout b.id) := by
  refine ⟨h.nodup, h.subset, ?_, ?_⟩
  · intro b hb hout
    have hmem := h.queued b hb hout
    rw [← takeWhile_append_dropWhile (p := fun b => isPlaced layout b.id) (l := starts)] at hmem
    rcases mem_append.mp hmem with hmem | hmem
    · have hplaced := mem_takeWhile_imp hmem
      have hsub : layout ⊆ blocks := List.Subset.trans h.subset nonColdBlocks_subset
      exact absurd ((isPlaced_iff_mem hids hsub (nonColdBlocks_subset hb)).mp hplaced) hout
    · exact hmem
  · exact List.Subset.trans (dropWhile_sublist _).subset h.starts_subset

theorem Tracing.perm_of_length (h : Tracing blocks cold layout starts)
    (hlen : layout.length = (nonColdBlocks blocks cold).length) :
    layout.Perm (nonColdBlocks blocks cold) :=
  (subperm_of_subset h.nodup h.subset).perm_of_length_le hlen.ge

theorem Tracing.length_of_starts_nil (hids : (ids blocks).Nodup)
    (h : Tracing blocks cold layout []) : layout.length = (nonColdBlocks blocks cold).length := by
  have hsub : nonColdBlocks blocks cold ⊆ layout := by
    intro b hb
    by_contra hout
    exact absurd (h.queued b hb hout) (by simp)
  have hnodup : (nonColdBlocks blocks cold).Nodup := (nodup_of_ids hids).filter _
  have hle := (subperm_of_subset h.nodup h.subset).length_le
  have hge := (subperm_of_subset hnodup hsub).length_le
  omega

/-- The traces place every block that is not cold once. -/
theorem buildTraces_perm (opts : BlockLayoutOptions) (hids : (ids blocks).Nodup) (n : Nat)
    (curr : LayoutBlock) (h : Tracing blocks cold layout starts)
    (hlen : layout.length + n = (nonColdBlocks blocks cold).length) :
    (buildTraces opts blocks cold n curr layout starts).Perm (nonColdBlocks blocks cold) := by
  induction n generalizing curr layout starts with
  | zero => exact h.perm_of_length hlen
  | succ n ih =>
    have hlenStep (b : LayoutBlock) : (layout ++ [b]).length + n = (nonColdBlocks blocks cold).length := by
      simp only [length_append, length_singleton]
      omega
    unfold buildTraces
    split
    · next s hs =>
      obtain ⟨hbest, hwarm⟩ := Option.filter_eq_some_iff.mp hs
      obtain ⟨hmem, hnew⟩ := bestSuccessor_spec hbest
      have hcand : s ∈ nonColdBlocks blocks cold := mem_nonColdBlocks.mpr ⟨hmem, by simpa using hwarm⟩
      exact ih s (h.place hcand hnew) (hlenStep s)
    · have hpop := h.pop hids
      split
      · next b rest hdrop =>
        rw [hdrop] at hpop
        have hnew : isPlaced layout b.id = false := by
          have hhead := head?_dropWhile_not (fun b : LayoutBlock => isPlaced layout b.id) starts
          rw [hdrop] at hhead
          simpa using hhead
        have hcand : b ∈ nonColdBlocks blocks cold := hpop.starts_subset (by simp)
        exact ih b (hpop.place hcand hnew) (hlenStep b)
      · next hdrop =>
        rw [hdrop] at hpop
        exact hpop.perm_of_length (hpop.length_of_starts_nil hids)

theorem buildTraces_begins (opts : BlockLayoutOptions) (blocks : List LayoutBlock)
    (cold : List UInt32) (n : Nat) (curr : LayoutBlock) (layout starts : List LayoutBlock) :
    layout <+: buildTraces opts blocks cold n curr layout starts := by
  induction n generalizing curr layout starts with
  | zero => exact prefix_refl _
  | succ n ih =>
    unfold buildTraces
    split
    · next s _ => exact (prefix_append layout [s]).trans (ih s _ _)
    · split
      · next b rest _ => exact (prefix_append layout [b]).trans (ih b _ _)
      · exact prefix_refl _

theorem Tracing.start (opts : BlockLayoutOptions) {entry : LayoutBlock}
    (hentry : entry ∈ nonColdBlocks blocks cold) :
    Tracing blocks cold [entry] (traceStarts opts blocks cold) := by
  have hstarts (b : LayoutBlock) : b ∈ traceStarts opts blocks cold ↔ b ∈ nonColdBlocks blocks cold :=
    (perm_insertionSort _ _).mem_iff
  constructor
  · exact nodup_singleton entry
  · intro b hb
    obtain rfl : b = entry := by simpa using hb
    exact hentry
  · exact fun b hb _ => (hstarts b).mpr hb
  · exact fun b hb => (hstarts b).mp hb

end Traces

/-! ## The rest of the blocks -/

theorem placeRest_begins (layout rest : List LayoutBlock) : layout <+: placeRest layout rest := by
  induction rest generalizing layout with
  | nil => exact prefix_refl _
  | cons b rest ih =>
    unfold placeRest
    split
    · exact ih layout
    · exact (prefix_append layout [b]).trans (ih _)

theorem placeRest_subset {blocks : List LayoutBlock} {rest : List LayoutBlock}
    (hlayout : layout ⊆ blocks) (hrest : rest ⊆ blocks) : placeRest layout rest ⊆ blocks := by
  induction rest generalizing layout with
  | nil => exact hlayout
  | cons b rest ih =>
    obtain ⟨hb, hrest⟩ := cons_subset.mp hrest
    unfold placeRest
    split
    · exact ih hlayout hrest
    · exact ih (append_subset.mpr ⟨hlayout, by simpa using hb⟩) hrest

theorem placeRest_nodup (rest : List LayoutBlock) (hlayout : layout.Nodup) :
    (placeRest layout rest).Nodup := by
  induction rest generalizing layout with
  | nil => exact hlayout
  | cons b rest ih =>
    unfold placeRest
    split
    · exact ih hlayout
    · next hnew =>
      apply ih
      refine nodup_append.mpr ⟨hlayout, nodup_singleton b, ?_⟩
      intro x hx y hy he
      obtain rfl : y = b := by simpa using hy
      exact hnew (isPlaced_iff.mpr ⟨x, hx, congrArg _ he⟩)

theorem subset_placeRest {blocks : List LayoutBlock} (hids : (ids blocks).Nodup)
    {rest : List LayoutBlock} (hlayout : layout ⊆ blocks) (hrest : rest ⊆ blocks) :
    rest ⊆ placeRest layout rest := by
  induction rest generalizing layout with
  | nil => exact nil_subset _
  | cons b rest ih =>
    obtain ⟨hb, hrest⟩ := cons_subset.mp hrest
    unfold placeRest
    split
    · next hplaced =>
      have hin := (isPlaced_iff_mem hids hlayout hb).mp hplaced
      exact cons_subset.mpr ⟨(placeRest_begins layout rest).subset hin, ih hlayout hrest⟩
    · have hstep : layout ++ [b] ⊆ blocks := append_subset.mpr ⟨hlayout, by simpa using hb⟩
      have hin : b ∈ placeRest (layout ++ [b]) rest := (placeRest_begins _ rest).subset (by simp)
      exact cons_subset.mpr ⟨hin, ih hstep hrest⟩

theorem placeRest_perm {blocks : List LayoutBlock} (hids : (ids blocks).Nodup)
    (hnodup : layout.Nodup) (hsub : layout ⊆ blocks) :
    (placeRest layout blocks).Perm blocks := by
  have hself : blocks ⊆ blocks := List.Subset.refl _
  rw [perm_ext_iff_of_nodup (placeRest_nodup blocks hnodup) (nodup_of_ids hids)]
  exact fun b => ⟨fun h => placeRest_subset hsub hself h, fun h => subset_placeRest hids hsub hself h⟩

/-! ## The whole order -/

section LayOut

variable {opts : BlockLayoutOptions} {cold : List UInt32} {entry : LayoutBlock}
  {blocks : List LayoutBlock}

/-- The blocks that the layout keeps: without room at the end the cold blocks are gone. -/
theorem layOut_perm (opts : BlockLayoutOptions) (hids : (ids blocks).Nodup) (hentry : entry ∈ nonColdBlocks blocks cold) :
    (layOut opts cold entry blocks).Perm
      (if opts.coldBlockAtEnd then blocks else nonColdBlocks blocks cold) := by
  have hpos : 0 < (nonColdBlocks blocks cold).length := length_pos_of_mem hentry
  have hcount : blocks.countP (fun b => b.id ∉ cold) = (nonColdBlocks blocks cold).length :=
    countP_eq_length_filter
  have hhot := buildTraces_perm opts hids ((nonColdBlocks blocks cold).length - 1) entry
    (Tracing.start opts hentry) (by simp only [length_singleton]; omega)
  unfold layOut
  rw [hcount]
  dsimp only
  split
  · have hnodup : (nonColdBlocks blocks cold).Nodup := (nodup_of_ids hids).filter _
    exact placeRest_perm hids (hhot.nodup_iff.mpr hnodup)
      (List.Subset.trans hhot.subset nonColdBlocks_subset)
  · exact hhot

theorem layOut_head : (layOut opts cold entry blocks).head? = some entry := by
  have hhot := buildTraces_begins opts blocks cold
    (blocks.countP (fun b => b.id ∉ cold) - 1) entry [entry] (traceStarts opts blocks cold)
  have hhead {l : List LayoutBlock} (h : [entry] <+: l) : l.head? = some entry := by
    obtain ⟨t, rfl⟩ := h
    rfl
  unfold layOut
  dsimp only
  split
  · exact hhead (hhot.trans (placeRest_begins _ _))
  · exact hhead hhot

end LayOut

end Brass.Codegen.BlockLayout
