import Brass.Mir.CriticalEdgeSplit
import Mathlib.Data.List.Range

/-!
# Splitting one edge

`split_critical_edge` keeps the description `Split`: the edge it splits leads to the new block
from then on, all others lead where they did.
-/

namespace Brass.Mir.CriticalEdge

open List BasicBlock

variable {τ : Type} {f g : Function τ} {a b d : Nat}

theorem insertAfter_perm {src new : Nat} {bs : List Nat} :
    (insertAfter src new bs).Perm (new :: bs) := by
  induction bs with
  | nil => exact .refl _
  | cons b bs ih =>
    unfold insertAfter
    split
    · exact .swap ..
    · exact (ih.cons b).trans (.swap ..)

theorem mem_insertAfter {src new x : Nat} {bs : List Nat} :
    x ∈ insertAfter src new bs ↔ x = new ∨ x ∈ bs := by
  rw [insertAfter_perm.mem_iff, mem_cons]

namespace Function

theorem values_splitBlock :
    (g.splitBlock a d).values = range' g.nextValueId (g.block d).params.length := by
  have h : (fun p : (Nat × τ) × Nat => ((p.2, p.1.2) : Nat × τ).1) = Prod.snd := rfl
  rw [values, splitBlock, map_map, Function.comp_def, h, zipIdx_map_snd]

theorem length_params_splitBlock :
    (g.splitBlock a d).params.length = (g.block d).params.length := by
  rw [splitBlock, length_map, length_zipIdx]

section Redirect

theorem redirectEdge_new (ha : a ≠ g.nextBlockId) :
    (g.redirectEdge a d).block g.nextBlockId = g.splitBlock a d := by
  simp only [redirectEdge, Function.update_of_ne ha.symm, Function.update_self]

theorem redirectEdge_src (ha : a ≠ g.nextBlockId) : (g.redirectEdge a d).block a = { g.block a with
      terminator := (g.block a).terminator.redirect d g.nextBlockId } := by
  simp only [redirectEdge, Function.update_self, Function.update_of_ne ha]

theorem redirectEdge_other {x : Nat} (hx : x ≠ a) (hnew : x ≠ g.nextBlockId) :
    (g.redirectEdge a d).block x = g.block x := by
  simp only [redirectEdge, Function.update_of_ne hx, Function.update_of_ne hnew]

theorem redirectEdge_kept {x : Nat} (ha : a ≠ g.nextBlockId) (hnew : x ≠ g.nextBlockId) :
    ((g.redirectEdge a d).block x).params = (g.block x).params ∧
      ((g.redirectEdge a d).block x).landingPad = (g.block x).landingPad := by
  by_cases hx : x = a
  · subst hx
    rw [redirectEdge_src ha]
    exact ⟨rfl, rfl⟩
  · rw [redirectEdge_other hx hnew]
    exact ⟨rfl, rfl⟩

end Redirect

theorem preds_withPredecessors {preds : Nat → List Nat} :
    (f.withPredecessors preds).preds = f.preds := by
  funext b
  unfold Function.preds
  refine filter_congr fun p _ => ?_
  rw [successors_withPredecessors]

theorem block_withPredecessors {preds : Nat → List Nat} {x : Nat} :
    ((f.withPredecessors preds).block x).params = (f.block x).params ∧
      ((f.withPredecessors preds).block x).landingPad = (f.block x).landingPad ∧
      ((f.withPredecessors preds).block x).terminator = (f.block x).terminator := by
  unfold withPredecessors
  dsimp only
  split <;> exact ⟨rfl, rfl, rfl⟩

theorem WellFormed.withPredecessors (hf : f.WellFormed) {preds : Nat → List Nat} :
    (f.withPredecessors preds).WellFormed where
  nodup := hf.nodup
  closed b hb := by
    rw [block_withPredecessors.2.2]
    exact hf.closed b hb
  blockIds := hf.blockIds
  args b hb := by
    rw [block_withPredecessors.2.2]
    intro t ht
    rw [block_withPredecessors.1]
    exact hf.args b hb t ht
  params b hb := by
    rw [values, block_withPredecessors.1]
    exact hf.params b hb

theorem WellFormed.rebuild_eq (hf : f.WellFormed) :
    f.rebuildCfgPredecessors = f.withPredecessors f.preds :=
  rebuildCfgPredecessors_eq hf.nodup hf.closed_successors

theorem upToDate_withPredecessors : (f.withPredecessors f.preds).UpToDate := by
  intro b hb
  rw [preds_withPredecessors, Function.withPredecessors]
  exact congrArg predecessors (if_pos hb)


/-- The edge from `a` to `d` redirected, with the new block in its place. -/
def splitOff (g : Function τ) (a d : Nat) : Function τ :=
  { g.redirectEdge a d with blocks := insertAfter a g.nextBlockId g.blocks }

theorem mem_targets_redirect {t : Terminator} {new : Nat} {u : BranchTarget}
    (hu : u ∈ (t.redirect d new).targets) :
    u ∈ t.targets ∨ ∃ v ∈ t.targets, v.block = d ∧ u = { v with block := new } := by
  have hgo : ∀ v ∈ t.targets, u = Terminator.redirect.go d new v →
      u ∈ t.targets ∨ ∃ v ∈ t.targets, v.block = d ∧ u = { v with block := new } := by
    rintro v hv rfl
    unfold Terminator.redirect.go
    split
    · exact .inr ⟨v, hv, ‹_›, rfl⟩
    · exact .inl hv
  cases t with
  | switch t cases =>
    rcases mem_cons.1 hu with rfl | hu
    · exact hgo t (.head _) rfl
    · rw [map_map] at hu
      obtain ⟨c, hc, rfl⟩ := mem_map.1 hu
      exact hgo c.2 (.tail _ (mem_map_of_mem hc)) rfl
  | br t => exact .inl hu
  | brIf t v =>
    rcases mem_pair.1 hu with rfl | rfl
    · exact hgo t (.head _) rfl
    · exact hgo v (.tail _ (.head _)) rfl
  | invoke t v =>
    rcases mem_pair.1 hu with rfl | rfl
    · exact hgo t (.head _) rfl
    · exact hgo v (.tail _ (.head _)) rfl
  | exit => exact .inl hu

section SplitOff

variable {x : Nat} {u : BranchTarget}

theorem WellFormed.ne_new (hg : g.WellFormed) (hx : x ∈ g.blocks) : x ≠ g.nextBlockId :=
  (hg.blockIds x hx).ne

theorem mem_blocks_splitOff : x ∈ (g.splitOff a d).blocks ↔ x = g.nextBlockId ∨ x ∈ g.blocks :=
  mem_insertAfter

theorem targets_splitOff (hg : g.WellFormed) (ha : a ∈ g.blocks) (hx : x ∈ g.blocks)
    (hu : u ∈ ((g.splitOff a d).block x).terminator.targets) :
    u ∈ (g.block x).terminator.targets ∨
      ∃ v ∈ (g.block x).terminator.targets, v.block = d ∧ u = { v with block := g.nextBlockId } := by
  by_cases hxa : x = a
  · subst hxa
    have h : (g.splitOff x d).block x = _ := redirectEdge_src (hg.ne_new ha)
    rw [h] at hu
    exact mem_targets_redirect hu
  · have h : (g.splitOff a d).block x = _ := redirectEdge_other hxa (hg.ne_new hx)
    rw [h] at hu
    exact .inl hu

theorem WellFormed.splitOff (hg : g.WellFormed) (ha : a ∈ g.blocks) (hd : d ∈ g.blocks) :
    (g.splitOff a d).WellFormed := by
  have hnew : (g.splitOff a d).block g.nextBlockId = g.splitBlock a d :=
    redirectEdge_new (hg.ne_new ha)
  have hkept : ∀ x ∈ g.blocks, ((g.splitOff a d).block x).params = (g.block x).params :=
    fun x hx => (redirectEdge_kept (hg.ne_new ha) (hg.ne_new hx)).1
  have hvalues : g.nextValueId ≤ (g.splitOff a d).nextValueId := Nat.le_add_right _ _
  refine ⟨?_, ?_, ?_, ?_, ?_⟩
  · exact insertAfter_perm.nodup_iff.2 (nodup_cons.2 ⟨fun h => hg.ne_new h rfl, hg.nodup⟩)
  · intro x hx u hu
    rw [mem_blocks_splitOff] at hx ⊢
    rcases hx with rfl | hx
    · rw [hnew] at hu
      obtain rfl := mem_singleton.1 hu
      exact .inr hd
    · rcases targets_splitOff hg ha hx hu with hu | ⟨v, -, -, rfl⟩
      · exact .inr (hg.closed x hx u hu)
      · exact .inl rfl
  · intro x hx
    rcases mem_blocks_splitOff.1 hx with rfl | hx
    · exact Nat.lt_succ_self _
    · exact Nat.lt_succ_of_lt (hg.blockIds x hx)
  · intro x hx u hu
    rcases mem_blocks_splitOff.1 hx with rfl | hxg
    · rw [hnew] at hu
      obtain rfl := mem_singleton.1 hu
      have hargs : ((g.splitBlock a d).params.map (·.1)) = range' g.nextValueId _ :=
        values_splitBlock
      refine ⟨?_, fun v hv => ?_⟩
      · rw [hkept d hd, length_map]
        exact @length_params_splitBlock τ g a d
      · exact (mem_range'_1.1 (hargs ▸ hv)).2
    · rcases targets_splitOff hg ha hxg hu with hu | ⟨v, hv, rfl, rfl⟩
      · obtain ⟨hlen, hlt⟩ := hg.args x hxg u hu
        rw [hkept _ (hg.closed x hxg u hu)]
        exact ⟨hlen, fun v hv => (hlt v hv).trans_le hvalues⟩
      · obtain ⟨hlen, hlt⟩ := hg.args x hxg v hv
        rw [hnew, length_params_splitBlock]
        exact ⟨hlen, fun w hw => (hlt w hw).trans_le hvalues⟩
  · intro x hx
    rcases mem_blocks_splitOff.1 hx with rfl | hx
    · rw [hnew, values_splitBlock]
      exact ⟨nodup_range', fun v hv => (mem_range'_1.1 hv).2⟩
    · rw [values, hkept x hx]
      exact ⟨(hg.params x hx).1, fun v hv => ((hg.params x hx).2 v hv).trans_le hvalues⟩

theorem splitCriticalEdge_eq (hcrit : g.IsCriticalEdge a d) :
    g.splitCriticalEdge a d = (g.splitOff a d).rebuildCfgPredecessors := by
  rw [splitCriticalEdge, splitEdge, if_pos hcrit]
  rfl

end SplitOff

end Function

namespace Split

variable {σ : Nat → Nat → Nat}

/-- Where the edges lead once the one from `a` to `d` goes through `new`. -/
def lead (σ : Nat → Nat → Nat) (a d new : Nat) : Nat → Nat → Nat :=
  Function.update σ a (Function.update (σ a) d new)

theorem lead_self {new : Nat} : lead σ a d new a d = new := by
  rw [lead, Function.update_self, Function.update_self]

theorem lead_of_ne {new x y : Nat} (h : ¬ (x = a ∧ y = d)) : lead σ a d new x y = σ x y := by
  unfold lead
  by_cases hx : x = a
  · subst hx
    rw [Function.update_self, Function.update_of_ne fun hy => h ⟨rfl, hy⟩]
  · rw [Function.update_of_ne hx]

theorem refl (hf : f.WellFormed) (hup : f.UpToDate) : Split f (fun _ d => d) f where
  wellFormed := hf
  upToDate := hup
  mem _ hb := hb
  params _ _ := rfl
  landingPad _ _ := rfl
  terminator _ _ := (Terminator.retarget_id fun _ _ => rfl).symm
  leads _ _ _ _ := .inl rfl
  added _ hc hnew := absurd hc hnew
  apart b hb d hd _ _ _ _ hnew _ := absurd (hf.closed_successors b hb d hd) hnew
  nextValueId := Nat.le_refl _

theorem step (h : Split f σ g) (hf : f.WellFormed) (hup : f.UpToDate) (ha : a ∈ g.blocks)
    (hcrit : g.IsCriticalEdge a d) :
    Split f (lead σ a d g.nextBlockId) (g.splitCriticalEdge a d) := by
  obtain ⟨haf, hd, hσ, hcritf⟩ := h.of_critical hf hup ha hcrit
  have hdf := hf.closed_successors a haf d hd
  have hwf := h.wellFormed.splitOff ha (h.mem d hdf)
  have hne : ∀ {x}, x ∈ g.blocks → x ≠ g.nextBlockId := h.wellFormed.ne_new
  have hnewf : g.nextBlockId ∉ f.blocks := fun hmem => hne (h.mem _ hmem) rfl
  rw [Function.splitCriticalEdge_eq hcrit, hwf.rebuild_eq]
  have hkept : ∀ x ∈ g.blocks, ((g.splitOff a d).block x).params = (g.block x).params ∧
      ((g.splitOff a d).block x).landingPad = (g.block x).landingPad := fun x hx =>
    Function.redirectEdge_kept (hne ha) (hne hx)
  have hblocks : ∀ x, x ∈ (g.splitOff a d).blocks ↔ _ := fun x => Function.mem_blocks_splitOff
  have hnewblock : (g.splitOff a d).block g.nextBlockId = g.splitBlock a d :=
    Function.redirectEdge_new (hne ha)
  refine {
    wellFormed := hwf.withPredecessors
    upToDate := Function.upToDate_withPredecessors
    mem := fun b hb => (hblocks b).2 (.inr (h.mem b hb))
    params := fun b hb => ?_
    landingPad := fun b hb => ?_
    terminator := fun b hb => ?_
    leads := fun b hb x hx => ?_
    added := fun c hc hnew => ?_
    apart := ?_
    nextValueId := h.nextValueId.trans (Nat.le_add_right _ _) }
  · rw [Function.block_withPredecessors.1, (hkept b (h.mem b hb)).1, h.params b hb]
  · rw [Function.block_withPredecessors.2.1, (hkept b (h.mem b hb)).2, h.landingPad b hb]
  · rw [Function.block_withPredecessors.2.2]
    by_cases hba : b = a
    · subst hba
      have hsrc : (g.splitOff b d).block b = _ := Function.redirectEdge_src (hne ha)
      have hself : lead σ b d g.nextBlockId b = Function.update (σ b) d g.nextBlockId :=
        Function.update_self ..
      rw [hsrc, hself]
      dsimp only
      rw [h.terminator b hb]
      refine Terminator.redirect_retarget (fun u => Terminator.not_br hcritf.2.1 u) fun x hx => ?_
      constructor
      · intro hxd
        rcases h.leads b hb x hx with heq | hfwd
        · exact heq.symm.trans hxd
        · exact absurd (hxd ▸ hdf) hfwd.new
      · rintro rfl
        exact hσ
    · have hother : (g.splitOff a d).block b = _ := Function.redirectEdge_other hba (hne (h.mem b hb))
      have hlead : lead σ a d g.nextBlockId b = σ b := Function.update_of_ne hba ..
      rw [hother, hlead, h.terminator b hb]
  · by_cases hedge : b = a ∧ x = d
    · obtain ⟨rfl, rfl⟩ := hedge
      rw [lead_self]
      refine .inr ⟨(hblocks _).2 (.inl rfl), hnewf, hcritf, ?_, ?_, ?_⟩
      · rw [Function.block_withPredecessors.1, hnewblock, Function.length_params_splitBlock,
          h.params _ hdf]
      · rw [values, Function.block_withPredecessors.1, hnewblock]
        intro v hv
        have hv : v ∈ (g.splitBlock b x).values := hv
        rw [Function.values_splitBlock] at hv
        exact h.nextValueId.trans (mem_range'_1.1 hv).1
      · rw [values, Function.block_withPredecessors.1,
          Function.block_withPredecessors.2.2, hnewblock]
        rfl
    · rw [lead_of_ne hedge]
      refine (h.leads b hb x hx).imp_right fun hfwd => ?_
      have hc : σ b x ≠ a := fun heq => hfwd.new (heq ▸ haf)
      have hsame : (g.splitOff a d).block (σ b x) = g.block (σ b x) :=
        Function.redirectEdge_other hc (hne hfwd.mem)
      refine ⟨(hblocks _).2 (.inr hfwd.mem), hfwd.new, hfwd.critical, ?_, ?_, ?_⟩
      · rw [Function.block_withPredecessors.1, hsame]
        exact hfwd.length
      · rw [values, Function.block_withPredecessors.1, hsame]
        exact hfwd.fresh
      · rw [values, Function.block_withPredecessors.1, Function.block_withPredecessors.2.2, hsame]
        exact hfwd.terminator
  · rcases (hblocks c).1 hc with rfl | hc
    · exact ⟨a, haf, d, hd, lead_self⟩
    · obtain ⟨b, hb, x, hx, hbx⟩ := h.added c hc hnew
      refine ⟨b, hb, x, hx, ?_⟩
      rw [lead_of_ne, hbx]
      rintro ⟨rfl, rfl⟩
      exact hnew (hbx ▸ hσ.symm ▸ hdf)
  · have hold : ∀ b ∈ f.blocks, ∀ x ∈ (f.block b).successors, σ b x ≠ g.nextBlockId := by
      intro b hb x hx
      rcases h.leads b hb x hx with heq | hfwd
      · rw [heq]
        exact hne (h.mem x (hf.closed_successors b hb x hx))
      · exact hne hfwd.mem
    intro b hb x hx b' hb' x' hx' hnew heq
    by_cases hedge : b = a ∧ x = d <;> by_cases hedge' : b' = a ∧ x' = d
    · exact ⟨hedge.1.trans hedge'.1.symm, hedge.2.trans hedge'.2.symm⟩
    · rw [hedge.1, hedge.2, lead_self, lead_of_ne hedge'] at heq
      exact absurd heq.symm (hold b' hb' x' hx')
    · rw [hedge'.1, hedge'.2, lead_self, lead_of_ne hedge] at heq
      exact absurd heq (hold b hb x hx)
    · rw [lead_of_ne hedge] at hnew heq
      rw [lead_of_ne hedge'] at heq
      exact h.apart b hb x hx b' hb' x' hx' hnew heq

end Split

end Brass.Mir.CriticalEdge
