import Brass.Mir.CriticalEdgeBatch

/-!
# Splitting all critical edges

The batch gives the function that splitting one edge at a time gives. No critical edge is left
except into landing pads, the edges split are those that were critical, whatever the order in
which single edges are split, and along every path the same values arrive in the same blocks.
-/

namespace Brass.Mir.CriticalEdge

open List

variable {τ V : Type} {f g : Function τ} {σ : Nat → Nat → Nat} {a b d x : Nat}

section Remaining

theorem Split.critical_splitCriticalEdge (h : Split f σ g) (hf : f.WellFormed) (hup : f.UpToDate)
    (ha : a ∈ g.blocks) (hb : b ∈ (g.splitCriticalEdge a x).blocks)
    (hcrit : (g.splitCriticalEdge a x).IsCriticalEdge b d) :
    b ∈ g.blocks ∧ g.IsCriticalEdge b d ∧ ¬ (b = a ∧ d = x) := by
  by_cases hax : g.IsCriticalEdge a x
  · obtain ⟨hbf, hd, hσ, hcritf⟩ := (h.step hf hup ha hax).of_critical hf hup hb hcrit
    have hdf := hf.closed_successors b hbf d hd
    have hne : ¬ (b = a ∧ d = x) := by
      rintro ⟨rfl, rfl⟩
      rw [Split.lead_self] at hσ
      exact h.wellFormed.ne_new (h.mem d hdf) hσ.symm
    rw [Split.lead_of_ne hne] at hσ
    exact ⟨h.mem b hbf, (h.critical_iff hf hup hbf hd hσ).2 hcritf, hne⟩
  · have hsame : g.splitCriticalEdge a x = g := by
      rw [Function.splitCriticalEdge, Function.splitEdge, if_neg hax]
    rw [hsame] at hb hcrit
    exact ⟨hb, hcrit, fun heq => hax (heq.1 ▸ heq.2 ▸ hcrit)⟩

/-- The functions that splitting single edges of `f` can reach, in any order. -/
inductive SplitRun (f : Function τ) : Function τ → Prop
  | start : SplitRun f f.rebuildCfgPredecessors
  | step {g : Function τ} (src dst : Nat) : SplitRun f g → src ∈ g.blocks →
      SplitRun f (g.splitCriticalEdge src dst)

section

variable (hf : f.WellFormed)
include hf

theorem Function.WellFormed.rebuild : f.rebuildCfgPredecessors.WellFormed := by
  rw [hf.rebuild_eq]
  exact hf.withPredecessors

theorem Function.WellFormed.rebuild_upToDate : f.rebuildCfgPredecessors.UpToDate := by
  rw [hf.rebuild_eq]
  exact Function.upToDate_withPredecessors

theorem SplitRun.split (hrun : SplitRun f g) : ∃ σ, Split f.rebuildCfgPredecessors σ g := by
  induction hrun with
  | start => exact ⟨_, Split.refl hf.rebuild hf.rebuild_upToDate⟩
  | @step g src dst _ hsrc ih =>
    obtain ⟨σ, h⟩ := ih
    by_cases hcrit : g.IsCriticalEdge src dst
    · exact ⟨_, h.step hf.rebuild hf.rebuild_upToDate hsrc hcrit⟩
    · rw [Function.splitCriticalEdge, Function.splitEdge, if_neg hcrit]
      exact ⟨σ, h⟩

/-- All edges of one block split: none of them is critical any more, nor is any that was not. -/
theorem run_edges (hrun : SplitRun f g) {src : Nat} (hsrc : src ∈ g.blocks) (ds : List Nat) :
    SplitRun f (ds.foldl (fun g d => g.splitCriticalEdge src d) g) ∧
      ∀ b ∈ (ds.foldl (fun g d => g.splitCriticalEdge src d) g).blocks, ∀ d,
        (ds.foldl (fun g d => g.splitCriticalEdge src d) g).IsCriticalEdge b d →
          b ∈ g.blocks ∧ g.IsCriticalEdge b d ∧ ¬ (b = src ∧ d ∈ ds) := by
  induction ds generalizing g with
  | nil => exact ⟨hrun, fun b hb d hcrit => ⟨hb, hcrit, fun h => not_mem_nil h.2⟩⟩
  | cons x ds ih =>
    obtain ⟨σ, h⟩ := hrun.split hf
    have hnext := SplitRun.step src x hrun hsrc
    obtain ⟨σ', h'⟩ := hnext.split hf
    have hsrc' : src ∈ (g.splitCriticalEdge src x).blocks := by
      by_cases hcrit : g.IsCriticalEdge src x
      · rw [Function.splitCriticalEdge_eq hcrit, Function.blocks_rebuild,
          Function.mem_blocks_splitOff]
        exact .inr hsrc
      · rw [Function.splitCriticalEdge, Function.splitEdge, if_neg hcrit]
        exact hsrc
    obtain ⟨hend, hcrits⟩ := ih hnext hsrc'
    refine ⟨hend, fun b hb d hcrit => ?_⟩
    obtain ⟨hb', hcrit', hne'⟩ := hcrits b hb d hcrit
    obtain ⟨hbg, hcritg, hne⟩ :=
      h.critical_splitCriticalEdge hf.rebuild hf.rebuild_upToDate hsrc hb' hcrit'
    refine ⟨hbg, hcritg, fun heq => ?_⟩
    rcases mem_cons.1 heq.2 with hd | hd
    · exact hne ⟨heq.1, hd⟩
    · exact hne' ⟨heq.1, hd⟩

theorem run_blocks (hrun : SplitRun f g) (srcs : List Nat) (hsrcs : ∀ src ∈ srcs, src ∈ f.blocks) :
    SplitRun f (srcs.foldl (fun g src =>
        (unique (g.block src).successors).foldl (fun g d => g.splitCriticalEdge src d) g) g) ∧
      ∀ b ∈ (srcs.foldl (fun g src =>
        (unique (g.block src).successors).foldl (fun g d => g.splitCriticalEdge src d) g) g).blocks,
        ∀ d, (srcs.foldl (fun g src =>
          (unique (g.block src).successors).foldl
            (fun g d => g.splitCriticalEdge src d) g) g).IsCriticalEdge b d →
          b ∈ g.blocks ∧ g.IsCriticalEdge b d ∧ b ∉ srcs := by
  induction srcs generalizing g with
  | nil => exact ⟨hrun, fun b hb d hcrit => ⟨hb, hcrit, not_mem_nil⟩⟩
  | cons src srcs ih =>
    obtain ⟨σ, h⟩ := hrun.split hf
    have hsrc : src ∈ g.blocks := h.mem src (by
      rw [Function.blocks_rebuild]
      exact hsrcs src mem_cons_self)
    obtain ⟨hnext, hedges⟩ := run_edges hf hrun hsrc (unique (g.block src).successors)
    obtain ⟨hend, hrest⟩ := ih hnext fun x hx => hsrcs x (mem_cons_of_mem _ hx)
    refine ⟨hend, fun b hb d hcrit => ?_⟩
    obtain ⟨hb', hcrit', hnot⟩ := hrest b hb d hcrit
    obtain ⟨hbg, hcritg, hne⟩ := hedges b hb' d hcrit'
    refine ⟨hbg, hcritg, fun hmem => ?_⟩
    rcases mem_cons.1 hmem with rfl | hmem
    · exact hne ⟨rfl, hcritg.2.2.1⟩
    · exact hnot hmem

theorem splitOneByOne_run : SplitRun f f.splitOneByOne ∧
      ∀ b ∈ f.splitOneByOne.blocks, ∀ d, ¬ f.splitOneByOne.IsCriticalEdge b d := by
  obtain ⟨hrun, hcrit⟩ := run_blocks hf SplitRun.start f.rebuildCfgPredecessors.blocks
    fun src hsrc => Function.blocks_rebuild (f := f) ▸ hsrc
  refine ⟨hrun, fun b hb d hcr => ?_⟩
  obtain ⟨hmem, -, hnot⟩ := hcrit b hb d hcr
  exact hnot hmem

end

/-- Without critical edges left, the edges still whole are those that were not critical. -/
theorem Split.whole_iff (h : Split f σ g) (hf : f.WellFormed) (hup : f.UpToDate)
    (hnone : ∀ b ∈ g.blocks, ∀ d, ¬ g.IsCriticalEdge b d) (hb : b ∈ f.blocks)
    (hd : d ∈ (f.block b).successors) :
    d ∈ (g.block b).successors ↔ ¬ f.IsCriticalEdge b d := by
  rw [h.mem_successors hb]
  constructor
  · rintro ⟨y, hy, hyd⟩
    rcases h.leads b hb y hy with heq | hfwd
    · obtain rfl := heq.symm.trans hyd
      exact mt (h.critical_iff hf hup hb hd heq).2 (hnone b (h.mem b hb) _)
    · exact absurd (hf.closed_successors b hb d hd) (hyd ▸ hfwd.new)
  · intro hcrit
    rcases h.leads b hb d hd with heq | hfwd
    · exact ⟨d, hd, heq⟩
    · exact absurd hfwd.critical hcrit

end Remaining

section Paths

/-- The parameters take the values passed, all other values stay. -/
def bind (params : List Nat) (vals : List V) (env : Nat → V) : Nat → V :=
  fun v => ((params.zip vals).lookup v).getD (env v)

/-- An edge taken: the values of its arguments reach the parameters of its target. -/
def Function.pass (f : Function τ) (t : BranchTarget) (env : Nat → V) : Nat → V :=
  bind (f.block t.block).values (t.args.map env) env

/-- Control leaves `b` by its edge number `k` and goes through a forwarding block, if there is
one, to a block among `old`. -/
def Function.arrive (f : Function τ) (old : List Nat) (b k : Nat) (env : Nat → V) :
    Option (Nat × (Nat → V)) :=
  match (f.block b).terminator.targets[k]? with
  | none => none
  | some t =>
    if t.block ∈ old then some (t.block, f.pass t env)
    else
      match (f.block t.block).terminator with
      | .br u => some (u.block, f.pass u (f.pass t env))
      | _ => none

/-- The path that takes the edges `ks`, the instructions of each block having the effect `body`. -/
def Function.follow (f : Function τ) (old : List Nat) (body : Nat → (Nat → V) → Nat → V) :
    List Nat → Nat × (Nat → V) → Option (Nat × (Nat → V))
  | [], s => some s
  | k :: ks, (b, env) => (f.arrive old b k (body b env)).bind (f.follow old body ks)

/-- The same block with the same values of the first `n`. -/
def SameAt (n : Nat) (s t : Nat × (Nat → V)) : Prop :=
  s.1 = t.1 ∧ ∀ v < n, s.2 v = t.2 v

variable {params : List Nat} {vals : List V} {env env' : Nat → V} {v : Nat}

theorem lookup_zip_of_notMem (hv : v ∉ params) : (params.zip vals).lookup v = none := by
  rw [lookup_eq_none_iff]
  intro p hp
  rw [bne_iff_ne]
  rintro rfl
  exact hv (of_mem_zip hp).1

theorem bind_of_notMem (hv : v ∉ params) : bind params vals env v = env v := by
  rw [bind, lookup_zip_of_notMem hv]
  rfl

theorem bind_congr (h : env v = env' v) : bind params vals env v = bind params vals env' v := by
  rw [bind, bind, h]

theorem map_bind (hnodup : params.Nodup) (hlen : vals.length = params.length) :
    params.map (bind params vals env) = vals := by
  induction params generalizing vals with
  | nil => exact (length_eq_zero_iff.1 hlen).symm
  | cons p params ih =>
    obtain ⟨hp, hnodup⟩ := nodup_cons.1 hnodup
    cases vals with
    | nil => exact absurd hlen.symm (Nat.succ_ne_zero _)
    | cons x vals =>
      have hhead : bind (p :: params) (x :: vals) env p = x := by
        rw [bind, zip_cons_cons, lookup_cons_self]
        rfl
      have htail : params.map (bind (p :: params) (x :: vals) env) =
          params.map (bind params vals env) := by
        refine map_congr_left fun q hq => ?_
        have hne : (q == p) = false := beq_eq_false_iff_ne.2 fun heq => hp (heq ▸ hq)
        rw [bind, bind, zip_cons_cons, lookup_cons, hne]
      rw [map_cons, hhead, htail, ih hnodup (Nat.succ.inj hlen)]

/-- Going through the forwarding block or not makes no difference to the values of `f`. -/
theorem Split.arrive (h : Split f σ g) (hf : f.WellFormed) (hb : b ∈ f.blocks) (k : Nat)
    (henv : ∀ v < f.nextValueId, env v = env' v) :
    Option.Rel (SameAt f.nextValueId) (f.arrive f.blocks b k env) (g.arrive f.blocks b k env') := by
  unfold Function.arrive
  rw [h.terminator b hb, Terminator.targets_retarget, getElem?_map]
  cases hk : (f.block b).terminator.targets[k]? with
  | none => exact .none
  | some t =>
    have ht := mem_of_getElem? hk
    have hclosed := hf.closed b hb t ht
    obtain ⟨hlen, hargs⟩ := hf.args b hb t ht
    have hmap : t.args.map env = t.args.map env' :=
      map_congr_left fun v hv => henv v (hargs v hv)
    simp only [Option.map_some, if_pos hclosed]
    rcases h.leads b hb t.block (Terminator.mem_successors.2 ⟨t, ht, rfl⟩) with heq | hfwd
    · rw [heq, if_pos hclosed]
      refine .some ⟨rfl, fun v hv => ?_⟩
      unfold Function.pass BasicBlock.values
      dsimp only
      rw [h.params _ hclosed, hmap]
      exact bind_congr (henv v hv)
    · rw [if_neg hfwd.new, hfwd.terminator]
      refine .some ⟨rfl, fun v hv => ?_⟩
      have hvalues : (g.block (σ b t.block)).values.length = (t.args.map env').length := by
        rw [BasicBlock.values, length_map, length_map, hfwd.length, hlen]
      have hforward := @map_bind V (g.block (σ b t.block)).values (t.args.map env') env'
        (h.wellFormed.params _ hfwd.mem).1 hvalues.symm
      have hold : v ∉ (g.block (σ b t.block)).values := fun hmem =>
        absurd (hfwd.fresh v hmem) (Nat.not_le_of_lt hv)
      unfold Function.pass
      dsimp only
      rw [hforward, hmap, BasicBlock.values, BasicBlock.values, h.params _ hclosed]
      exact bind_congr ((henv v hv).trans (bind_of_notMem hold).symm)

theorem Split.follow (h : Split f σ g) (hf : f.WellFormed) {body : Nat → (Nat → V) → Nat → V}
    (hbody : ∀ b env env', (∀ v < f.nextValueId, env v = env' v) →
      ∀ v < f.nextValueId, body b env v = body b env' v) (ks : List Nat) {s t : Nat × (Nat → V)}
    (hs : s.1 ∈ f.blocks) (hst : SameAt f.nextValueId s t) :
    Option.Rel (SameAt f.nextValueId) (f.follow f.blocks body ks s)
      (g.follow f.blocks body ks t) := by
  induction ks generalizing s t with
  | nil => exact .some hst
  | cons k ks ih =>
    obtain ⟨b, env⟩ := s
    obtain ⟨b', env'⟩ := t
    obtain ⟨rfl, henv⟩ := hst
    have hstep := h.arrive hf hs k (hbody b env env' henv)
    unfold Function.follow
    cases harr : f.arrive f.blocks b k (body b env) with
    | none =>
      rw [harr] at hstep
      cases hstep' : g.arrive f.blocks b k (body b env') with
      | none => exact .none
      | some t => rw [hstep'] at hstep; cases hstep
    | some s' =>
      rw [harr] at hstep
      cases hstep' : g.arrive f.blocks b k (body b env') with
      | none => rw [hstep'] at hstep; cases hstep
      | some t' =>
        rw [hstep'] at hstep
        cases hstep with
        | some hsame =>
          refine ih ?_ hsame
          unfold Function.arrive at harr
          split at harr
          · cases harr
          · rename_i t ht
            rw [if_pos (hf.closed b hs t (mem_of_getElem? ht))] at harr
            rw [← Option.some.inj harr]
            exact hf.closed b hs t (mem_of_getElem? ht)

end Paths

theorem follow_rebuild (hf : f.WellFormed) (old : List Nat) (body : Nat → (Nat → V) → Nat → V)
    (ks : List Nat) (s : Nat × (Nat → V)) :
    f.rebuildCfgPredecessors.follow old body ks s = f.follow old body ks s := by
  have harrive : ∀ b k (env : Nat → V),
      f.rebuildCfgPredecessors.arrive old b k env = f.arrive old b k env := by
    intro b k env
    rw [hf.rebuild_eq]
    have hpass : ∀ t (env : Nat → V), (f.withPredecessors f.preds).pass t env = f.pass t env :=
      fun t env => by
        rw [Function.pass, Function.pass, BasicBlock.values, BasicBlock.values,
          Function.block_withPredecessors.1]
    unfold Function.arrive
    simp only [Function.block_withPredecessors.2.2, hpass]
  induction ks generalizing s with
  | nil => rfl
  | cons k ks ih =>
    obtain ⟨b, env⟩ := s
    unfold Function.follow
    rw [harrive]
    congr 1
    funext t
    exact ih t

theorem splitCriticalEdges_fst (hf : f.WellFormed) : f.splitCriticalEdges.1 = f.splitOneByOne := by
  obtain ⟨groups, sim⟩ := (Simulates.start hf.rebuild hf.rebuild_upToDate).run hf.rebuild
    hf.rebuild_upToDate
  unfold Function.splitCriticalEdges
  dsimp only
  split
  · exact sim.unsplit (isEmpty_iff.1 ‹_›)
  · exact sim.finish hf.rebuild

/-- What the batch does to a well-formed function: it is what splitting one edge at a time gives;
an edge between several successors and several predecessors leads to a landing pad; any run of
single splits that leaves no critical edge has split the same edges, those that were critical; and
every path gets to the same blocks with the same values. -/
theorem splitCriticalEdges_sound (hf : f.WellFormed) :
    f.splitCriticalEdges.1 = f.splitOneByOne ∧
    (∀ b ∈ f.splitCriticalEdges.1.blocks, ∀ d ∈ (f.splitCriticalEdges.1.block b).successors,
      1 < (unique (f.splitCriticalEdges.1.block b).successors).length →
      1 < (f.splitCriticalEdges.1.preds d).length →
        (f.splitCriticalEdges.1.block d).landingPad = true) ∧
    (∀ g, SplitRun f g → (∀ b ∈ g.blocks, ∀ d, ¬ g.IsCriticalEdge b d) →
      ∀ b ∈ f.blocks, ∀ d ∈ (f.block b).successors,
        (d ∈ (g.block b).successors ↔ d ∈ (f.splitCriticalEdges.1.block b).successors) ∧
        (d ∈ (f.splitCriticalEdges.1.block b).successors ↔
          ¬ f.rebuildCfgPredecessors.IsCriticalEdge b d)) ∧
    ∀ (V : Type) (body : Nat → (Nat → V) → Nat → V),
      (∀ b env env', (∀ v < f.nextValueId, env v = env' v) →
        ∀ v < f.nextValueId, body b env v = body b env' v) →
      ∀ ks, ∀ b ∈ f.blocks, ∀ env,
        Option.Rel (SameAt f.nextValueId) (f.follow f.blocks body ks (b, env))
          (f.splitCriticalEdges.1.follow f.blocks body ks (b, env)) := by
  rw [splitCriticalEdges_fst hf]
  obtain ⟨hrun, hnone⟩ := splitOneByOne_run hf
  obtain ⟨σ, h⟩ := hrun.split hf
  have hblocks : f.rebuildCfgPredecessors.blocks = f.blocks := Function.blocks_rebuild
  have hsucc : ∀ b, (f.rebuildCfgPredecessors.block b).successors = (f.block b).successors :=
    fun b => by rw [hf.rebuild_eq, Function.successors_withPredecessors]
  refine ⟨rfl, ?_, ?_, ?_⟩
  · intro b hb d hd hsuccs hpreds
    by_contra hpad
    refine hnone b hb d ⟨eq_false_of_ne_true hpad, hsuccs, mem_unique.2 hd, ?_⟩
    rw [h.upToDate d (h.wellFormed.closed_successors b hb d hd), length_unique,
      List.toFinset_card_of_nodup h.wellFormed.nodup_preds]
    exact hpreds
  · intro g hg hnone' b hb d hd
    obtain ⟨σ', h'⟩ := hg.split hf
    rw [← hblocks] at hb
    rw [← hsucc b] at hd
    have hiff := h.whole_iff hf.rebuild hf.rebuild_upToDate hnone hb hd
    have hiff' := h'.whole_iff hf.rebuild hf.rebuild_upToDate hnone' hb hd
    exact ⟨hiff'.trans hiff.symm, hiff⟩
  · intro V body hbody ks b hb env
    have hvalue : f.rebuildCfgPredecessors.nextValueId = f.nextValueId := by
      rw [hf.rebuild_eq]
      rfl
    have hfollow := @Split.follow τ V f.rebuildCfgPredecessors f.splitOneByOne σ h hf.rebuild body
      (hvalue ▸ hbody) ks (b, env) (b, env) (hblocks.symm ▸ hb) ⟨rfl, fun _ _ => rfl⟩
    rwa [follow_rebuild hf, hblocks, hvalue] at hfollow

section Sample

/-- A switch with two cases to one block, and a loop from a block to itself; every edge of it is
critical. -/
def loopAndSwitch : Function Unit where
  blocks := [0, 1, 2]
  block
    | 0 => ⟨"", [(0, ()), (1, ())], false, .switch ⟨1, [0]⟩ [(0, ⟨2, [0]⟩), (1, ⟨2, [1]⟩)], []⟩
    | 1 => ⟨"loop", [(2, ())], false, .brIf ⟨1, [2]⟩ ⟨2, [2]⟩, []⟩
    | _ => ⟨"exit", [(3, ())], false, .exit, []⟩
  nextBlockId := 3
  nextValueId := 4

theorem loopAndSwitch_wellFormed : loopAndSwitch.WellFormed where
  nodup := by decide
  closed := by decide
  blockIds := by decide
  args := by decide
  params := by decide

theorem splitCriticalEdges_sound_loopAndSwitch :
    loopAndSwitch.splitCriticalEdges.1.blocks = [0, 4, 3, 1, 6, 5, 2] ∧
      loopAndSwitch.splitCriticalEdges.1 = loopAndSwitch.splitOneByOne :=
  ⟨by decide, (splitCriticalEdges_sound loopAndSwitch_wellFormed).1⟩

end Sample

end Brass.Mir.CriticalEdge
