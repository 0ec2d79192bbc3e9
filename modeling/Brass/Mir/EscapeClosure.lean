import Brass.Mir.EscapeScan

/-!
# The completed graph

When the loop of the analysis ends, the graph is closed under the flow of the function: what is
forced is in it (`Complete`), and an escaping node has made everything escape that it leads to.
-/

namespace Brass.Mir.Escape

open Brass.Util List Option ConnectionGraph

variable {fn : Function} {options : EscapeAnalysisOptions} {g g' : ConnectionGraph}
  {inst : Instruction} {acc : ConnectionGraph × Bool} {n u v : CGNode} {o : ObjectNode}
  {fuel : Nat}

/-! ## Pointees along copies -/

variable {offset : Int} {res : Nat}

def CopiesClosed (g : ConnectionGraph) : Prop :=
  ∀ u, ∀ v ∈ g.deferred u, ∀ o ∈ g.pointsTo u, o ∈ g.pointsTo v

theorem foldl_addPointsTo (v : CGNode) (os : List ObjectNode) (g : ConnectionGraph) :
    (g.pointsTo v).length ≤ ((os.foldl (fun g o => g.addPointsTo v o) g).pointsTo v).length ∧
    (((os.foldl (fun g o => g.addPointsTo v o) g).pointsTo v).length ≤ (g.pointsTo v).length →
      os.foldl (fun g o => g.addPointsTo v o) g = g ∧ ∀ o ∈ os, o ∈ g.pointsTo v) := by
  induction os generalizing g with
  | nil => exact ⟨le_refl _, fun _ => ⟨rfl, fun o ho => (not_mem_nil ho).elim⟩⟩
  | cons o os ih =>
    obtain ⟨hlen, hsame⟩ := ih (g.addPointsTo v o)
    rw [foldl_cons]
    by_cases ho : o ∈ g.pointsTo v
    · have heq : g.addPointsTo v o = g := if_pos ho
      rw [heq] at hlen hsame ⊢
      refine ⟨hlen, fun h => ⟨(hsame h).1, fun x hx => ?_⟩⟩
      rcases mem_cons.1 hx with rfl | hx
      · exact ho
      · exact (hsame h).2 x hx
    · have hgrow : ((g.addPointsTo v o).pointsTo v).length = (g.pointsTo v).length + 1 := by
        unfold addPointsTo
        rw [if_neg ho]
        simp
      exact ⟨by omega, fun h => by omega⟩

theorem pushAlong_quiet (h : (pushAlong u acc v).2 = false) :
    pushAlong u acc v = acc ∧ ∀ o ∈ acc.1.pointsTo u, o ∈ acc.1.pointsTo v := by
  unfold pushAlong at h ⊢
  obtain ⟨hacc, hlt⟩ := Bool.or_eq_false_iff.1 h
  obtain ⟨heq, hall⟩ := (foldl_addPointsTo v (acc.1.pointsTo u) acc.1).2
    (not_lt.1 (of_decide_eq_false hlt))
  refine ⟨?_, hall⟩
  dsimp only
  rw [heq]
  simp

theorem pointsToRound_quiet (hb : Built fn g) (h : g.pointsToRound.2 = false) :
    g.pointsToRound.1 = g ∧ CopiesClosed g := by
  have hfrom : ∀ (acc : ConnectionGraph × Bool) u, (pushFrom acc u).2 = false →
      acc.2 = false ∧ acc.1 = (pushFrom acc u).1 ∧
        ∀ v ∈ acc.1.deferred u, ∀ o ∈ (pushFrom acc u).1.pointsTo u,
          o ∈ (pushFrom acc u).1.pointsTo v := by
    intro acc u h
    refine foldl_quiet (I := fun _ => True) (R := Eq) (P := fun g v => ∀ o ∈ g.pointsTo u,
      o ∈ g.pointsTo v) (fun _ => rfl) (fun _ _ _ => Eq.trans) (fun _ _ _ h hp => h ▸ hp)
      (fun _ _ _ _ => trivial) (fun acc v _ _ hq => ?_) trivial h
    obtain ⟨heq, hall⟩ := pushAlong_quiet hq
    rw [heq] at hq ⊢
    exact ⟨hq, rfl, hall⟩
  obtain ⟨-, heq, hall⟩ := foldl_quiet (I := fun _ => True) (R := Eq) (P := fun g u =>
    ∀ v ∈ g.deferred u, ∀ o ∈ g.pointsTo u, o ∈ g.pointsTo v) (fun _ => rfl)
    (fun _ _ _ => Eq.trans) (fun _ _ _ h hp => h ▸ hp) (fun _ _ _ _ => trivial)
    (fun acc u _ _ hq => ⟨(hfrom acc u hq).1, (hfrom acc u hq).2.1,
      (hfrom acc u hq).2.1 ▸ (hfrom acc u hq).2.2⟩) trivial h
  have hround : g.pointsToRound.1 = g := heq.symm
  have hclosed : ∀ u ∈ g.nodes, ∀ v ∈ g.pointsToRound.1.deferred u,
      ∀ o ∈ g.pointsToRound.1.pointsTo u, o ∈ g.pointsToRound.1.pointsTo v := hall
  rw [hround] at hclosed
  exact ⟨hround, fun u v hv o ho => hclosed u (hb.deferred u v hv).1 v hv o ho⟩

theorem pointsToRound_of_closed (hclosed : CopiesClosed g) : g.pointsToRound = (g, false) := by
  have halong : ∀ u v, v ∈ g.deferred u → pushAlong u (g, false) v = (g, false) := by
    intro u v hv
    have hfold : ∀ os : List ObjectNode, (∀ o ∈ os, o ∈ g.pointsTo v) →
        os.foldl (fun g o => g.addPointsTo v o) g = g := by
      intro os hos
      refine foldlRecOn (motive := fun g' => g' = g) os _ rfl ?_
      rintro _ rfl o ho
      exact if_pos (hos o ho)
    unfold pushAlong
    dsimp only
    rw [hfold _ (hclosed u v hv)]
    simp
  have hfrom : ∀ u, pushFrom (g, false) u = (g, false) := by
    intro u
    refine foldlRecOn (motive := fun acc => acc = (g, false)) _ _ rfl ?_
    rintro _ rfl v hv
    exact halong u v hv
  refine foldlRecOn (motive := fun acc => acc = (g, false)) _ _ rfl ?_
  rintro _ rfl u _
  exact hfrom u

theorem grows_pushAlong (u : CGNode) (acc : ConnectionGraph × Bool) (v : CGNode) :
    acc.1.Grows (pushAlong u acc v).1 :=
  foldlRecOn (motive := fun g => acc.1.Grows g) _ _ (.refl _)
    fun _ hg _ _ => hg.trans (grows_addPointsTo _ _ _)

theorem built_pushAlong {a b : Nat} (hb : Built fn acc.1) (hv : .reference b ∈ acc.1.nodes)
    (hcopy : Copies fn a b) :
    Built fn (pushAlong (.reference a) acc (.reference b)).1 := by
  refine (foldlRecOn (motive := fun g => acc.1.Grows g ∧ Built fn g) _ _ ⟨.refl _, hb⟩ ?_).2
  rintro g ⟨hg, hbg⟩ o ho
  obtain ⟨-, hobj, hflow⟩ := hb.pointsTo _ o ho
  exact ⟨hg.trans (grows_addPointsTo _ _ _),
    hbg.addPointsTo (hg.nodes _ hv) (hg.nodes _ hobj) (.copy hcopy hflow)⟩

theorem extends_pushFrom (acc : ConnectionGraph × Bool) (u : CGNode) :
    Extends fn acc.1 (pushFrom acc u).1 := by
  have hgrow : ∀ l : List CGNode, acc.1.Grows (l.foldl (pushAlong u) acc).1 := fun l =>
    foldlRecOn (motive := fun acc' : ConnectionGraph × Bool => acc.1.Grows acc'.1) _ _
      (.refl _) fun acc' hg v _ => hg.trans (grows_pushAlong u acc' v)
  refine ⟨hgrow _, fun hb => ?_⟩
  refine (foldlRecOn (motive := fun acc' : ConnectionGraph × Bool =>
    acc.1.Grows acc'.1 ∧ Built fn acc'.1) _ _ ⟨.refl _, hb⟩ ?_).2
  rintro acc' ⟨hg, hb'⟩ v hv
  obtain ⟨-, hvn, a, b, rfl, rfl, hcopy⟩ := hb.deferred u v hv
  exact ⟨hg.trans (grows_pushAlong _ _ _), built_pushAlong hb' (hg.nodes _ hvn) hcopy⟩

theorem extends_pointsToRound (g : ConnectionGraph) : Extends fn g g.pointsToRound.1 :=
  foldlRecOn (motive := fun acc : ConnectionGraph × Bool => Extends fn g acc.1) _ _ (.refl _)
    fun acc hg u _ => hg.trans (extends_pushFrom acc u)

/-! ## Propagation -/

def StatesClosed (g : ConnectionGraph) : Prop := ∀ u, ∀ v ∈ g.escapesTo u, g.state u ≤ g.state v

theorem escapesTo_subset (hb : Built fn g) (hu : u ∈ g.nodes) (hv : v ∈ g.escapesTo u) :
    v ∈ g.nodes := by
  have hobjects : ∀ n, v ∈ (g.pointsTo n).map .object → v ∈ g.nodes := by
    intro n h
    obtain ⟨o, ho, rfl⟩ := mem_map.1 h
    exact (hb.pointsTo n o ho).2.1
  cases u with
  | object o =>
    rcases mem_append.1 hv with hv | hv <;> exact (mem_filter.1 hv).1
  | field o offset =>
    rcases mem_append.1 hv with hv | hv
    · exact hobjects _ hv
    · rw [mem_singleton.1 hv]
      exact hb.parent o offset hu
  | reference x =>
    rcases mem_append.1 hv with hv | hv
    · exact hobjects _ hv
    · exact (hb.deferred _ v hv).2.1

theorem propagateStates_spec (hb : Built fn g) (h : g.propagateStates fuel = some g') :
    Extends fn g g' ∧ g'.pointsTo = g.pointsTo ∧ g'.deferred = g.deferred ∧ StatesClosed g' := by
  obtain ⟨st, hst, rfl⟩ := map_eq_some_iff.1 h
  have hpending : Pending g.escapesTo g.state (g.nodes.filter fun n => .noEscape < g.state n) := by
    intro u v _
    by_cases hu : g.state u = .noEscape
    · exact .inr (hu ▸ noEscape_le _)
    · exact .inl (mem_filter.2 ⟨hb.state u hu,
        decide_eq_true (lt_of_le_of_ne (noEscape_le _) (Ne.symm hu))⟩)
  obtain ⟨hle, hclosed⟩ := raiseAlong_spec hpending hst
  refine ⟨⟨⟨fun _ => id, fun _ _ => id, fun _ _ => id, hle⟩, fun _ => ⟨?_, hb.pointsTo, hb.deferred,
    hb.parent⟩⟩, rfl, rfl, hclosed⟩
  exact raiseAlong_induct noEscape_le (P := (· ∈ g.nodes)) hb.state
    (fun u v hu hv => escapesTo_subset hb hu hv) hst

theorem propagate_spec (hb : Built fn g) (h : g.propagate fuel = some g') :
    Extends fn g g' ∧ CopiesClosed g' ∧ StatesClosed g' ∧
      (CopiesClosed g → g'.pointsTo = g.pointsTo ∧ g'.deferred = g.deferred) := by
  obtain ⟨p, hp, hstates⟩ := bind_eq_some_iff.1 h
  obtain ⟨last, ⟨hext, hlast⟩, hround⟩ := untilStable_spec
    (I := fun p => Extends fn g p ∧ Built fn p) (fun s t _ hs ht => by
      obtain rfl := congrArg Prod.fst (some.inj ht)
      exact ⟨hs.1.trans (extends_pointsToRound s), (extends_pointsToRound s).built hs.2⟩)
    ⟨.refl g, hb⟩ hp
  have hround' : last.pointsToRound = (p, false) := some.inj hround
  obtain ⟨hsame, hclosed⟩ := pointsToRound_quiet hlast (congrArg Prod.snd hround')
  have hlp : last = p := hsame.symm.trans (congrArg Prod.fst hround')
  subst hlp
  obtain ⟨hext', hpts, hdef, hst⟩ := propagateStates_spec hlast hstates
  refine ⟨hext.trans hext', fun u v hv o ho => ?_, hst, fun hcg => ?_⟩
  · rw [hpts] at ho ⊢
    rw [hdef] at hv
    exact hclosed u v hv o ho
  · cases fuel with
    | zero => cases hp
    | succ n =>
      unfold untilStable at hp
      rw [pointsToRound_of_closed hcg] at hp
      cases hp
      exact ⟨hpts, hdef⟩

/-! ## Stores and loads -/

/-- The graph has grown by nodes and states only. -/
structure SamePoints (g g' : ConnectionGraph) : Prop where
  grows : g.Grows g'
  pointsTo : g'.pointsTo = g.pointsTo
  deferred : g'.deferred = g.deferred

namespace SamePoints

theorem refl (g : ConnectionGraph) : SamePoints g g := ⟨.refl g, rfl, rfl⟩

theorem trans {g'' : ConnectionGraph} (h : SamePoints g g') (h' : SamePoints g' g'') :
    SamePoints g g'' :=
  ⟨h.grows.trans h'.grows, h'.pointsTo.trans h.pointsTo, h'.deferred.trans h.deferred⟩

theorem create (g : ConnectionGraph) (n : CGNode) : SamePoints g (g.create n) := by
  refine ⟨g.grows_create n, ?_, ?_⟩ <;>
  · unfold ConnectionGraph.create
    split <;> rfl

theorem markEscapeState (g : ConnectionGraph) (n : CGNode) (state : EscapeState) :
    SamePoints g (g.markEscapeState n state) := by
  refine ⟨g.grows_markEscapeState n state, ?_, ?_⟩ <;>
  · unfold ConnectionGraph.markEscapeState
    split <;> rfl

theorem getOrCreateFieldNode (g : ConnectionGraph) (o : ObjectNode) (offset : Int) :
    SamePoints g (g.getOrCreateFieldNode o offset) := by
  unfold ConnectionGraph.getOrCreateFieldNode
  split
  · exact .refl g
  · exact (create g _).trans (markEscapeState _ _ _)

end SamePoints

theorem mem_getOrCreateFieldNode (g : ConnectionGraph) (o : ObjectNode) (offset : Int) :
    .field o offset ∈ (g.getOrCreateFieldNode o offset).nodes := by
  unfold getOrCreateFieldNode
  split
  · assumption
  · exact (SamePoints.markEscapeState _ _ _).grows.nodes _ (mem_create _ _)

theorem built_getOrCreateFieldNode (hb : Built fn g) (ho : .object o ∈ g.nodes) :
    Built fn (g.getOrCreateFieldNode o offset) := by
  unfold getOrCreateFieldNode
  split
  · exact hb
  · refine (hb.create fun o' offset' h => ?_).markEscapeState (mem_create _ _)
    cases h
    exact ho

theorem foldl_addTarget_quiet {field : CGNode} (ts : List ObjectNode)
    (h : (ts.foldl (addTarget field) acc).2 = false) :
    acc.2 = false ∧ ts.foldl (addTarget field) acc = acc ∧ ∀ t ∈ ts, t ∈ acc.1.pointsTo field := by
  induction ts generalizing acc with
  | nil => exact ⟨h, rfl, fun t ht => (not_mem_nil ht).elim⟩
  | cons t ts ih =>
    rw [foldl_cons] at h ⊢
    by_cases ht : t ∈ acc.1.pointsTo field
    · have hsame : addTarget field acc t = acc := if_pos ht
      rw [hsame] at h ⊢
      obtain ⟨hq, heq, hall⟩ := ih h
      refine ⟨hq, heq, fun x hx => ?_⟩
      rcases mem_cons.1 hx with rfl | hx
      · exact ht
      · exact hall x hx
    · have hflag : (addTarget field acc t).2 = true := by
        unfold addTarget
        rw [if_neg ht]
      exact absurd (ih h).1 (by rw [hflag]; exact Bool.noConfusion)

theorem foldl_built {α : Type} {step : ConnectionGraph × Bool → α → ConnectionGraph × Bool}
    {l : List α} (hb : Built fn acc.1) (hstep : ∀ acc' : ConnectionGraph × Bool, ∀ a ∈ l,
      acc.1.Grows acc'.1 → Built fn acc'.1 →
        acc'.1.Grows (step acc' a).1 ∧ Built fn (step acc' a).1) :
    acc.1.Grows (l.foldl step acc).1 ∧ Built fn (l.foldl step acc).1 :=
  foldlRecOn (motive := fun acc' : ConnectionGraph × Bool =>
    acc.1.Grows acc'.1 ∧ Built fn acc'.1) _ _ ⟨.refl _, hb⟩ fun acc' h a ha =>
      ⟨h.1.trans (hstep acc' a ha h.1 h.2).1, (hstep acc' a ha h.1 h.2).2⟩

theorem built_foldl_addTarget {field : CGNode} {ts : List ObjectNode} (hb : Built fn acc.1)
    (hfield : field ∈ acc.1.nodes) (hts : ∀ t ∈ ts, .object t ∈ acc.1.nodes ∧ Flows fn field t) :
    acc.1.Grows (ts.foldl (addTarget field) acc).1 ∧
      Built fn (ts.foldl (addTarget field) acc).1 := by
  refine foldl_built hb fun acc' t ht hg hb' => ?_
  unfold addTarget
  split
  · exact ⟨.refl _, hb'⟩
  · exact ⟨grows_addPointsTo _ _ _,
      hb'.addPointsTo (hg.nodes _ hfield) (hg.nodes _ (hts t ht).1) (hts t ht).2⟩

theorem findRefNode_eq_some {x : Option Nat} {b : Nat} :
    findRefNode g x = some b ↔ x = some b ∧ .reference b ∈ g.nodes := by
  unfold findRefNode
  cases x with
  | none => simp
  | some y =>
    rw [filter_some]
    split <;> simp_all <;> (intro h; subst h; assumption)

theorem built_connectStoreTo {val : Option Nat} (hb : Built fn acc.1)
    (ho : .object o ∈ acc.1.nodes) (hval : ∀ x, val = some x → .reference x ∈ acc.1.nodes)
    (hflow : ∀ x t, val = some x → Flows fn (.reference x) t → Flows fn (.field o offset) t) :
    acc.1.Grows (connectStoreTo offset val acc o).1 ∧
      Built fn (connectStoreTo offset val acc o).1 := by
  have hfield := (SamePoints.getOrCreateFieldNode acc.1 o offset).grows
  have hbf : Built fn (acc.1.getOrCreateFieldNode o offset) := built_getOrCreateFieldNode hb ho
  unfold connectStoreTo
  cases val with
  | none => exact ⟨hfield, hbf⟩
  | some x =>
    obtain ⟨hg, hbt⟩ := @built_foldl_addTarget fn (acc.1.getOrCreateFieldNode o offset, acc.2)
      (.field o offset) ((acc.1.getOrCreateFieldNode o offset).pointsTo (.reference x)) hbf
      (mem_getOrCreateFieldNode _ _ _) fun t ht =>
        ⟨(hbf.pointsTo _ t ht).2.1, hflow x t rfl (hbf.pointsTo _ t ht).2.2⟩
    have hg' := hfield.trans hg
    dsimp only
    split
    · exact ⟨hg'.trans (grows_markEscapeState _ _ _),
        hbt.markEscapeState (hg'.nodes _ (hval x rfl))⟩
    · exact ⟨hg', hbt⟩

theorem connectStoreTo_quiet {val : Option Nat} (h : (connectStoreTo offset val acc o).2 = false) :
    acc.2 = false ∧ SamePoints acc.1 (connectStoreTo offset val acc o).1 ∧
      ∀ x, val = some x → ∀ t ∈ (connectStoreTo offset val acc o).1.pointsTo (.reference x),
        t ∈ (connectStoreTo offset val acc o).1.pointsTo (.field o offset) := by
  have hfield := SamePoints.getOrCreateFieldNode acc.1 o offset
  unfold connectStoreTo at h ⊢
  cases val with
  | none => exact ⟨h, hfield, fun x hx => by cases hx⟩
  | some x =>
    generalize acc.1.getOrCreateFieldNode o offset = g at hfield h ⊢
    dsimp only at h ⊢
    have hquiet : (((g.pointsTo (.reference x)).foldl (addTarget (.field o offset))
        (g, acc.2)).2 = false) := by
      split at h <;> exact h
    obtain ⟨hacc, heq, hall⟩ := foldl_addTarget_quiet _ hquiet
    rw [heq]
    dsimp only
    have hmark := SamePoints.markEscapeState g (.reference x) (g.state (.object o))
    refine ⟨hacc, ?_, fun y hy t ht => ?_⟩
    · split
      · exact hfield.trans hmark
      · exact hfield
    · cases hy
      split at ht
      · rw [if_pos ‹_›]
        dsimp only at ht ⊢
        rw [hmark.pointsTo] at ht ⊢
        exact hall t ht
      · rw [if_neg ‹_›]
        exact hall t ht

/-- A store whose base points nowhere makes its value escape; the others fill the fields of the
objects that their base points to. -/
def StoreClosed (fn : Function) (g : ConnectionGraph) (st : StoreOp) : Prop :=
  ∀ base val, st.base = some base → st.val = some val → fn.isPointerLike val = true →
    (g.pointsTo (.reference base) = [] → g.pointsTo (.reference val) ≠ [] →
      g.state (.reference val) ≠ .noEscape) ∧
    ∀ o ∈ g.pointsTo (.reference base), ∀ t ∈ g.pointsTo (.reference val),
      t ∈ g.pointsTo (.field o st.offset)

theorem StoreClosed.mono {st : StoreOp} (hg : SamePoints g g') (h : StoreClosed fn g st) :
    StoreClosed fn g' st := by
  intro base val hbase hval hpl
  rw [hg.pointsTo]
  obtain ⟨hempty, hall⟩ := h base val hbase hval hpl
  exact ⟨fun hb hv => ne_noEscape_of_le (hg.grows.state _) (hempty hb hv), hall⟩

def pointees (g : ConnectionGraph) (baseRef : Option Nat) : List ObjectNode :=
  baseRef.elim [] fun v => g.pointsTo (.reference v)

theorem built_connectStore (h : Has fn inst) (hop : inst.opcode = .store) (hb : Built fn acc.1) :
    acc.1.Grows (connectStore fn acc (storeOp inst)).1 ∧
      Built fn (connectStore fn acc (storeOp inst)).1 := by
  unfold connectStore
  have hval : ∀ x, findRefNode acc.1 ((storeOp inst).val.filter fn.isPointerLike) = some x →
      inst.operands[1]? = some x ∧ fn.isPointerLike x = true ∧ .reference x ∈ acc.1.nodes := by
    intro x hx
    obtain ⟨hx, hmem⟩ := findRefNode_eq_some.1 hx
    obtain ⟨hx, hpl⟩ := filter_eq_some_iff.1 hx
    exact ⟨hx, hpl, hmem⟩
  generalize findRefNode acc.1 ((storeOp inst).val.filter fn.isPointerLike) = valRef at hval
  dsimp only
  split
  · cases valRef with
    | none => exact ⟨.refl _, hb⟩
    | some x =>
      exact ⟨grows_markEscapeState _ _ _, hb.markEscapeState (hval x rfl).2.2⟩
  · generalize hbase : findRefNode acc.1 (storeOp inst).base = baseRef
    cases baseRef with
    | none => exact ⟨.refl _, hb⟩
    | some base =>
      refine foldl_built hb fun acc' o ho hg hb' => ?_
      obtain ⟨-, hobj, hflow⟩ := hb.pointsTo _ o ho
      exact built_connectStoreTo hb' (hg.nodes _ hobj) (fun x hx => hg.nodes _ (hval x hx).2.2)
        fun x t hx ht => .store h hop (findRefNode_eq_some.1 hbase).1 (hval x hx).1
          (hval x hx).2.1 hflow ht

theorem connectStore_quiet {st : StoreOp} (hb : Built fn acc.1)
    (h : (connectStore fn acc st).2 = false) :
    acc.2 = false ∧ SamePoints acc.1 (connectStore fn acc st).1 ∧
      StoreClosed fn (connectStore fn acc st).1 st := by
  have hmissing : ∀ x, .reference x ∉ acc.1.nodes → acc.1.pointsTo (.reference x) = [] :=
    fun x hx => eq_nil_iff_forall_not_mem.2 fun o ho => hx (hb.pointsTo _ o ho).1
  have hbase : ∀ base, st.base = some base →
      (findRefNode acc.1 st.base).elim [] (fun v => acc.1.pointsTo (.reference v)) =
        acc.1.pointsTo (.reference base) := by
    intro base hst
    cases hfind : findRefNode acc.1 st.base with
    | none =>
      refine (hmissing base fun hmem => ?_).symm
      rw [findRefNode_eq_some.2 ⟨hst, hmem⟩] at hfind
      cases hfind
    | some x =>
      obtain rfl := some.inj (hst.symm.trans (findRefNode_eq_some.1 hfind).1)
      rfl
  have hval : ∀ val, st.val = some val → fn.isPointerLike val = true →
      acc.1.pointsTo (.reference val) ≠ [] →
        findRefNode acc.1 (st.val.filter fn.isPointerLike) = some val := by
    intro val hst hpl hne
    refine findRefNode_eq_some.2 ⟨filter_eq_some_iff.2 ⟨hst, hpl⟩, ?_⟩
    exact Classical.by_contradiction fun hmem => hne (hmissing val hmem)
  unfold connectStore at h ⊢
  dsimp only at h ⊢
  split at h
  · rename_i hempty
    rw [if_pos hempty]
    generalize findRefNode acc.1 (st.val.filter fn.isPointerLike) = valRef at h hval
    cases valRef with
    | none =>
      refine ⟨h, .refl _, fun base val hst hv hpl => ⟨fun _ hne => ?_, fun o ho => ?_⟩⟩
      · cases hval val hv hpl hne
      · rw [← hbase base hst, hempty] at ho
        exact (not_mem_nil ho).elim
    | some x =>
      have hmark := SamePoints.markEscapeState acc.1 (.reference x) .globalEscape
      refine ⟨h, hmark, fun base val hst hv hpl => ⟨fun _ hne => ?_, fun o ho => ?_⟩⟩
      · dsimp only at hne ⊢
        rw [hmark.pointsTo] at hne
        obtain rfl := some.inj (hval val hv hpl hne)
        exact ne_noEscape_of_le (le_markEscapeState _ _ _) fun h => by cases h
      · dsimp only at ho
        rw [hmark.pointsTo, ← hbase base hst, hempty] at ho
        exact (not_mem_nil ho).elim
  · rename_i hne
    rw [if_neg hne]
    generalize findRefNode acc.1 (st.val.filter fn.isPointerLike) = valRef at h hval ⊢
    obtain ⟨hacc, hsame, hall⟩ := foldl_quiet (I := fun _ => True) (R := SamePoints)
      (P := fun g o => ∀ x, valRef = some x → ∀ t ∈ g.pointsTo (.reference x),
        t ∈ g.pointsTo (.field o st.offset)) SamePoints.refl (fun _ _ _ => SamePoints.trans)
      (fun g g' o hg hp => by rw [hg.pointsTo]; exact hp) (fun _ _ _ _ => trivial)
      (fun acc o _ _ hq => connectStoreTo_quiet hq) trivial h
    refine ⟨hacc, hsame, fun base val hst hv hpl => ⟨fun hempty => ?_, fun o ho t ht => ?_⟩⟩
    · rw [hsame.pointsTo, ← hbase base hst] at hempty
      exact (hne hempty).elim
    · have htargets : acc.1.pointsTo (.reference val) ≠ [] := by
        rw [hsame.pointsTo] at ht
        exact ne_nil_of_mem ht
      rw [hsame.pointsTo, ← hbase base hst] at ho
      exact hall o ho val (hval val hv hpl htargets) t ht

theorem built_connectLoadFrom (hb : Built fn acc.1) (ho : .object o ∈ acc.1.nodes)
    (hres : .reference res ∈ acc.1.nodes)
    (hflow : ∀ t, Flows fn (.field o offset) t → Flows fn (.reference res) t) :
    acc.1.Grows (connectLoadFrom offset res acc o).1 ∧
      Built fn (connectLoadFrom offset res acc o).1 := by
  have hfield := (SamePoints.getOrCreateFieldNode acc.1 o offset).grows
  have hbf : Built fn (acc.1.getOrCreateFieldNode o offset) := built_getOrCreateFieldNode hb ho
  obtain ⟨hg, hbt⟩ := @built_foldl_addTarget fn (acc.1.getOrCreateFieldNode o offset, acc.2)
    (.reference res) ((acc.1.getOrCreateFieldNode o offset).pointsTo (.field o offset)) hbf
    (hfield.nodes _ hres) fun t ht =>
      ⟨(hbf.pointsTo _ t ht).2.1, hflow t (hbf.pointsTo _ t ht).2.2⟩
  have hg' := hfield.trans hg
  unfold connectLoadFrom
  dsimp only
  split
  · exact ⟨hg'.trans (grows_markEscapeState _ _ _), hbt.markEscapeState (hg'.nodes _ hres)⟩
  · exact ⟨hg', hbt⟩

theorem connectLoadFrom_quiet (h : (connectLoadFrom offset res acc o).2 = false) :
    acc.2 = false ∧ SamePoints acc.1 (connectLoadFrom offset res acc o).1 ∧
      ∀ t ∈ (connectLoadFrom offset res acc o).1.pointsTo (.field o offset),
        t ∈ (connectLoadFrom offset res acc o).1.pointsTo (.reference res) := by
  have hfield := SamePoints.getOrCreateFieldNode acc.1 o offset
  unfold connectLoadFrom at h ⊢
  generalize acc.1.getOrCreateFieldNode o offset = g at hfield h ⊢
  dsimp only at h ⊢
  have hquiet : (((g.pointsTo (.field o offset)).foldl (addTarget (.reference res))
      (g, acc.2)).2 = false) := by
    split at h <;> exact h
  obtain ⟨hacc, heq, hall⟩ := foldl_addTarget_quiet _ hquiet
  rw [heq]
  dsimp only
  have hmark := SamePoints.markEscapeState g (.reference res) (g.state (.field o offset))
  refine ⟨hacc, ?_, fun t ht => ?_⟩
  · split
    · exact hfield.trans hmark
    · exact hfield
  · split at ht
    · rw [if_pos ‹_›]
      dsimp only at ht ⊢
      rw [hmark.pointsTo] at ht ⊢
      exact hall t ht
    · rw [if_neg ‹_›]
      exact hall t ht

def LoadClosed (g : ConnectionGraph) (ld : LoadOp) : Prop :=
  ∀ base, ld.base = some base → ∀ o ∈ g.pointsTo (.reference base),
    ∀ t ∈ g.pointsTo (.field o ld.offset), t ∈ g.pointsTo (.reference ld.result)

theorem LoadClosed.mono {ld : LoadOp} (hg : SamePoints g g') (h : LoadClosed g ld) :
    LoadClosed g' ld := by
  intro base hbase
  rw [hg.pointsTo]
  exact h base hbase

theorem built_connectLoad (h : Has fn inst) (hop : inst.opcode = .load)
    (hres : inst.result = some res) (hpl : fn.isPointerLike res = true) (hb : Built fn acc.1) :
    acc.1.Grows (connectLoad acc ⟨res, inst.operands[0]?, inst.offset⟩).1 ∧
      Built fn (connectLoad acc ⟨res, inst.operands[0]?, inst.offset⟩).1 := by
  have href : Extends fn acc.1 _ := extends_getOrCreateRefNode acc.1 res
  have hmem : .reference res ∈ (acc.1.getOrCreateRefNode res).nodes :=
    mem_create _ _
  unfold connectLoad
  dsimp only
  split
  · exact ⟨href.grows, href.built hb⟩
  · rename_i base hfind
    obtain ⟨hg, hb'⟩ := @foldl_built fn (acc.1.getOrCreateRefNode res, acc.2) _
      (connectLoadFrom inst.offset res) ((acc.1.getOrCreateRefNode res).pointsTo (.reference base))
      (href.built hb) fun acc' o ho hg hb' => by
        obtain ⟨-, hobj, hflow⟩ := (href.built hb).pointsTo _ o ho
        exact built_connectLoadFrom hb' (hg.nodes _ hobj) (hg.nodes _ hmem) fun t ht =>
          .load h hop (findRefNode_eq_some.1 hfind).1 hres hpl hflow ht
    exact ⟨href.grows.trans hg, hb'⟩

theorem connectLoad_quiet {ld : LoadOp} (hb : Built fn acc.1) (h : (connectLoad acc ld).2 = false) :
    acc.2 = false ∧ SamePoints acc.1 (connectLoad acc ld).1 ∧
      LoadClosed (connectLoad acc ld).1 ld := by
  have href := SamePoints.create acc.1 (.reference ld.result)
  unfold connectLoad at h ⊢
  dsimp only at h ⊢
  split at h
  · rename_i hfind
    refine ⟨h, href, fun base hbase o ho => ?_⟩
    have ho' : o ∈ acc.1.pointsTo (.reference base) := href.pointsTo ▸ ho
    rw [findRefNode_eq_some.2 ⟨hbase, (hb.pointsTo _ o ho').1⟩] at hfind
    cases hfind
  · rename_i base hfind
    obtain ⟨hacc, hsame, hall⟩ := foldl_quiet (I := fun _ => True) (R := SamePoints)
      (P := fun g o => ∀ t ∈ g.pointsTo (.field o ld.offset),
        t ∈ g.pointsTo (.reference ld.result)) SamePoints.refl (fun _ _ _ => SamePoints.trans)
      (fun g g' o hg hp => by rw [hg.pointsTo]; exact hp) (fun _ _ _ _ => trivial)
      (fun acc o _ _ hq => connectLoadFrom_quiet hq) trivial h
    refine ⟨hacc, href.trans hsame, fun base' hbase' o ho => ?_⟩
    obtain rfl := some.inj (hbase'.symm.trans (findRefNode_eq_some.1 hfind).1)
    rw [hsame.pointsTo] at ho
    exact hall o ho

/-! ## The whole run -/

structure Complete (fn : Function) (g : ConnectionGraph) : Prop where
  built : Built fn g
  pointsTo : ∀ n o, Flows fn n o → o ∈ g.pointsTo n
  states : StatesClosed g
  param : ∀ p ∈ (fn.block 0).params, fn.isPointerLike p = true →
    g.state (.object (.phantom p)) ≠ .noEscape
  published : ∀ inst, Has fn inst → ∀ v ∈ published fn inst, fn.isPointerLike v = true →
    g.state (.reference v) ≠ .noEscape
  store : ∀ inst base val, Has fn inst → inst.opcode = .store → inst.operands[0]? = some base →
    inst.operands[1]? = some val → fn.isPointerLike val = true →
    g.pointsTo (.reference base) = [] → g.pointsTo (.reference val) ≠ [] →
    g.state (.reference val) ≠ .noEscape

def FromStores (fn : Function) (stores : List StoreOp) : Prop :=
  ∀ st ∈ stores, ∃ inst, Has fn inst ∧ inst.opcode = .store ∧ st = storeOp inst

def FromLoads (fn : Function) (loads : List LoadOp) : Prop :=
  ∀ ld ∈ loads, ∃ inst res, Has fn inst ∧ inst.opcode = .load ∧ inst.result = some res ∧
    fn.isPointerLike res = true ∧ ld = ⟨res, inst.operands[0]?, inst.offset⟩

theorem fromStores_scan : FromStores fn (scan fn options).stores := fun st hst =>
  ((continues_scan fn options).storesFrom st hst).resolve_left not_mem_nil

theorem fromLoads_scan : FromLoads fn (scan fn options).loads := fun ld hld =>
  ((continues_scan fn options).loadsFrom ld hld).resolve_left not_mem_nil

section Rounds

variable {stores : List StoreOp} {loads : List LoadOp} {changed : Bool}

theorem built_connectRound (hs : FromStores fn stores) (hl : FromLoads fn loads)
    (hb : Built fn g) (h : connectRound fn fuel stores loads g = some (g', changed)) :
    g.Grows g' ∧ Built fn g' := by
  obtain ⟨p, hp, heq⟩ := map_eq_some_iff.1 h
  have hext := (propagate_spec hb hp).1
  obtain ⟨hg, hbs⟩ := @foldl_built fn (p, false) _ (connectStore fn) stores (hext.built hb)
    fun acc st hst _ hb' => by
      obtain ⟨inst, hinst, hop, rfl⟩ := hs st hst
      exact built_connectStore hinst hop hb'
  obtain ⟨hg', hbl⟩ := @foldl_built fn (stores.foldl (connectStore fn) (p, false)) _ connectLoad
    loads hbs fun acc ld hld _ hb' => by
      obtain ⟨inst, res, hinst, hop, hres, hpl, rfl⟩ := hl ld hld
      exact built_connectLoad hinst hop hres hpl hb'
  rw [heq] at hg' hbl
  exact ⟨hext.grows.trans (hg.trans hg'), hbl⟩

/-- After a round without a change the graph is closed under copies, stores and loads. -/
theorem connectRound_quiet (hs : FromStores fn stores) (hl : FromLoads fn loads)
    (hb : Built fn g) (h : connectRound fn fuel stores loads g = some (g', false)) :
    CopiesClosed g' ∧ (∀ st ∈ stores, StoreClosed fn g' st) ∧ ∀ ld ∈ loads, LoadClosed g' ld := by
  obtain ⟨p, hp, heq⟩ := map_eq_some_iff.1 h
  obtain ⟨hext, hcopies, -, -⟩ := propagate_spec hb hp
  have hstep : ∀ acc : ConnectionGraph × Bool, ∀ st ∈ stores, Built fn acc.1 →
      Built fn (connectStore fn acc st).1 := by
    intro acc st hst hb'
    obtain ⟨inst, hinst, hop, rfl⟩ := hs st hst
    exact (built_connectStore hinst hop hb').2
  have hstepl : ∀ acc : ConnectionGraph × Bool, ∀ ld ∈ loads, Built fn acc.1 →
      Built fn (connectLoad acc ld).1 := by
    intro acc ld hld hb'
    obtain ⟨inst, res, hinst, hop, hres, hpl, rfl⟩ := hl ld hld
    exact (built_connectLoad hinst hop hres hpl hb').2
  have hbs : Built fn (stores.foldl (connectStore fn) (p, false)).1 :=
    foldlRecOn (motive := fun acc : ConnectionGraph × Bool => Built fn acc.1) _ _
      (hext.built hb) fun acc hb' st hst => hstep acc st hst hb'
  obtain ⟨hquiet, hloads, hlclosed⟩ := foldl_quiet (I := Built fn) (R := SamePoints)
    (P := LoadClosed) SamePoints.refl (fun _ _ _ => SamePoints.trans)
    (fun _ _ _ => LoadClosed.mono) hstepl (fun acc ld _ hb' hq => connectLoad_quiet hb' hq) hbs
    (congrArg Prod.snd heq)
  obtain ⟨-, hstores, hsclosed⟩ := foldl_quiet (I := Built fn) (R := SamePoints)
    (P := StoreClosed fn) SamePoints.refl (fun _ _ _ => SamePoints.trans)
    (fun _ _ _ => StoreClosed.mono) hstep (fun acc st _ hb' hq => connectStore_quiet hb' hq)
    (hext.built hb) hquiet
  rw [heq] at hloads hlclosed
  have hsame := hstores.trans hloads
  refine ⟨fun u v hv o ho => ?_, fun st hst => (hsclosed st hst).mono hloads, hlclosed⟩
  rw [hsame.pointsTo] at ho ⊢
  rw [hsame.deferred] at hv
  exact hcopies u v hv o ho

end Rounds

/-- The analysis ends with a graph that holds what the function forces. -/
theorem complete_run (h : run fn options fuel = some g) : Complete fn g := by
  obtain ⟨p, hp, hfinal⟩ := bind_eq_some_iff.1 h
  have hs : FromStores fn (scan fn options).stores := fromStores_scan
  have hl : FromLoads fn (scan fn options).loads := fromLoads_scan
  have hround : ∀ s t changed, (scan fn options).graph.Grows s ∧ Built fn s →
      connectRound fn fuel (scan fn options).stores (scan fn options).loads s = some (t, changed) →
      (scan fn options).graph.Grows t ∧ Built fn t := by
    rintro s t changed ⟨hg, hb⟩ ht
    obtain ⟨hg', hb'⟩ := built_connectRound hs hl hb ht
    exact ⟨hg.trans hg', hb'⟩
  have hstart := built_scan fn options
  obtain ⟨last, ⟨hg, hb⟩, hlast⟩ := untilStable_spec hround ⟨.refl _, hstart⟩ hp
  obtain ⟨hgp, hbp⟩ := hround last p false ⟨hg, hb⟩ hlast
  obtain ⟨hcopies, hstores, hloads⟩ := connectRound_quiet hs hl hb hlast
  obtain ⟨hext, -, hstates, hsame⟩ := propagate_spec hbp hfinal
  obtain ⟨hpts, -⟩ := hsame hcopies
  have hgrow := hgp.trans hext.grows
  have hflows : ∀ n o, Flows fn n o → o ∈ p.pointsTo n := by
    intro n o hflow
    induction hflow with
    | allocation hinst halloc hres => exact hgp.pointsTo _ _ (scan_allocation hinst halloc hres).1
    | param hmem hpl => exact hgp.pointsTo _ _ (scan_param hmem hpl).1
    | copy hcopy _ ih =>
      rcases scan_copies hcopy with rfl | hdef
      · exact ih
      · exact hcopies _ _ (hgp.deferred _ _ hdef) _ ih
    | store hinst hop hbase hval hpl _ _ iho iht =>
      exact (hstores _ (scan_store hinst hop) _ _ hbase hval hpl).2 _ iho _ iht
    | load hinst hop hbase hres hpl _ _ iho iht =>
      exact hloads _ (scan_load hinst hop hres hpl) _ hbase _ iho _ iht
  refine ⟨hext.built hbp, fun n o hflow => hpts ▸ hflows n o hflow, hstates, fun q hq hpl => ?_,
    fun inst hinst v hv hpl => ?_, fun inst base val hinst hop hbase hval hpl hempty hne => ?_⟩
  · exact ne_noEscape_of_le (hgrow.state _) (scan_param hq hpl).2
  · exact ne_noEscape_of_le (hgrow.state _) (scan_published hinst hv hpl)
  · rw [hpts] at hempty hne
    exact ne_noEscape_of_le (hext.grows.state _)
      ((hstores _ (scan_store hinst hop) _ _ hbase hval hpl).1 hempty hne)

/-! ## What escapes -/

namespace Complete

theorem mem_pointsTo_iff (h : Complete fn g) : o ∈ g.pointsTo n ↔ Flows fn n o :=
  ⟨fun ho => (h.built.pointsTo n o ho).2.2, h.pointsTo n o⟩

theorem object_of_reference {x : Nat} (h : Complete fn g) (hflow : Flows fn (.reference x) o)
    (hx : g.state (.reference x) ≠ .noEscape) : g.state (.object o) ≠ .noEscape :=
  ne_noEscape_of_le (h.states (.reference x) (.object o)
    (mem_append_left _ (mem_map.2 ⟨o, h.pointsTo _ _ hflow, rfl⟩))) hx

theorem object_of_field {t : ObjectNode} (h : Complete fn g)
    (hflow : Flows fn (.field o offset) t) (ho : g.state (.object o) ≠ .noEscape) :
    g.state (.object t) ≠ .noEscape := by
  have hmem := h.pointsTo _ _ hflow
  have hfield := (h.built.pointsTo _ _ hmem).1
  have hup : g.state (.object o) ≤ g.state (.field o offset) :=
    h.states _ _ (mem_append_left _ (mem_filter.2 ⟨hfield, decide_eq_true rfl⟩))
  exact ne_noEscape_of_le (h.states (.field o offset) (.object t)
    (mem_append_left _ (mem_map.2 ⟨t, hmem, rfl⟩))) (ne_noEscape_of_le hup ho)

end Complete

end Brass.Mir.Escape
