import Brass.Mir.EscapeFlow

/-!
# What the walk over the instructions records

The walk extends the graph, and every instruction leaves its mark in the result (`scan_brings`):
the object of an allocation, the copies of pointers, the escape of what is handed out, and the
list of the stores and of the loads.
-/

namespace Brass.Mir.Escape

open Brass.Util List ConnectionGraph

variable {fn : Function} {options : EscapeAnalysisOptions} {g : ConnectionGraph}
  {inst : Instruction} {s s' : Scan} {v : Nat}

def storeOp (inst : Instruction) : StoreOp := ⟨inst.operands[0]?, inst.offset, inst.operands[1]?⟩

/-- The operands whose pointees the walk marks as escaping. -/
def published (fn : Function) (inst : Instruction) : List Nat :=
  match inst.opcode with
  | .call => if isAllocationCall fn inst then [] else inst.operands
  | .callIndirect | .invoke | .guard | .other => inst.operands
  | .ret => inst.operands.head?.toList
  | .loadIndexed => inst.operands[0]?.toList
  | .storeIndexed => inst.operands[0]?.toList ++ inst.operands[2]?.toList
  | _ => []

/-- A walk goes on: the graph extends, the lists grow, and what is on them comes from the
function. -/
structure Scan.Continues (fn : Function) (s s' : Scan) : Prop where
  graph : Extends fn s.graph s'.graph
  stores : ∀ st ∈ s.stores, st ∈ s'.stores
  loads : ∀ ld ∈ s.loads, ld ∈ s'.loads
  storesFrom : ∀ st ∈ s'.stores, st ∈ s.stores ∨
    ∃ inst, Has fn inst ∧ inst.opcode = .store ∧ st = storeOp inst
  loadsFrom : ∀ ld ∈ s'.loads, ld ∈ s.loads ∨
    ∃ inst res, Has fn inst ∧ inst.opcode = .load ∧ inst.result = some res ∧
      fn.isPointerLike res = true ∧ ld = ⟨res, inst.operands[0]?, inst.offset⟩
  allocations : ∀ v ∈ s.allocations, v ∈ s'.allocations
  allocationsFrom : ∀ v ∈ s'.allocations, v ∈ s.allocations ∨ IsAllocationResult fn v

namespace Scan.Continues

theorem of_graph {g : ConnectionGraph} (h : Extends fn s.graph g) :
    s.Continues fn { s with graph := g } where
  graph := h
  stores _ := id
  loads _ := id
  storesFrom _ := .inl
  loadsFrom _ := .inl
  allocations _ := id
  allocationsFrom _ := .inl

theorem refl (s : Scan) : s.Continues fn s := of_graph (.refl _)

theorem trans {s'' : Scan} (h : s.Continues fn s') (h' : s'.Continues fn s'') :
    s.Continues fn s'' where
  graph := h.graph.trans h'.graph
  stores st hst := h'.stores st (h.stores st hst)
  loads ld hld := h'.loads ld (h.loads ld hld)
  storesFrom st hst := (h'.storesFrom st hst).elim (h.storesFrom st) .inr
  loadsFrom ld hld := (h'.loadsFrom ld hld).elim (h.loadsFrom ld) .inr
  allocations v hv := h'.allocations v (h.allocations v hv)
  allocationsFrom v hv := (h'.allocationsFrom v hv).elim (h.allocationsFrom v) .inr

theorem foldl {α : Type} {step : Scan → α → Scan} {l : List α}
    (h : ∀ s : Scan, ∀ a ∈ l, s.Continues fn (step s a)) (s : Scan) :
    s.Continues fn (l.foldl step s) := by
  induction l generalizing s with
  | nil => exact refl s
  | cons a l ih =>
    exact (h s a mem_cons_self).trans (ih (fun s b hb => h s b (mem_cons_of_mem _ hb)) (step s a))

end Scan.Continues

theorem continues_allocates (h : Has fn inst) (halloc : isAllocation fn inst = true) (s : Scan) :
    s.Continues fn (allocates s inst) := by
  have hext := extends_allocates h halloc s
  unfold allocates at hext ⊢
  split
  · exact .refl s
  · rename_i res hres
    rw [hres] at hext
    refine ⟨hext, fun _ => id, fun _ => id, fun _ => .inl, fun _ => .inl,
      fun v hv => mem_append_left _ hv, fun v hv => ?_⟩
    rcases mem_append.1 hv with hv | hv
    · exact .inl hv
    · rw [mem_singleton.1 hv]
      exact .inr ⟨inst, h, halloc, hres⟩

theorem extends_foldl_marks (state : EscapeState) (vs : List Nat) (g : ConnectionGraph) :
    Extends fn g (vs.foldl (marks fn state) g) :=
  .foldl (fun g v _ => extends_marks state g v) g

theorem extends_foldl_handleTarget (h : Has fn inst) {ts : List BranchTarget}
    (hts : ∀ t ∈ ts, t ∈ inst.targets) (g : ConnectionGraph) :
    Extends fn g (ts.foldl (handleTarget fn) g) :=
  .foldl (fun g t ht => extends_handleTarget h (hts t ht) g) g

theorem mem_targets {t : BranchTarget} : t ∈ inst.targets ↔
      (inst.opcode = .br ∧ t ∈ inst.branchTarget.toList) ∨
      ((inst.opcode = .brIf ∨ inst.opcode = .invoke) ∧
        t ∈ inst.trueTarget.toList ++ inst.falseTarget.toList) ∨
      (inst.opcode = .switch ∧ t ∈ inst.branchTarget.toList ++ inst.switchCases.map (·.2)) := by
  unfold Instruction.targets
  cases inst.opcode <;> simp

theorem continues_scanInstruction (h : Has fn inst) (s : Scan) :
    s.Continues fn (scanInstruction fn options s inst) := by
  have htargets := @mem_targets inst
  unfold scanInstruction
  split <;> rename_i hop
  case h_1 => exact continues_allocates h (by simp [isAllocation, hop]) s
  case h_2 =>
    split
    · exact continues_allocates h (by simp [isAllocation, *]) s
    · exact .of_graph (extends_foldl_marks _ _ _)
  case h_3 | h_4 | h_11 | h_12 | h_14 | h_15 => exact .of_graph (extends_foldl_marks _ _ _)
  case h_5 =>
    refine ⟨.refl _, fun st hst => mem_append_left _ hst, fun _ => id, fun st hst => ?_,
      fun _ => .inl, fun _ => id, fun _ => .inl⟩
    rcases mem_append.1 hst with hst | hst
    · exact .inl hst
    · exact .inr ⟨inst, h, hop, mem_singleton.1 hst⟩
  case h_6 =>
    split
    · rename_i res hres
      split
      · rename_i hpl
        refine ⟨.refl _, fun _ => id, fun ld hld => mem_append_left _ hld, fun _ => .inl,
          fun ld hld => ?_, fun _ => id, fun _ => .inl⟩
        rcases mem_append.1 hld with hld | hld
        · exact .inl hld
        · exact .inr ⟨inst, res, h, hop, hres, hpl, mem_singleton.1 hld⟩
      · exact .refl s
    · exact .refl s
  case h_7 =>
    split
    · rename_i res hres
      split
      · rename_i hpl
        refine .of_graph ((extends_getOrCreateRefNode _ res).trans (.foldl (fun g a ha =>
          extends_passes (fun hpa _ => .select h hop hres ?_ hpa hpl) g) _))
        simpa using ha
      · exact .refl s
    · exact .refl s
  case h_8 =>
    exact .of_graph (extends_foldl_handleTarget h (fun t ht => htargets.2 (.inl ⟨hop, ht⟩)) _)
  case h_9 =>
    exact .of_graph (extends_foldl_handleTarget h
      (fun t ht => htargets.2 (.inr (.inl ⟨.inl hop, ht⟩))) _)
  case h_10 =>
    exact .of_graph (extends_foldl_handleTarget h
      (fun t ht => htargets.2 (.inr (.inr ⟨hop, ht⟩))) _)
  case h_13 =>
    exact .of_graph ((extends_foldl_marks _ _ _).trans (extends_foldl_handleTarget h
      (fun t ht => htargets.2 (.inr (.inl ⟨.inr hop, ht⟩))) _))

theorem continues_scanBlock {b : Nat} (hb : b < fn.blocks.length) (s : Scan) :
    s.Continues fn (scanBlock fn options s b) := by
  have hparams : Extends fn s.graph (if b = 0 then s.graph else
      (fn.block b).params.foldl (scanParam fn) s.graph) := by
    split
    · exact .refl _
    · exact .foldl (fun g p _ => extends_scanParam g p) _
  exact (Scan.Continues.of_graph hparams).trans
    (.foldl (fun s _ hinst => continues_scanInstruction ⟨b, hb, hinst⟩ s) _)

/-- The walk starts with the parameters of the function. -/
def scanStart (fn : Function) : Scan :=
  { graph := (fn.block 0).params.foldl (scanEntryParam fn) .empty }

theorem continues_scan (fn : Function) (options : EscapeAnalysisOptions) :
    (scanStart fn).Continues fn (scan fn options) :=
  .foldl (fun s _ hb => continues_scanBlock (mem_range.1 hb) s) _

theorem built_scan (fn : Function) (options : EscapeAnalysisOptions) :
    Built fn (scan fn options).graph :=
  (continues_scan fn options).graph.built
    ((Extends.foldl (fun g _ hp => extends_scanEntryParam hp g) .empty).built .empty)

theorem scan_brings {P : Scan → Prop} (hstable : ∀ s s' : Scan, s.Continues fn s' → P s → P s')
    (h : Has fn inst) (hat : ∀ s, P (scanInstruction fn options s inst)) :
    P (scan fn options) := by
  obtain ⟨b, hb, hmem⟩ := h
  have hblock : ∀ s, P (scanBlock fn options s b) := fun s =>
    (foldl_brings (G := fun _ => True) trivial (fun _ _ _ _ => trivial)
      (fun s i hi _ => hstable _ _ (continues_scanInstruction ⟨b, hb, hi⟩ s))
      (.inr ⟨inst, hmem, fun s _ => hat s⟩)).2
  exact (foldl_brings (G := fun _ => True) trivial (fun _ _ _ _ => trivial)
    (fun s c hc _ => hstable _ _ (continues_scanBlock (mem_range.1 hc) s))
    (.inr ⟨b, mem_range.2 hb, fun s _ => hblock s⟩)).2

theorem mem_allocates (hres : inst.result = some v) (s : Scan) :
    .allocation v ∈ (allocates s inst).graph.pointsTo (.reference v) ∧
      v ∈ (allocates s inst).allocations := by
  unfold allocates
  rw [hres]
  exact ⟨mem_addPointsTo _ _ _, mem_append_right _ mem_cons_self⟩

theorem scan_allocation (h : Has fn inst) (halloc : isAllocation fn inst = true)
    (hres : inst.result = some v) :
    .allocation v ∈ (scan fn options).graph.pointsTo (.reference v) ∧
      v ∈ (scan fn options).allocations := by
  refine scan_brings (P := fun s => .allocation v ∈ s.graph.pointsTo (.reference v) ∧
    v ∈ s.allocations) (fun s s' hs hp => ⟨hs.graph.grows.pointsTo _ _ hp.1,
      hs.allocations v hp.2⟩) h fun s => ?_
  unfold scanInstruction
  by_cases hop : inst.opcode = .alloca
  · rw [hop]
    exact mem_allocates hres s
  · have hcall : isAllocationCall fn inst = true := by simpa [isAllocation, hop] using halloc
    have hopc : inst.opcode = .call := by
      unfold isAllocationCall at hcall
      simpa using (Bool.and_eq_true_iff.1 hcall).1
    rw [hopc]
    dsimp only
    rw [if_pos hcall]
    exact mem_allocates hres s

theorem mem_allocations : v ∈ (scan fn options).allocations ↔ IsAllocationResult fn v := by
  constructor
  · exact fun h => ((continues_scan fn options).allocationsFrom v h).resolve_left not_mem_nil
  · rintro ⟨inst, h, halloc, hres⟩
    exact (scan_allocation h halloc hres).2

theorem state_foldl_marks {state : EscapeState} (hstate : state ≠ .noEscape) {vs : List Nat}
    (hv : v ∈ vs) (hpl : fn.isPointerLike v = true) (g : ConnectionGraph) :
    (vs.foldl (marks fn state) g).state (.reference v) ≠ .noEscape := by
  refine foldl_of_mem (P := fun g : ConnectionGraph => g.state (.reference v) ≠ .noEscape) hv
    (fun g => ?_) (fun g w hg => ?_) g
  · unfold marks
    rw [if_pos hpl]
    exact ne_noEscape_of_le (le_markEscapeState _ _ _) hstate
  · have hmarks : Extends fn g _ := extends_marks state g w
    exact ne_noEscape_of_le (hmarks.grows.state _) hg

theorem scan_published (h : Has fn inst) (hv : v ∈ published fn inst)
    (hpl : fn.isPointerLike v = true) :
    (scan fn options).graph.state (.reference v) ≠ .noEscape := by
  have hcall : callEscape options inst.symbol ≠ .noEscape := by
    unfold callEscape
    split <;> exact fun h => by cases h
  have hglobal : EscapeState.globalEscape ≠ .noEscape := fun h => by cases h
  refine scan_brings (P := fun s => s.graph.state (.reference v) ≠ .noEscape)
    (fun s s' hs hne => ne_noEscape_of_le (hs.graph.grows.state _) hne) h fun s => ?_
  unfold published at hv
  unfold scanInstruction
  split at hv <;> rename_i hop
  case h_1 =>
    rw [hop]
    dsimp only
    split at hv
    · exact (not_mem_nil hv).elim
    · rename_i halloc
      rw [if_neg halloc]
      exact state_foldl_marks hcall hv hpl _
  case h_3 =>
    rw [hop]
    exact ne_noEscape_of_le ((extends_foldl_handleTarget h (fun t ht => mem_targets.2
      (.inr (.inl ⟨.inr hop, ht⟩))) _).grows.state _) (state_foldl_marks hglobal hv hpl _)
  case h_9 => exact (not_mem_nil hv).elim
  all_goals
    rw [hop]
    exact state_foldl_marks hglobal hv hpl _

theorem deferred_passes {a b : Nat} (ha : fn.isPointerLike a = true)
    (hb : fn.isPointerLike b = true) (g : ConnectionGraph) :
    a = b ∨ .reference b ∈ (passes fn g a b).deferred (.reference a) := by
  unfold passes
  rw [if_pos (by rw [ha, hb]; rfl)]
  rcases mem_addDeferred ((g.getOrCreateRefNode a).getOrCreateRefNode b)
    (.reference a) (.reference b) with h | h
  · exact .inl (CGNode.reference.inj h)
  · exact .inr h

theorem deferred_foldl_handleTarget {ts : List BranchTarget} {t : BranchTarget} {a p : Nat}
    (h : Has fn inst) (hts : ∀ t ∈ ts, t ∈ inst.targets) (ht : t ∈ ts)
    (hp : (a, p) ∈ t.args.zip (fn.block t.block).params) (ha : fn.isPointerLike a = true)
    (hpl : fn.isPointerLike p = true) (g : ConnectionGraph) :
    a = p ∨ .reference p ∈ (ts.foldl (handleTarget fn) g).deferred (.reference a) := by
  have hkeep : ∀ {g g' : ConnectionGraph}, g.Grows g' →
      (a = p ∨ .reference p ∈ g.deferred (.reference a)) →
      a = p ∨ .reference p ∈ g'.deferred (.reference a) :=
    fun hg => Or.imp_right (hg.deferred _ _)
  refine (foldl_brings (G := fun _ => True) trivial (fun _ _ _ _ => trivial) (fun g t ht _ =>
    hkeep (extends_handleTarget h (hts t ht) g).grows) (.inr ⟨t, ht, fun g _ => ?_⟩)).2
  exact (foldl_brings (G := fun _ => True) trivial (fun _ _ _ _ => trivial) (fun g x hx _ =>
    hkeep (extends_passes (fun hxa hxp => .edge h (hts t ht) hx hxa hxp) g).grows)
    (.inr ⟨(a, p), hp, fun g _ => deferred_passes ha hpl g⟩)).2

theorem scan_copies {a b : Nat} (h : Copies fn a b) :
    a = b ∨ .reference b ∈ (scan fn options).graph.deferred (.reference a) := by
  have hstable : ∀ s s' : Scan, s.Continues fn s' →
      (a = b ∨ .reference b ∈ s.graph.deferred (.reference a)) →
      a = b ∨ .reference b ∈ s'.graph.deferred (.reference a) :=
    fun s s' hs => Or.imp_right (hs.graph.grows.deferred _ _)
  cases h with
  | @edge inst t _ _ h ht hp ha hpl =>
    refine scan_brings (P := fun s => a = b ∨ .reference b ∈ s.graph.deferred (.reference a))
      hstable h fun s => ?_
    unfold scanInstruction
    rcases mem_targets.1 ht with ⟨hop, hmem⟩ | ⟨hop | hop, hmem⟩ | ⟨hop, hmem⟩ <;> rw [hop]
    · exact deferred_foldl_handleTarget h (fun t ht => mem_targets.2 (.inl ⟨hop, ht⟩)) hmem hp ha
        hpl _
    · exact deferred_foldl_handleTarget h
        (fun t ht => mem_targets.2 (.inr (.inl ⟨.inl hop, ht⟩))) hmem hp ha hpl _
    · exact deferred_foldl_handleTarget h
        (fun t ht => mem_targets.2 (.inr (.inl ⟨.inr hop, ht⟩))) hmem hp ha hpl _
    · exact deferred_foldl_handleTarget h
        (fun t ht => mem_targets.2 (.inr (.inr ⟨hop, ht⟩))) hmem hp ha hpl _
  | @select inst _ _ h hop hres hsrc ha hv =>
    refine scan_brings (P := fun s => a = b ∨ .reference b ∈ s.graph.deferred (.reference a))
      hstable h fun s => ?_
    unfold scanInstruction
    rw [hop]
    dsimp only
    rw [hres]
    dsimp only
    rw [if_pos hv]
    dsimp only
    have hmem : a ∈ inst.operands[1]?.toList ++ inst.operands[2]?.toList := by simpa using hsrc
    have hgrow : ∀ g : ConnectionGraph, ∀ x ∈ inst.operands[1]?.toList ++
        inst.operands[2]?.toList, g.Grows (passes fn g x b) := fun g x hx =>
      (extends_passes (fun hxa hxb => .select h hop hres (by simpa using hx) hxa hxb) g).grows
    generalize s.graph.getOrCreateRefNode b = g
    exact (@foldl_brings _ _ (fun g x => passes fn g x b)
      (fun g => a = b ∨ .reference b ∈ g.deferred (.reference a)) _ (fun _ => True) _ trivial
      (fun _ _ _ _ => trivial) (fun g x hx _ => Or.imp_right ((hgrow g x hx).deferred _ _))
      (.inr ⟨a, hmem, fun g _ => deferred_passes ha hv g⟩)).2

theorem scan_store (h : Has fn inst) (hop : inst.opcode = .store) :
    storeOp inst ∈ (scan fn options).stores := by
  refine scan_brings (P := fun s => storeOp inst ∈ s.stores) (fun s s' hs => hs.stores _) h
    fun s => ?_
  unfold scanInstruction
  rw [hop]
  exact mem_append_right _ mem_cons_self

theorem scan_load (h : Has fn inst) (hop : inst.opcode = .load) (hres : inst.result = some v)
    (hpl : fn.isPointerLike v = true) :
    (⟨v, inst.operands[0]?, inst.offset⟩ : LoadOp) ∈ (scan fn options).loads := by
  refine scan_brings (P := fun s => (⟨v, inst.operands[0]?, inst.offset⟩ : LoadOp) ∈ s.loads)
    (fun s s' hs => hs.loads _) h fun s => ?_
  unfold scanInstruction
  rw [hop]
  dsimp only
  rw [hres]
  dsimp only
  rw [if_pos hpl]
  exact mem_append_right _ mem_cons_self

theorem scan_param {p : Nat} (hmem : p ∈ (fn.block 0).params) (hp : fn.isPointerLike p = true) :
    .phantom p ∈ (scan fn options).graph.pointsTo (.reference p) ∧
      (scan fn options).graph.state (.object (.phantom p)) ≠ .noEscape := by
  have hstart : .phantom p ∈ (scanStart fn).graph.pointsTo (.reference p) ∧
      (scanStart fn).graph.state (.object (.phantom p)) ≠ .noEscape := by
    refine (foldl_brings (G := fun _ => True) (P := fun g : ConnectionGraph =>
      .phantom p ∈ g.pointsTo (.reference p) ∧ g.state (.object (.phantom p)) ≠ .noEscape) trivial
      (fun _ _ _ _ => trivial) (fun g q hq _ hg => ?_) (.inr ⟨p, hmem, fun g _ => ?_⟩)).2
    · have hgrow := (extends_scanEntryParam hq g).grows
      exact ⟨hgrow.pointsTo _ _ hg.1, ne_noEscape_of_le (hgrow.state _) hg.2⟩
    · unfold scanEntryParam
      rw [if_pos hp]
      have hmark := grows_markEscapeState
        (((g.createObjectNode (.phantom p) .argEscape).getOrCreateRefNode p).addPointsTo
          (.reference p) (.phantom p)) (.reference p) .argEscape
      refine ⟨hmark.pointsTo _ _ (mem_addPointsTo _ _ _), ?_⟩
      refine ne_noEscape_of_le (s := .argEscape) (le_trans ?_ (((grows_create _
        _).trans ((grows_addPointsTo _ _ _).trans hmark)).state _)) fun h => by
          cases h
      exact le_markEscapeState _ _ _
  have hscan := (continues_scan fn options).graph.grows
  exact ⟨hscan.pointsTo _ _ hstart.1, ne_noEscape_of_le (hscan.state _) hstart.2⟩

end Brass.Mir.Escape
