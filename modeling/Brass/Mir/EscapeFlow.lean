import Brass.Mir.EscapeAnalysis
import Brass.Util.Accumulate

/-!
# Where pointers may flow

`Flows` is the least relation that the instructions of a function force: an allocation's result
points to its object, a pointer parameter to the caller's, and what a reference points to goes
along block arguments and selects, into the fields that stores write and out of those that loads
read. A graph that is `Built` holds nothing else.
-/

namespace Brass.Mir.Escape

open Brass.Util ConnectionGraph

def Instruction.targets (inst : Instruction) : List BranchTarget :=
  match inst.opcode with
  | .br => inst.branchTarget.toList
  | .brIf | .invoke => inst.trueTarget.toList ++ inst.falseTarget.toList
  | .switch => inst.branchTarget.toList ++ inst.switchCases.map (·.2)
  | _ => []

def isAllocation (fn : Function) (inst : Instruction) : Bool :=
  inst.opcode = .alloca || isAllocationCall fn inst

section Flow

variable (fn : Function)

def Has (inst : Instruction) : Prop := ∃ b < fn.blocks.length, inst ∈ (fn.block b).insts

def IsAllocationResult (v : Nat) : Prop :=
  ∃ inst, Has fn inst ∧ isAllocation fn inst = true ∧ inst.result = some v

inductive Copies : Nat → Nat → Prop
  | edge {inst : Instruction} {t : BranchTarget} {a p : Nat} (h : Has fn inst)
      (ht : t ∈ inst.targets) (hp : (a, p) ∈ t.args.zip (fn.block t.block).params)
      (ha : fn.isPointerLike a = true) (hparam : fn.isPointerLike p = true) : Copies a p
  | select {inst : Instruction} {a v : Nat} (h : Has fn inst) (hop : inst.opcode = .select)
      (hres : inst.result = some v)
      (hsrc : inst.operands[1]? = some a ∨ inst.operands[2]? = some a)
      (ha : fn.isPointerLike a = true) (hv : fn.isPointerLike v = true) : Copies a v

inductive Flows : CGNode → ObjectNode → Prop
  | allocation {inst : Instruction} {v : Nat} (h : Has fn inst)
      (halloc : isAllocation fn inst = true) (hres : inst.result = some v) :
      Flows (.reference v) (.allocation v)
  | param {p : Nat} (h : p ∈ (fn.block 0).params) (hp : fn.isPointerLike p = true) :
      Flows (.reference p) (.phantom p)
  | copy {a b : Nat} {o : ObjectNode} (h : Copies fn a b) (ho : Flows (.reference a) o) :
      Flows (.reference b) o
  | store {inst : Instruction} {base val : Nat} {o target : ObjectNode} (h : Has fn inst)
      (hop : inst.opcode = .store) (hbase : inst.operands[0]? = some base)
      (hval : inst.operands[1]? = some val) (hp : fn.isPointerLike val = true)
      (ho : Flows (.reference base) o) (ht : Flows (.reference val) target) :
      Flows (.field o inst.offset) target
  | load {inst : Instruction} {base res : Nat} {o target : ObjectNode} (h : Has fn inst)
      (hop : inst.opcode = .load) (hbase : inst.operands[0]? = some base)
      (hres : inst.result = some res) (hp : fn.isPointerLike res = true)
      (ho : Flows (.reference base) o) (ht : Flows (.field o inst.offset) target) :
      Flows (.reference res) target

end Flow

variable {fn : Function} {options : EscapeAnalysisOptions} {g g' : ConnectionGraph}
  {inst : Instruction} {s s' : Scan} {n u v : CGNode} {o : ObjectNode}

theorem Flows.param_mem {p : Nat} (h : Flows fn n (.phantom p)) :
    p ∈ (fn.block 0).params ∧ fn.isPointerLike p = true := by
  generalize ho : ObjectNode.phantom p = o at h
  induction h with
  | allocation => cases ho
  | param hmem hp =>
    cases ho
    exact ⟨hmem, hp⟩
  | copy _ _ ih => exact ih ho
  | store _ _ _ _ _ _ _ _ ih => exact ih ho
  | load _ _ _ _ _ _ _ _ ih => exact ih ho

/-! ## Graphs that are built by the analysis -/

/-- A node with data is there, and what the graph holds is forced by the function. -/
structure Built (fn : Function) (g : ConnectionGraph) : Prop where
  state : ∀ n, g.state n ≠ .noEscape → n ∈ g.nodes
  pointsTo : ∀ n, ∀ o ∈ g.pointsTo n, n ∈ g.nodes ∧ .object o ∈ g.nodes ∧ Flows fn n o
  deferred : ∀ u, ∀ v ∈ g.deferred u, u ∈ g.nodes ∧ v ∈ g.nodes ∧
    ∃ a b, u = .reference a ∧ v = .reference b ∧ Copies fn a b
  parent : ∀ o offset, .field o offset ∈ g.nodes → .object o ∈ g.nodes

theorem Built.empty : Built fn .empty where
  state _ h := (h rfl).elim
  pointsTo _ _ h := (List.not_mem_nil h).elim
  deferred _ _ h := (List.not_mem_nil h).elim
  parent _ _ h := (List.not_mem_nil h).elim

theorem Built.create (h : Built fn g) (hparent : ∀ o offset, n = .field o offset →
    .object o ∈ g.nodes) : Built fn (g.create n) := by
  have hin : ∀ m ∈ g.nodes, m ∈ (g.create n).nodes := (g.grows_create n).nodes
  refine ⟨fun m hm => hin m (h.state m ?_), fun m o ho => ?_, fun a b hb => ?_,
    fun o offset hf => ?_⟩
  · unfold ConnectionGraph.create at hm
    split at hm <;> exact hm
  · have ho' : o ∈ g.pointsTo m := by
      unfold ConnectionGraph.create at ho
      split at ho <;> exact ho
    obtain ⟨hm, hobj, hflow⟩ := h.pointsTo m o ho'
    exact ⟨hin m hm, hin _ hobj, hflow⟩
  · have hb' : b ∈ g.deferred a := by
      unfold ConnectionGraph.create at hb
      split at hb <;> exact hb
    obtain ⟨ha, hbn, hcopy⟩ := h.deferred a b hb'
    exact ⟨hin a ha, hin b hbn, hcopy⟩
  · unfold ConnectionGraph.create at hf
    split at hf
    · exact hin _ (h.parent o offset hf)
    · rcases List.mem_append.1 hf with hf | hf
      · exact hin _ (h.parent o offset hf)
      · exact hin _ (hparent o offset (List.mem_singleton.1 hf).symm)

theorem Built.addPointsTo (h : Built fn g) (hn : n ∈ g.nodes) (ho : .object o ∈ g.nodes)
    (hflow : Flows fn n o) : Built fn (g.addPointsTo n o) := by
  have hsame : (g.addPointsTo n o).nodes = g.nodes ∧ (g.addPointsTo n o).state = g.state ∧
      (g.addPointsTo n o).deferred = g.deferred := by
    unfold ConnectionGraph.addPointsTo
    split <;> exact ⟨rfl, rfl, rfl⟩
  obtain ⟨hnodes, hstate, hdef⟩ := hsame
  refine ⟨hstate ▸ hnodes ▸ h.state, fun m o' ho' => ?_, hdef ▸ hnodes ▸ h.deferred,
    hnodes ▸ h.parent⟩
  rw [hnodes]
  rcases mem_pointsTo_addPointsTo ho' with ho' | ⟨rfl, rfl⟩
  · exact h.pointsTo m o' ho'
  · exact ⟨hn, ho, hflow⟩

theorem Built.addDeferred {a b : Nat} (h : Built fn g) (ha : .reference a ∈ g.nodes)
    (hb : .reference b ∈ g.nodes) (hcopy : Copies fn a b) :
    Built fn (g.addDeferred (.reference a) (.reference b)) := by
  have hsame : (g.addDeferred (.reference a) (.reference b)).nodes = g.nodes ∧
      (g.addDeferred (.reference a) (.reference b)).state = g.state ∧
      (g.addDeferred (.reference a) (.reference b)).pointsTo = g.pointsTo := by
    unfold ConnectionGraph.addDeferred
    split <;> exact ⟨rfl, rfl, rfl⟩
  obtain ⟨hnodes, hstate, hpts⟩ := hsame
  refine ⟨hstate ▸ hnodes ▸ h.state, hpts ▸ hnodes ▸ h.pointsTo, fun c d hd => ?_,
    hnodes ▸ h.parent⟩
  rw [hnodes]
  rcases mem_deferred_addDeferred hd with hd | ⟨rfl, rfl⟩
  · exact h.deferred c d hd
  · exact ⟨ha, hb, a, b, rfl, rfl, hcopy⟩

theorem Built.markEscapeState {state : EscapeState} (h : Built fn g) (hn : n ∈ g.nodes) :
    Built fn (g.markEscapeState n state) := by
  unfold ConnectionGraph.markEscapeState
  split
  · refine ⟨fun m hm => ?_, h.pointsTo, h.deferred, h.parent⟩
    by_cases hmn : m = n
    · exact hmn ▸ hn
    · refine h.state m ?_
      dsimp only at hm
      rwa [Function.update_of_ne hmn] at hm
  · exact h

/-- A step of the analysis: the graph grows and stays built. -/
structure Extends (fn : Function) (g g' : ConnectionGraph) : Prop where
  grows : g.Grows g'
  built : Built fn g → Built fn g'

theorem Extends.refl (g : ConnectionGraph) : Extends fn g g := ⟨.refl g, id⟩

theorem Extends.trans {g'' : ConnectionGraph} (h : Extends fn g g') (h' : Extends fn g' g'') :
    Extends fn g g'' := ⟨h.grows.trans h'.grows, h'.built ∘ h.built⟩

theorem Extends.foldl {α : Type} {step : ConnectionGraph → α → ConnectionGraph} {l : List α}
    (h : ∀ g, ∀ a ∈ l, Extends fn g (step g a)) (g : ConnectionGraph) :
    Extends fn g (l.foldl step g) := by
  induction l generalizing g with
  | nil => exact .refl g
  | cons a l ih =>
    exact (h g a List.mem_cons_self).trans
      (ih (fun g b hb => h g b (List.mem_cons_of_mem _ hb)) (step g a))

theorem extends_create (hn : ∀ o offset, n ≠ .field o offset) : Extends fn g (g.create n) :=
  ⟨g.grows_create n, fun h => h.create fun o offset he => (hn o offset he).elim⟩

theorem extends_getOrCreateRefNode (g : ConnectionGraph) (v : Nat) :
    Extends fn g (g.getOrCreateRefNode v) :=
  extends_create fun _ _ h => by cases h

theorem extends_createObjectNode (g : ConnectionGraph) (o : ObjectNode) (state : EscapeState) :
    Extends fn g (g.createObjectNode o state) :=
  (extends_create fun _ _ h => by cases h).trans ⟨grows_markEscapeState _ _ _,
      fun h => h.markEscapeState (mem_create g _)⟩

theorem extends_passes {a p : Nat} (hcopy : fn.isPointerLike a = true →
    fn.isPointerLike p = true → Copies fn a p) (g : ConnectionGraph) :
    Extends fn g (passes fn g a p) := by
  unfold passes
  split
  · rename_i hpl
    obtain ⟨ha, hp⟩ := Bool.and_eq_true_iff.1 hpl
    have h2 : Extends fn _ _ := extends_getOrCreateRefNode (g.getOrCreateRefNode a) p
    refine ((extends_getOrCreateRefNode g a).trans h2).trans
      ⟨grows_addDeferred _ _ _, fun h => h.addDeferred
        (h2.grows.nodes _ (mem_create _ _)) (mem_create _ _)
        (hcopy ha hp)⟩
  · exact .refl g

theorem extends_handleTarget {t : BranchTarget} (h : Has fn inst) (ht : t ∈ inst.targets)
    (g : ConnectionGraph) : Extends fn g (handleTarget fn g t) :=
  .foldl (fun g _ ha => extends_passes (fun hpl hpp => .edge h ht ha hpl hpp) g) g

theorem extends_marks (state : EscapeState) (g : ConnectionGraph) (v : Nat) :
    Extends fn g (marks fn state g v) := by
  unfold marks
  split
  · exact (extends_getOrCreateRefNode g v).trans ⟨grows_markEscapeState _ _ _,
        fun h => h.markEscapeState (mem_create g _)⟩
  · exact .refl g

theorem extends_allocates (h : Has fn inst) (halloc : isAllocation fn inst = true) (s : Scan) :
    Extends fn s.graph (allocates s inst).graph := by
  unfold allocates
  split
  · exact .refl _
  · rename_i res hres
    have h1 : Extends fn _ _ := extends_createObjectNode s.graph (.allocation res) .noEscape
    have h2 : Extends fn _ _ := extends_getOrCreateRefNode
      (s.graph.createObjectNode (.allocation res) .noEscape) res
    refine (h1.trans h2).trans ⟨grows_addPointsTo _ _ _, fun hb =>
      hb.addPointsTo (mem_create _ _) (h2.grows.nodes _ ?_) (.allocation h halloc hres)⟩
    exact (grows_markEscapeState _ _ _).nodes _ (mem_create _ _)

theorem extends_scanEntryParam {p : Nat} (hmem : p ∈ (fn.block 0).params) (g : ConnectionGraph) :
    Extends fn g (scanEntryParam fn g p) := by
  unfold scanEntryParam
  split
  · rename_i hp
    have h1 : Extends fn _ _ := extends_createObjectNode g (.phantom p) .argEscape
    have h2 : Extends fn _ _ := extends_getOrCreateRefNode
      (g.createObjectNode (.phantom p) .argEscape) p
    have hobj := h2.grows.nodes _ ((grows_markEscapeState _ _ .argEscape).nodes _
      (mem_create g (.object (.phantom p))))
    have hadd := grows_addPointsTo
      ((g.createObjectNode (.phantom p) .argEscape).getOrCreateRefNode p) (.reference p)
      (.phantom p)
    refine (h1.trans h2).trans ⟨hadd.trans (grows_markEscapeState _ _ _),
      fun hb => (hb.addPointsTo (mem_create _ _) hobj
        (.param hmem hp)).markEscapeState (hadd.nodes _ (mem_create _ _))⟩
  · exact .refl g

theorem extends_scanParam (g : ConnectionGraph) (p : Nat) : Extends fn g (scanParam fn g p) := by
  unfold scanParam
  split
  · exact extends_getOrCreateRefNode g p
  · exact .refl g

end Brass.Mir.Escape
