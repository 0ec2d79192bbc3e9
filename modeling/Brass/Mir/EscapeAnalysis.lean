import Brass.Mir.EscapeGraph

/-!
# The escape analysis

`EscapeAnalysis::run` of `mir/escape_analysis.cpp`: the connection graph of a function, built from
its instructions and then completed with what stores put into fields and loads take out of them,
and the allocations that do not escape. Values are numbers. An opcode that the analysis does not
name is `other`; a guard is one of them, but its state map is read by the code that runs it.
-/

namespace Brass.Mir.Escape

open Brass.Util

inductive TypeKind
  | i8 | i16 | i32 | i64 | f32 | f64 | ptr | gcref | void
  | f32x4 | f64x2 | i32x4 | i64x2 | f32x8 | f64x4 | i32x8 | i64x4 | tagged
  deriving DecidableEq, Repr

def TypeKind.sizeInBytes : TypeKind → Nat
  | .i8 => 1
  | .i16 => 2
  | .i32 | .f32 => 4
  | .i64 | .f64 | .ptr | .gcref | .tagged => 8
  | .void => 0
  | .f32x4 | .f64x2 | .i32x4 | .i64x2 => 16
  | .f32x8 | .f64x4 | .i32x8 | .i64x4 => 32

def TypeKind.isPointerOrGcref : TypeKind → Bool
  | .ptr | .gcref => true
  | _ => false

theorem TypeKind.sizeInBytes_of_pointer {t : TypeKind} (h : t.isPointerOrGcref = true) :
    t.sizeInBytes = 8 := by
  cases t <;> first | rfl | cases h

inductive Opcode
  | alloca
  | load
  | store
  | loadIndexed
  | storeIndexed
  | call
  | callIndirect
  | select
  | br
  | brIf
  | switch
  | ret
  | invoke
  | guard
  | other
  deriving DecidableEq, Repr

structure BranchTarget where
  block : Nat
  args : List Nat := []
  deriving DecidableEq, Repr

/-- `trueTarget` and `falseTarget` are also the normal and the unwind target of an invoke, and
`branchTarget` is the default target of a switch. -/
structure Instruction where
  opcode : Opcode
  result : Option Nat := none
  operands : List Nat := []
  offset : Int := 0
  symbol : String := ""
  resumeId : Nat := 0
  branchTarget : Option BranchTarget := none
  trueTarget : Option BranchTarget := none
  falseTarget : Option BranchTarget := none
  switchCases : List (Int × BranchTarget) := []
  stateMap : List Nat := []
  deriving DecidableEq, Repr

structure BasicBlock where
  params : List Nat := []
  insts : List Instruction := []

/-- A function with what its module declares about its callees. Block 0 is the entry. -/
structure Function where
  blocks : List BasicBlock
  ty : Nat → TypeKind
  isAllocationFunction : String → Bool := fun _ => false
  resumeTarget : Nat → Option Nat := fun _ => none

namespace Function

def block (fn : Function) (b : Nat) : BasicBlock := fn.blocks.getD b {}

def isPointerLike (fn : Function) (v : Nat) : Bool := (fn.ty v).isPointerOrGcref

end Function

def isAllocationCallee (symbol : String) : Bool :=
  symbol = "brass_gc_alloc" || symbol = "malloc" || symbol = "calloc"

def isAllocationCall (fn : Function) (inst : Instruction) : Bool :=
  inst.opcode = .call && (isAllocationCallee inst.symbol || fn.isAllocationFunction inst.symbol)

structure EscapeAnalysisOptions where
  treatUnhandledCallsAsGlobal : Bool := true
  argEscapeCallees : List String := []

structure StoreOp where
  base : Option Nat
  offset : Int
  val : Option Nat
  deriving DecidableEq

structure LoadOp where
  result : Nat
  base : Option Nat
  offset : Int
  deriving DecidableEq

/-- What the walk over the instructions has collected. -/
structure Scan where
  graph : ConnectionGraph := .empty
  stores : List StoreOp := []
  loads : List LoadOp := []
  allocations : List Nat := []

section Walk

variable (fn : Function)

def passes (g : ConnectionGraph) (arg param : Nat) : ConnectionGraph :=
  if fn.isPointerLike arg && fn.isPointerLike param then
    ((g.getOrCreateRefNode arg).getOrCreateRefNode param).addDeferred (.reference arg)
      (.reference param)
  else g

def handleTarget (g : ConnectionGraph) (target : BranchTarget) : ConnectionGraph :=
  (target.args.zip (fn.block target.block).params).foldl (fun g a => passes fn g a.1 a.2) g

def marks (state : EscapeState) (g : ConnectionGraph) (v : Nat) : ConnectionGraph :=
  if fn.isPointerLike v then (g.getOrCreateRefNode v).markEscapeState (.reference v) state else g

def allocates (s : Scan) (inst : Instruction) : Scan :=
  match inst.result with
  | none => s
  | some res =>
    let g := (s.graph.createObjectNode (.allocation res) .noEscape).getOrCreateRefNode res
    { s with
      graph := g.addPointsTo (.reference res) (.allocation res)
      allocations := s.allocations ++ [res] }

def callEscape (options : EscapeAnalysisOptions) (callee : String) : EscapeState :=
  if callee ∈ options.argEscapeCallees ∨ options.treatUnhandledCallsAsGlobal = false then .argEscape
  else .globalEscape

def scanInstruction (options : EscapeAnalysisOptions) (s : Scan) (inst : Instruction) : Scan :=
  match inst.opcode with
  | .alloca => allocates s inst
  | .call =>
    if isAllocationCall fn inst then allocates s inst
    else
      { s with graph := inst.operands.foldl (marks fn (callEscape options inst.symbol)) s.graph }
  | .callIndirect => { s with graph := inst.operands.foldl (marks fn .globalEscape) s.graph }
  | .ret => { s with graph := inst.operands.head?.toList.foldl (marks fn .globalEscape) s.graph }
  | .store =>
    { s with stores := s.stores ++ [⟨inst.operands[0]?, inst.offset, inst.operands[1]?⟩] }
  | .load =>
    match inst.result with
    | some res =>
      if fn.isPointerLike res then
        { s with loads := s.loads ++ [⟨res, inst.operands[0]?, inst.offset⟩] }
      else s
    | none => s
  | .select =>
    match inst.result with
    | some res =>
      if fn.isPointerLike res then
        { s with
          graph := (inst.operands[1]?.toList ++ inst.operands[2]?.toList).foldl
            (fun g v => passes fn g v res) (s.graph.getOrCreateRefNode res) }
      else s
    | none => s
  | .br => { s with graph := inst.branchTarget.toList.foldl (handleTarget fn) s.graph }
  | .brIf =>
    { s with
      graph := (inst.trueTarget.toList ++ inst.falseTarget.toList).foldl (handleTarget fn) s.graph }
  | .switch =>
    { s with
      graph := (inst.branchTarget.toList ++ inst.switchCases.map (·.2)).foldl (handleTarget fn)
        s.graph }
  | .loadIndexed =>
    { s with graph := inst.operands[0]?.toList.foldl (marks fn .globalEscape) s.graph }
  | .storeIndexed =>
    { s with
      graph := (inst.operands[0]?.toList ++ inst.operands[2]?.toList).foldl
        (marks fn .globalEscape) s.graph }
  | .invoke =>
    { s with
      graph := (inst.trueTarget.toList ++ inst.falseTarget.toList).foldl (handleTarget fn)
        (inst.operands.foldl (marks fn .globalEscape) s.graph) }
  | .guard | .other => { s with graph := inst.operands.foldl (marks fn .globalEscape) s.graph }

/-- A pointer parameter of the function points to an object of its caller. -/
def scanEntryParam (g : ConnectionGraph) (param : Nat) : ConnectionGraph :=
  if fn.isPointerLike param then
    let g := (g.createObjectNode (.phantom param) .argEscape).getOrCreateRefNode param
    (g.addPointsTo (.reference param) (.phantom param)).markEscapeState (.reference param)
      .argEscape
  else g

def scanParam (g : ConnectionGraph) (param : Nat) : ConnectionGraph :=
  if fn.isPointerLike param then g.getOrCreateRefNode param else g

def scanBlock (options : EscapeAnalysisOptions) (s : Scan) (b : Nat) : Scan :=
  let g := if b = 0 then s.graph else (fn.block b).params.foldl (scanParam fn) s.graph
  (fn.block b).insts.foldl (scanInstruction fn options) { s with graph := g }

def scan (options : EscapeAnalysisOptions) : Scan :=
  (List.range fn.blocks.length).foldl (scanBlock fn options)
    { graph := (fn.block 0).params.foldl (scanEntryParam fn) .empty }

end Walk

section Connect

variable (fn : Function)

def addTarget (field : CGNode) (acc : ConnectionGraph × Bool) (target : ObjectNode) :
    ConnectionGraph × Bool :=
  if target ∈ acc.1.pointsTo field then acc else (acc.1.addPointsTo field target, true)

def findRefNode (g : ConnectionGraph) (v : Option Nat) : Option Nat :=
  v.filter fun v => .reference v ∈ g.nodes

/-- A store of a value into one object that its base may point to. -/
def connectStoreTo (offset : Int) (val : Option Nat) (acc : ConnectionGraph × Bool)
    (o : ObjectNode) : ConnectionGraph × Bool :=
  let g := acc.1.getOrCreateFieldNode o offset
  match val with
  | none => (g, acc.2)
  | some v =>
    let acc := (g.pointsTo (.reference v)).foldl (addTarget (.field o offset)) (g, acc.2)
    if .noEscape < acc.1.state (.object o) then
      (acc.1.markEscapeState (.reference v) (acc.1.state (.object o)), acc.2)
    else acc

def connectStore (acc : ConnectionGraph × Bool) (st : StoreOp) : ConnectionGraph × Bool :=
  let baseRef := findRefNode acc.1 st.base
  let valRef := findRefNode acc.1 (st.val.filter fn.isPointerLike)
  let objects := baseRef.elim [] fun v => acc.1.pointsTo (.reference v)
  if objects = [] then
    match valRef with
    | some v => (acc.1.markEscapeState (.reference v) .globalEscape, acc.2)
    | none => acc
  else objects.foldl (connectStoreTo st.offset valRef) acc

def connectLoadFrom (offset : Int) (res : Nat) (acc : ConnectionGraph × Bool) (o : ObjectNode) :
    ConnectionGraph × Bool :=
  let g := acc.1.getOrCreateFieldNode o offset
  let acc := (g.pointsTo (.field o offset)).foldl (addTarget (.reference res)) (g, acc.2)
  if .noEscape < acc.1.state (.field o offset) then
    (acc.1.markEscapeState (.reference res) (acc.1.state (.field o offset)), acc.2)
  else acc

def connectLoad (acc : ConnectionGraph × Bool) (ld : LoadOp) : ConnectionGraph × Bool :=
  let baseRef := findRefNode acc.1 ld.base
  let g := acc.1.getOrCreateRefNode ld.result
  match baseRef with
  | none => (g, acc.2)
  | some v => (g.pointsTo (.reference v)).foldl (connectLoadFrom ld.offset ld.result) (g, acc.2)

def connectRound (fuel : Nat) (stores : List StoreOp) (loads : List LoadOp)
    (g : ConnectionGraph) : Option (ConnectionGraph × Bool) :=
  (g.propagate fuel).map fun g =>
    loads.foldl connectLoad (stores.foldl (connectStore fn) (g, false))

def run (options : EscapeAnalysisOptions) (fuel : Nat) : Option ConnectionGraph :=
  let s := scan fn options
  (untilStable (connectRound fn fuel s.stores s.loads) fuel s.graph).bind
    (ConnectionGraph.propagate fuel)

def nonEscapingAllocations (options : EscapeAnalysisOptions) (g : ConnectionGraph) : List Nat :=
  (scan fn options).allocations.filter fun v => g.getEscapeState v = .noEscape

end Connect

end Brass.Mir.Escape
