import Brass.Codegen.Lir

/-!
# The scheduling graph of a basic block

Nodes are the positions of the block's instructions. The edge lists of a node are the edges
out of it and into it in the order they were added; the graph keeps one list of all edges in
that order, which gives both. An edge that is there already is strengthened in place.

`buildRegisterDependencies`, `buildMemoryDependencies` and `buildBarrierDependencies` add the
edges of the three rules in the order the scheduler adds them.
-/

namespace Brass.Codegen

inductive EdgeKind
  | raw
  | war
  | waw
  | memRaw
  | memWar
  | memWaw
  | barrier
  deriving DecidableEq, Repr

structure SchedEdge where
  src : Nat
  dst : Nat
  kind : EdgeKind
  latency : Nat
  deriving DecidableEq, Repr

/-! ## Memory references -/

structure MemoryRef where
  isSpillSlot : Bool := false
  spillSlotIdx : Int32 := -1
  isRbpSpill : Bool := false
  rbpOffset : Int32 := 0
  isHeapOrOther : Bool := false
  hasBase : Bool := false
  baseVreg : VReg := {}
  basePreg : PReg := {}
  disp : Int32 := 0
  hasIndex : Bool := false
  size : UInt8 := 8

/-- The reference of one operand (`check_op`). The base register is compared with the x64
frame pointer on every target. -/
def memoryRef (op : LirOperand) : Option MemoryRef :=
  match op.kind with
  | .spillSlot slot => some { isSpillSlot := true, spillSlotIdx := slot, size := op.size }
  | .mem m =>
    if m.basePreg = PReg.rbp then
      some { size := op.size, disp := m.disp, hasIndex := m.hasIndex, isRbpSpill := true,
             rbpOffset := m.disp }
    else
      some { size := op.size, disp := m.disp, hasIndex := m.hasIndex, isHeapOrOther := true,
             hasBase := m.hasBase, baseVreg := m.baseVreg, basePreg := m.basePreg }
  | _ => none

section Dag

variable {α : Type}

def getMemoryRefs (inst : LirInst α) : List MemoryRef :=
  inst.defs.filterMap memoryRef ++ inst.uses.filterMap memoryRef

/-- The end `start + size` of a displacement range, in 32 bits. -/
def rangeEnd (start : Int32) (size : UInt8) : Int32 := start + size.toUInt32.toInt32

/-- One range of displacements ends before the other starts. -/
def rangesApart (startA : Int32) (sizeA : UInt8) (startB : Int32) (sizeB : UInt8) : Bool :=
  decide (rangeEnd startA sizeA ≤ startB) || decide (rangeEnd startB sizeB ≤ startA)

def sameBase (a b : MemoryRef) : Bool :=
  a.hasBase && b.hasBase &&
    ((a.baseVreg.isValid && a.baseVreg == b.baseVreg) ||
      (a.basePreg.isValid && a.basePreg == b.basePreg))

/-- The four cases for one pair of references, and the fallback. -/
def refsMayAlias (a b : MemoryRef) : Bool :=
  if a.isSpillSlot && b.isSpillSlot then a.spillSlotIdx == b.spillSlotIdx
  else if (a.isSpillSlot || a.isRbpSpill) && b.isHeapOrOther then false
  else if (b.isSpillSlot || b.isRbpSpill) && a.isHeapOrOther then false
  else if a.isRbpSpill && b.isRbpSpill then !rangesApart a.rbpOffset a.size b.rbpOffset b.size
  else if a.isHeapOrOther && b.isHeapOrOther && sameBase a b && !a.hasIndex && !b.hasIndex then
    !rangesApart a.disp a.size b.disp b.size
  else true

def mayMemoryAlias (refsA refsB : List MemoryRef) : Bool :=
  refsA.any fun a => refsB.any fun b => refsMayAlias a b

/-! ## Nodes and edges -/

/-- A block's graph while it is built. -/
structure SchedDag (α : Type) where
  insts : List (LirInst α)
  arch : Arch
  edges : List SchedEdge := []

namespace SchedDag

def size (d : SchedDag α) : Nat := d.insts.length

/-- Whether the instruction at a node passes a test. -/
def node (d : SchedDag α) (test : LirInst α → Bool) (i : Nat) : Bool :=
  (d.insts[i]?).any test

def latency (d : SchedDag α) (i : Nat) : Nat := ((d.insts[i]?).map getInstructionLatency).getD 0

def isLoad (d : SchedDag α) : Nat → Bool := d.node instructionReadsMemory

def isStore (d : SchedDag α) : Nat → Bool := d.node instructionWritesMemory

def isBarrier (d : SchedDag α) : Nat → Bool := d.node isSchedulingBarrier

def isTerminator (d : SchedDag α) : Nat → Bool := d.node LirInst.isTerminator

def memoryRefs (d : SchedDag α) (i : Nat) : List MemoryRef :=
  ((d.insts[i]?).map getMemoryRefs).getD []

def succs (d : SchedDag α) (i : Nat) : List SchedEdge := d.edges.filter (·.src == i)

def preds (d : SchedDag α) (i : Nat) : List SchedEdge := d.edges.filter (·.dst == i)

/-- An existing edge keeps the larger latency and becomes `raw` when the new one is. -/
def strengthen (kind : EdgeKind) (latency : Nat) (e : SchedEdge) : SchedEdge :=
  { e with latency := max e.latency latency, kind := if kind = .raw then .raw else e.kind }

def addEdge (d : SchedDag α) (src dst : Nat) (kind : EdgeKind) (latency : Nat) : SchedDag α :=
  if d.size ≤ src ∨ d.size ≤ dst ∨ src = dst then d
  else if d.edges.any (fun e => e.src == src && e.dst == dst) then
    { d with edges := d.edges.map fun e =>
        if e.src = src ∧ e.dst = dst then strengthen kind latency e else e }
  else { d with edges := d.edges ++ [⟨src, dst, kind, latency⟩] }

end SchedDag

/-! ## Register and flag dependencies -/

/-- What a definition or use is tracked under: the virtual registers by identifier, the
physical ones by table index, and the condition flags. -/
inductive RegKey
  | vreg (id : UInt32)
  | preg (key : Nat)
  | flags
  deriving DecidableEq

def LirMem.vregs (m : LirMem) : List UInt32 :=
  (if m.baseVreg.isValid then [m.baseVreg.id] else []) ++
    if m.indexVreg.isValid then [m.indexVreg.id] else []

def LirMem.pregs (m : LirMem) : List Nat :=
  (if m.basePreg.isValid then [m.basePreg.key] else []) ++
    if m.indexPreg.isValid then [m.indexPreg.key] else []

namespace LirOperand

def addressVregs (op : LirOperand) : List UInt32 :=
  match op.kind with
  | .mem m => m.vregs
  | _ => []

def addressPregs (op : LirOperand) : List Nat :=
  match op.kind with
  | .mem m => m.pregs
  | _ => []

def directVregs (op : LirOperand) : List UInt32 :=
  match op.kind with
  | .vreg v => if v.isValid then [v.id] else []
  | _ => []

def directPregs (op : LirOperand) : List Nat :=
  match op.kind with
  | .preg p => if p.isValid then [p.key] else []
  | _ => []

end LirOperand

def FixedConstraint.keys (c : FixedConstraint) : List Nat :=
  if c.hasFixedPreg && c.fixedPreg.isValid then [c.fixedPreg.key] else []

def usesVregs (inst : LirInst α) : List UInt32 :=
  inst.uses.flatMap (fun u => u.directVregs ++ u.addressVregs) ++
    inst.defs.flatMap LirOperand.addressVregs

def usesPregs (inst : LirInst α) : List Nat :=
  inst.uses.flatMap (fun u => u.directPregs ++ u.addressPregs) ++
    inst.defs.flatMap LirOperand.addressPregs ++ inst.useConstraints.flatMap FixedConstraint.keys

def defsVregs (inst : LirInst α) : List UInt32 := inst.defs.flatMap LirOperand.directVregs

/-- The registers of the two clobber masks, in bit order. -/
def clobbers (inst : LirInst α) : List Nat :=
  (List.range 32).flatMap fun c =>
    (if inst.clobberedGprs.toNat.testBit c then [c] else []) ++
      if inst.clobberedXmms.toNat.testBit c then [256 + c] else []

def defsPregs (inst : LirInst α) : List Nat :=
  inst.defs.flatMap LirOperand.directPregs ++ inst.defConstraints.flatMap FixedConstraint.keys ++
    clobbers inst

/-- One use or definition of a tracked key, at a node. -/
structure RegEvent where
  node : Nat
  key : RegKey
  isDef : Bool

def usesKeys (inst : LirInst α) : List RegKey :=
  (usesVregs inst).map .vreg ++ (usesPregs inst).map .preg

def defsKeys (inst : LirInst α) : List RegKey :=
  (defsVregs inst).map .vreg ++ (defsPregs inst).map .preg

def regEvents (inst : LirInst α) (j : Nat) : List RegEvent :=
  (usesKeys inst).map (⟨j, ·, false⟩) ++ (defsKeys inst).map (⟨j, ·, true⟩)

def flagEvents (arch : Arch) (inst : LirInst α) (j : Nat) : List RegEvent :=
  (if lirReadsFlags inst then [⟨j, .flags, false⟩] else []) ++
    if lirWritesFlags inst arch then [⟨j, .flags, true⟩] else []

/-- The last definition of each key and its uses since. -/
structure RegTrack where
  lastDef : RegKey → Option Nat := fun _ => none
  lastUses : RegKey → List Nat := fun _ => []

/-- The uses of a physical register are threaded newest first, the others appended. -/
def pushUse (key : RegKey) (j : Nat) (uses : List Nat) : List Nat :=
  match key with
  | .preg _ => j :: uses
  | _ => uses ++ [j]

/-- The latency of a read after a definition: one cycle for the flags, the definition's own
for a register. -/
def rawLatency (d : SchedDag α) (key : RegKey) (node : Nat) : Nat :=
  match key with
  | .flags => 1
  | _ => d.latency node

def addFrom (d : SchedDag α) (src : Option Nat) (dst : Nat) (kind : EdgeKind)
    (latency : Nat → Nat) : SchedDag α :=
  match src with
  | some i => d.addEdge i dst kind (latency i)
  | none => d

def applyUse (d : SchedDag α) (t : RegTrack) (key : RegKey) (j : Nat) : SchedDag α × RegTrack :=
  (addFrom d (t.lastDef key) j .raw (rawLatency d key),
    { t with lastUses := fun k => if k = key then pushUse key j (t.lastUses key) else t.lastUses k })

def applyDef (d : SchedDag α) (t : RegTrack) (key : RegKey) (j : Nat) : SchedDag α × RegTrack :=
  let afterUses := (t.lastUses key).foldl
    (fun d u => if u ≠ j then d.addEdge u j .war 0 else d) d
  (addFrom afterUses (t.lastDef key) j .waw (fun _ => 1),
    { lastDef := fun k => if k = key then some j else t.lastDef k,
      lastUses := fun k => if k = key then [] else t.lastUses k })

def applyEvent (st : SchedDag α × RegTrack) (e : RegEvent) : SchedDag α × RegTrack :=
  if e.isDef then applyDef st.1 st.2 e.key e.node else applyUse st.1 st.2 e.key e.node

/-- All register events of the block in order, then all flag events. -/
def blockEvents (d : SchedDag α) : List RegEvent :=
  (d.insts.zipIdx.flatMap fun p => regEvents p.1 p.2) ++
    d.insts.zipIdx.flatMap fun p => flagEvents d.arch p.1 p.2

def buildRegisterDependencies (d : SchedDag α) : SchedDag α :=
  ((blockEvents d).foldl applyEvent (d, {})).1

/-! ## Memory dependencies -/

def laterPairs : List Nat → List (Nat × Nat)
  | [] => []
  | i :: is => is.map (i, ·) ++ laterPairs is

/-- The edge between two nodes that access memory, the first of them earlier. -/
def memoryHazard (d : SchedDag α) (i j : Nat) : Option (EdgeKind × Nat) :=
  if !d.isStore i && !d.isStore j then none
  else if mayMemoryAlias (d.memoryRefs i) (d.memoryRefs j) then
    if d.isStore i && d.isLoad j then some (.memRaw, 4)
    else if d.isLoad i && d.isStore j then some (.memWar, 0)
    else if d.isStore i && d.isStore j then some (.memWaw, 1)
    else none
  else none

def addMemoryEdge (d : SchedDag α) (p : Nat × Nat) : SchedDag α :=
  match memoryHazard d p.1 p.2 with
  | some (kind, latency) => d.addEdge p.1 p.2 kind latency
  | none => d

def memoryNodes (d : SchedDag α) : List Nat :=
  (List.range d.size).filter fun i => d.isLoad i || d.isStore i

def buildMemoryDependencies (d : SchedDag α) : SchedDag α :=
  (laterPairs (memoryNodes d)).foldl addMemoryEdge d

/-! ## Barrier dependencies -/

/-- Each node of a list after the one before it. -/
def chain (d : SchedDag α) : List Nat → SchedDag α
  | i :: j :: rest => chain (d.addEdge i j .barrier 1) (j :: rest)
  | _ => d

def isFullBarrier (inst : LirInst α) : Bool :=
  inst.opcode == .safepoint || inst.opcode == .guardExit || inst.opcode == .parallelCopy ||
    inst.isInvoke

/-- The nodes of `[lo, i)` before `i`, walking down; one with a successor up to `i` already is. -/
def allBefore (d : SchedDag α) (lo i : Nat) : SchedDag α :=
  (List.range' lo (i - lo)).reverse.foldl
    (fun d k => if (d.succs k).any (fun s => s.dst ≤ i) then d else d.addEdge k i .barrier 1) d

/-- The nodes of `(i, hi]` after `i`, walking up; one with a predecessor from `i` on already is. -/
def allAfter (d : SchedDag α) (i hi : Nat) : SchedDag α :=
  (List.range' (i + 1) (hi - i)).foldl
    (fun d k => if (d.preds k).any (fun p => i ≤ p.src) then d else d.addEdge i k .barrier 1) d

/-- The full barriers in order, `lo` the one before the first. -/
def orderFullBarriers (d : SchedDag α) (lo : Nat) : List Nat → SchedDag α
  | [] => d
  | i :: rest =>
    orderFullBarriers (allAfter (allBefore d lo i) i (rest.head?.getD (d.size - 1))) i rest

/-- An edge for each memory access of a range of nodes. -/
def orderMemory (d : SchedDag α) (nodes : List Nat)
    (edge : SchedDag α → Nat → SchedDag α) : SchedDag α :=
  nodes.foldl (fun d k => if d.isLoad k || d.isStore k then edge d k else d) d

/-- The calls in order, joined to the memory accesses from `lo` on and up to the next call. -/
def orderCalls (d : SchedDag α) (lo : Nat) : List Nat → SchedDag α
  | [] => d
  | i :: rest =>
    let before := orderMemory d (List.range' lo (i - lo)) fun d k => d.addEdge k i .barrier 1
    let after := orderMemory before (List.range' (i + 1) (rest.head?.getD d.size - (i + 1)))
      fun d k => d.addEdge i k .barrier 1
    orderCalls after (i + 1) rest

def orderTerminators (d : SchedDag α) : SchedDag α :=
  match (List.range d.size).find? d.isTerminator with
  | some t => chain (allBefore d 0 t) (List.range' t (d.size - t))
  | none => d

def nodesWhere (d : SchedDag α) (test : LirInst α → Bool) : List Nat :=
  (List.range d.size).filter (d.node test)

def buildBarrierDependencies (d : SchedDag α) : SchedDag α :=
  let chained := chain d (nodesWhere d isSchedulingBarrier)
  let full := orderFullBarriers chained 0 (nodesWhere d isFullBarrier)
  orderTerminators (orderCalls full 0 (nodesWhere d LirInst.isCall))

/-! ## The graph and its heights -/

def buildDag (insts : List (LirInst α)) (arch : Arch) : SchedDag α :=
  buildBarrierDependencies
    (buildMemoryDependencies (buildRegisterDependencies { insts := insts, arch := arch }))

/-- The height of a node from those of its successors: the latency of a leaf. -/
def nodeHeight (d : SchedDag α) (height : Nat → Nat) (i : Nat) : Nat :=
  match d.succs i with
  | [] => d.latency i
  | s :: rest => (s :: rest).foldl (fun h s => max h (height s.dst + s.latency)) 0

/-- Heights in reverse order of position. -/
def computeMetrics (d : SchedDag α) : Nat → Nat :=
  (List.range d.size).reverse.foldl
    (fun height i => let h := nodeHeight d height i; fun k => if k = i then h else height k)
    (fun _ => 0)

end Dag

end Brass.Codegen
