import Brass.Codegen.SchedDag

/-!
# The list scheduler

A block is scheduled by repeatedly taking the best ready node: one whose predecessors are all
scheduled and whose operands are there at the current cycle, ranked by register pressure,
critical path, issue balance and position. A register that the block reads is counted under
its class and number; the number of reads of it still to be scheduled decides what a node
kills.
-/

namespace Brass.Codegen

structure SchedOptions where
  enablePreRa : Bool := false
  enablePostRa : Bool := false
  maxBlockInstructions : Nat := 500
  gprPressureThreshold : Nat := 12
  xmmPressureThreshold : Nat := 12
  balanceIssuePorts : Bool := true

structure SchedStats where
  blocksScheduled : Nat := 0
  instructionsScheduled : Nat := 0
  stallsHidden : Nat := 0
  loadsHoisted : Nat := 0
  pressureThrottles : Nat := 0
  deriving DecidableEq, Repr

section Scheduler

variable {α : Type}

/-! ## Register usage -/

def operandIsPreRa (op : LirOperand) : Bool :=
  match op.kind with
  | .vreg _ => true
  | .mem m => m.baseVreg.isValid || m.indexVreg.isValid
  | _ => false

def isBlockPreRa (insts : List (LirInst α)) : Bool :=
  insts.any fun inst => inst.defs.any operandIsPreRa || inst.uses.any operandIsPreRa

structure RegUsage where
  defsGpr : Nat := 0
  defsXmm : Nat := 0
  usesGpr : List Nat := []
  usesXmm : List Nat := []

/-- A register as the pressure counts see it: whether it is a vector register, and its
number. -/
structure UsedReg where
  isXmm : Bool
  reg : Nat
  deriving DecidableEq

def VReg.used (v : VReg) : UsedReg := ⟨v.isXmm, v.id.toNat⟩

def PReg.used (p : PReg) : UsedReg := ⟨p.isXmm, p.code.toNat⟩

/-- The operand as a register: any virtual one before allocation, a valid physical one
after. -/
def directUsed (isPreRa : Bool) (op : LirOperand) : List UsedReg :=
  match op.kind with
  | .vreg v => if isPreRa then [v.used] else []
  | .preg p => if !isPreRa && p.isValid then [p.used] else []
  | _ => []

def addressUsed (isPreRa : Bool) (op : LirOperand) : List UsedReg :=
  match op.kind with
  | .mem m =>
    if isPreRa then
      (if m.baseVreg.isValid then [m.baseVreg.used] else []) ++
        if m.indexVreg.isValid then [m.indexVreg.used] else []
    else
      (if m.basePreg.isValid then [m.basePreg.used] else []) ++
        if m.indexPreg.isValid then [m.indexPreg.used] else []
  | _ => []

/-- How many of the two clobber masks' registers have a class; none before allocation. -/
def clobberCount (isPreRa : Bool) (mask : UInt32) : Nat :=
  if isPreRa then 0 else ((List.range 32).filter fun c => mask.toNat.testBit c).length

def getInstructionRegUsage (inst : LirInst α) (isPreRa : Bool) : RegUsage :=
  let defs := inst.defs.flatMap (directUsed isPreRa)
  let uses := inst.defs.flatMap (addressUsed isPreRa) ++
    inst.uses.flatMap fun u => directUsed isPreRa u ++ addressUsed isPreRa u
  { defsGpr := (defs.filter (!·.isXmm)).length + clobberCount isPreRa inst.clobberedGprs,
    defsXmm := (defs.filter (·.isXmm)).length + clobberCount isPreRa inst.clobberedXmms,
    usesGpr := (uses.filter (!·.isXmm)).map (·.reg),
    usesXmm := (uses.filter (·.isXmm)).map (·.reg) }

/-! ## The state of the loop -/

structure SchedState where
  readyQueue : List Nat
  readyCycle : Nat → Nat
  inReadyQueue : Nat → Bool
  unscheduledPreds : Nat → Nat
  scheduledOrder : List Nat
  currentCycle : Nat
  lastScheduledWasLoad : Bool
  liveGprs : Nat
  liveXmms : Nat
  remainingGpr : Nat → Nat
  remainingXmm : Nat → Nat
  stats : SchedStats

structure Score where
  isTerm : Bool
  delta : Int
  height : Nat
  isLoad : Bool
  id : Nat

/-- `a` goes before `b`. -/
def compareNodes (balanceIssuePorts pressureHigh lastScheduledWasLoad : Bool) (a b : Score) :
    Bool :=
  if a.isTerm != b.isTerm then !a.isTerm
  else if pressureHigh && a.delta != b.delta then decide (a.delta < b.delta)
  else if 4 ≤ ((a.height : Int) - b.height).natAbs then decide (b.height < a.height)
  else if balanceIssuePorts && a.isLoad != b.isLoad then
    if lastScheduledWasLoad then !a.isLoad else a.isLoad
  else if a.height != b.height then decide (b.height < a.height)
  else decide (a.id < b.id)

/-- The first smallest element (`std::min_element`). -/
def minElement (less : Score → Score → Bool) (first : Score) (rest : List Score) : Score :=
  rest.foldl (fun smallest x => if less x smallest then x else smallest) first

def readyNow (st : SchedState) (cycle : Nat) : List Nat :=
  st.readyQueue.filter fun u => st.readyCycle u ≤ cycle

/-- The cycle at which something is ready: the current one, or the earliest a queued node
has. -/
def readyAt (st : SchedState) : Nat :=
  match readyNow st st.currentCycle, (st.readyQueue.map st.readyCycle).min? with
  | [], some minR => if st.currentCycle < minR then minR else st.currentCycle
  | _, _ => st.currentCycle

def pressureDelta (st : SchedState) (ru : RegUsage) : Int :=
  ((ru.defsGpr + ru.defsXmm : Nat) : Int) -
    ((ru.usesGpr.filter fun r => st.remainingGpr r == 1).length +
      (ru.usesXmm.filter fun r => st.remainingXmm r == 1).length : Nat)

/-- One read of each register less; a register whose last read this is stops being live. -/
def consumeUses (uses : List Nat) (remaining : Nat → Nat) (live : Nat) : (Nat → Nat) × Nat :=
  uses.foldl
    (fun acc r =>
      (fun k => if k = r then acc.1 r - 1 else acc.1 k,
        if acc.1 r == 1 && decide (0 < acc.2) then acc.2 - 1 else acc.2))
    (remaining, live)

/-- A successor of the node just scheduled: its operands are there a latency later, and it
becomes ready with its last predecessor. -/
def updateSuccessor (st : SchedState) (s : SchedEdge) : SchedState :=
  let cycled := { st with
    readyCycle := fun k =>
      if k = s.dst then max (st.readyCycle s.dst) (st.currentCycle + s.latency - 1)
      else st.readyCycle k }
  if 0 < st.unscheduledPreds s.dst then
    let counted := { cycled with
      unscheduledPreds := fun k =>
        if k = s.dst then st.unscheduledPreds s.dst - 1 else st.unscheduledPreds k }
    if st.unscheduledPreds s.dst - 1 = 0 && !st.inReadyQueue s.dst then
      { counted with
        readyQueue := st.readyQueue ++ [s.dst],
        inReadyQueue := fun k => if k = s.dst then true else st.inReadyQueue k }
    else counted
  else cycled

structure SchedContext (α : Type) where
  dag : SchedDag α
  height : Nat → Nat
  usage : Nat → RegUsage
  opts : SchedOptions

/-- The node chosen of those ready, and the state after scheduling it. -/
def scheduleNode (cx : SchedContext α) (st : SchedState) (pressureHigh : Bool) (chosen : Nat) :
    SchedState :=
  let hoisted := cx.dag.isLoad chosen && decide (st.scheduledOrder.length < chosen)
  let ru := cx.usage chosen
  let gpr := consumeUses ru.usesGpr st.remainingGpr st.liveGprs
  let xmm := consumeUses ru.usesXmm st.remainingXmm st.liveXmms
  (cx.dag.succs chosen).foldl updateSuccessor
    { st with
      readyQueue := st.readyQueue.erase chosen,
      scheduledOrder := st.scheduledOrder ++ [chosen],
      currentCycle := st.currentCycle + 1,
      lastScheduledWasLoad := cx.dag.isLoad chosen,
      remainingGpr := gpr.1,
      liveGprs := gpr.2 + ru.defsGpr,
      remainingXmm := xmm.1,
      liveXmms := xmm.2 + ru.defsXmm,
      stats := { st.stats with
        loadsHoisted := st.stats.loadsHoisted + if hoisted then 1 else 0,
        pressureThrottles := st.stats.pressureThrottles + if pressureHigh then 1 else 0 } }

def score (cx : SchedContext α) (st : SchedState) (pressureHigh : Bool) (u : Nat) : Score :=
  { isTerm := cx.dag.isTerminator u,
    delta := if pressureHigh then pressureDelta st (cx.usage u) else 0,
    height := cx.height u,
    isLoad := cx.dag.isLoad u,
    id := u }

/-- One round of the loop: advance to a cycle with a ready node, choose, schedule. -/
def scheduleStep (cx : SchedContext α) (st : SchedState) : SchedState :=
  let cycle := readyAt st
  let st' := { st with
    currentCycle := cycle,
    stats := { st.stats with
      stallsHidden := st.stats.stallsHidden + (cycle - st.currentCycle) } }
  let pressureHigh := decide (cx.opts.gprPressureThreshold ≤ st.liveGprs) ||
    decide (cx.opts.xmmPressureThreshold ≤ st.liveXmms)
  match readyNow st cycle with
  | [] => st'
  | u :: us =>
    let best := minElement
      (compareNodes cx.opts.balanceIssuePorts pressureHigh st.lastScheduledWasLoad)
      (score cx st pressureHigh u) (us.map (score cx st pressureHigh))
    scheduleNode cx st' pressureHigh best.id

/-- The loop; a block of `n` nodes takes at most `n` rounds. -/
def scheduleLoop (cx : SchedContext α) : Nat → SchedState → SchedState
  | 0, st => st
  | fuel + 1, st =>
    match st.readyQueue with
    | [] => st
    | _ :: _ => scheduleLoop cx fuel (scheduleStep cx st)

def countUses (usage : Nat → RegUsage) (uses : RegUsage → List Nat) (n : Nat) (r : Nat) : Nat :=
  ((List.range n).map fun i => ((uses (usage i)).filter (· == r)).length).sum

def initialState (cx : SchedContext α) : SchedState :=
  let n := cx.dag.size
  let preds := fun i => (cx.dag.preds i).length
  { readyQueue := (List.range n).filter fun i => preds i == 0,
    readyCycle := fun _ => 0,
    inReadyQueue := fun i => decide (i < n) && preds i == 0,
    unscheduledPreds := preds,
    scheduledOrder := [],
    currentCycle := 0,
    lastScheduledWasLoad := false,
    liveGprs := 0,
    liveXmms := 0,
    remainingGpr := countUses cx.usage RegUsage.usesGpr n,
    remainingXmm := countUses cx.usage RegUsage.usesXmm n,
    stats := {} }

/-! ## Blocks -/

def schedContext (insts : List (LirInst α)) (arch : Arch) (opts : SchedOptions) :
    SchedContext α :=
  let dag := buildDag insts arch
  { dag := dag,
    height := computeMetrics dag,
    usage := fun i => ((insts[i]?).map
      fun inst => getInstructionRegUsage inst (isBlockPreRa insts)).getD {},
    opts := opts }

/-- The positions of the block's instructions in their new order, or the old order where the
block is left alone, with the statistics. -/
def BlockScheduler.run (insts : List (LirInst α)) (arch : Arch) (opts : SchedOptions) :
    List Nat × SchedStats :=
  let n := insts.length
  let isPreRa := isBlockPreRa insts
  if n ≤ 1 ∨ opts.maxBlockInstructions < n then (List.range n, {})
  else if isPreRa && !opts.enablePreRa then (List.range n, {})
  else if !isPreRa && !opts.enablePostRa then (List.range n, {})
  else
    let cx := schedContext insts arch opts
    let final := scheduleLoop cx n (initialState cx)
    if final.scheduledOrder.length = n then
      (final.scheduledOrder,
        { final.stats with blocksScheduled := 1, instructionsScheduled := n })
    else (List.range n, final.stats)

def scheduleBlock (insts : List (LirInst α)) (arch : Arch) (opts : SchedOptions) :
    List (LirInst α) × SchedStats :=
  let result := BlockScheduler.run insts arch opts
  (result.1.filterMap (insts[·]?), result.2)

end Scheduler

end Brass.Codegen
