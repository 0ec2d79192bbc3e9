import Brass.Codegen.Lir
import Mathlib.Data.List.Sort
import Mathlib.Data.List.Destutter
import Mathlib.Data.List.Infix

/-!
# The layout of the blocks

The pass that reorders the blocks of a function: traces of blocks that run after each other
first, the blocks that rarely run at the end. An implicit fall-through is made a jump before
the blocks move, and a jump to the block that comes next is dropped after.

A pointer to a block is the block's id. The profile is two functions of block names: the
count of a block, and the probability of an edge times 10000, cut to a whole number, with
the count of the edge; a name that no block of the profiled function has gives nothing.
-/

namespace Brass.Codegen.BlockLayout

/-- What the layout reads of an instruction besides opcode and operands. `mirBranch` holds
the ids of the true and the false target when the instruction comes from a `br_if` that has
both. -/
structure LayoutExtra where
  deoptReason : Nat := 0
  exitSymbol : String := ""
  calleeSymbol : String := ""
  mirBranch : Option (UInt32 × UInt32) := none
  unwindBlockId : UInt32 := 0xFFFFFFFF

abbrev Inst := LirInst LayoutExtra

structure LayoutBlock where
  id : UInt32
  name : String := ""
  instructions : List Inst := []
  successors : List UInt32 := []
  loopDepth : Nat := 0
  cold : Bool := false

/-- `ids_nodup`: `create_block` gives every block an id of its own. -/
structure LayoutFunction where
  blocks : List LayoutBlock
  resumeEntries : List (UInt32 × UInt32) := []
  ids_nodup : (blocks.map (·.id)).Nodup

/-- `block_freq` and `branch_prob`, each together with `mir_function`. -/
structure BlockLayoutOptions where
  coldBlockAtEnd : Bool := true
  blockFreq : Option (String → Option Nat) := none
  branchProb : Option (String → String → Option (Int × Nat)) := none

/-- The order in which a walk of a hash set meets its elements. -/
structure SetOrder where
  order : List UInt32 → List UInt32
  order_perm : ∀ l, (order l).Perm l

def invalidId : UInt32 := 0xFFFFFFFF

/-! ## What is read of one block -/

/-- `uses[0]` when it is a label. -/
def firstLabel (inst : Inst) : Option UInt32 :=
  match inst.uses with
  | { kind := .label id, .. } :: _ => some id
  | _ => none

def labelOf (op : LirOpcode) (inst : Inst) : Option UInt32 :=
  if inst.opcode = op then firstLabel inst else none

def jumpTo (id : UInt32) : Inst :=
  { opcode := .jmp, uses := [{ kind := .label id }], useConstraints := [{}], rest := {} }

/-- Some count says that the block never ran. -/
def countedZero (opts : BlockLayoutOptions) (b : LayoutBlock) : Bool :=
  match opts.blockFreq with
  | some count => count b.name == some 0
  | none => false

/-- `find` of one of the words that name rare blocks. -/
def nameMarksCold (name : String) : Bool :=
  ["cold", "deopt", "resume"].any fun word => decide (word.toList <:+: name.toList)

def instMarksCold (inst : Inst) : Bool :=
  (inst.opcode == .safepoint && inst.rest.deoptReason != 0) ||
    (inst.opcode == .guardExit || inst.opcode == .trap) ||
    (inst.rest.exitSymbol != "" || inst.rest.calleeSymbol == "brass_deopt_exit")

def isBlockCold (fn : LayoutFunction) (opts : BlockLayoutOptions) (b : LayoutBlock) : Bool :=
  if fn.blocks.head?.map (·.id) = some b.id then false
  else
    b.cold || countedZero opts b || fn.resumeEntries.any (fun rp => rp.2 == b.id) ||
      nameMarksCold b.name || b.instructions.any instMarksCold

structure BlockBranchTargets where
  targets : List UInt32 := []
  fallthroughTarget : UInt32 := invalidId
  singleUnconditionalJump : Bool := false

/-- The search backwards for a `jcc`, over the instructions before the last, nearest
first. -/
def earlierJcc : List Inst → Option Inst
  | [] => none
  | inst :: before =>
    if inst.opcode = .jcc then some inst
    else if inst.opcode = .jmp ∨ inst.opcode = .ret ∨ inst.opcode = .trap then none
    else earlierJcc before

def getBranchTargets (b : LayoutBlock) : BlockBranchTargets :=
  match b.instructions.reverse with
  | [] => {}
  | last :: before =>
    match labelOf .jmp last with
    | some jmpTarget =>
      match (earlierJcc before).bind firstLabel with
      | some jccTarget => { targets := [jccTarget, jmpTarget], fallthroughTarget := jmpTarget }
      | none =>
        { targets := [jmpTarget], fallthroughTarget := jmpTarget, singleUnconditionalJump := true }
    | none =>
      match labelOf .jcc last with
      | some jccTarget => { targets := [jccTarget] }
      | none => { targets := b.successors }

def isCopyInst (inst : Inst) : Bool :=
  match inst.opcode with
  | .mov | .mov32 | .movsd | .movss | .movaps | .parallelCopy =>
    inst.uses.all (fun o => !o.isMem) && inst.defs.all (fun o => !o.isMem)
  | .jmp => true
  | _ => false

/-- Only register and slot moves and the jump on. -/
def isCopyBlock (b : LayoutBlock) : Bool := b.instructions.all isCopyInst

def hasCall (b : LayoutBlock) : Bool := b.instructions.any LirInst.isCall

/-! ## Implicit fall-throughs -/

/-- The blocks, each rewritten by what comes after it. -/
def mapNext (f : LayoutBlock → Option LayoutBlock → LayoutBlock) : List LayoutBlock → List LayoutBlock
  | [] => []
  | b :: rest => f b rest.head? :: mapNext f rest

/-- The opcodes after which the pass adds no jump. -/
def endsControl (inst : Inst) : Bool :=
  inst.opcode == .jmp || inst.opcode == .ret || inst.opcode == .guardExit || inst.opcode == .trap

def withJump (b : LayoutBlock) (next : Option LayoutBlock) : LayoutBlock :=
  match b.instructions.getLast?, next with
  | some last, some n =>
    if endsControl last then b else { b with instructions := b.instructions ++ [jumpTo n.id] }
  | _, _ => b

def explicitJumps (blocks : List LayoutBlock) : List LayoutBlock := mapNext withJump blocks

/-! ## Cold blocks -/

def idToBlock (blocks : List LayoutBlock) (id : UInt32) : Option LayoutBlock :=
  blocks.find? (·.id == id)

def sortUnique (ids : List UInt32) : List UInt32 := (ids.insertionSort (· ≤ ·)).destutter (· ≠ ·)

/-- `targets_of[id]` -/
def targetsOf (blocks : List LayoutBlock) (id : UInt32) : List UInt32 :=
  match idToBlock blocks id with
  | some b => sortUnique (getBranchTargets b).targets
  | none => []

/-- How many of the blocks branch to each block. -/
def entriesFrom (blocks : List LayoutBlock) (targets : UInt32 → List UInt32) (id : UInt32) : Nat :=
  (blocks.flatMap fun b => targets b.id).count id

/-- The worklist, last pushed first, the cold blocks, and how many blocks that are not cold
enter each block. -/
structure ColdState where
  work : List UInt32
  cold : List UInt32
  warmEntries : UInt32 → Nat

def visitTarget (targets : UInt32 → List UInt32) (entry : UInt32) (s : ColdState) (x : UInt32) :
    ColdState :=
  if x ∈ s.cold ∨ s.warmEntries x ≠ 0 ∨ x = entry then s
  else
    { work := x :: s.work
      cold := s.cold ++ [x]
      warmEntries := (targets x).foldl (fun warm y => Function.update warm y (warm y - 1))
        s.warmEntries }

def spreadCold (targets : UInt32 → List UInt32) (entry : UInt32) : Nat → ColdState → ColdState
  | 0, s => s
  | fuel + 1, s =>
    match s.work with
    | [] => s
    | c :: work =>
      spreadCold targets entry fuel
        ((targets c).foldl (visitTarget targets entry) { s with work := work })

def ownCold (fn : LayoutFunction) (opts : BlockLayoutOptions) (blocks : List LayoutBlock) :
    List UInt32 :=
  (blocks.filter (isBlockCold fn opts)).map (·.id)

/-- One step for each block that is cold by itself and one for each that becomes cold. -/
def coldFuel (blocks : List LayoutBlock) : Nat :=
  blocks.length + (blocks.flatMap fun b => targetsOf blocks b.id).length

def coldStart (walk : SetOrder) (blocks : List LayoutBlock) (own : List UInt32) : ColdState :=
  { work := (walk.order own).reverse
    cold := own
    warmEntries := entriesFrom (blocks.filter fun b => b.id ∉ own) (targetsOf blocks) }

/-- `cold_blocks`, once what only cold blocks branch to is in it. -/
def coldBlocks (walk : SetOrder) (fn : LayoutFunction) (opts : BlockLayoutOptions)
    (blocks : List LayoutBlock) (entry : UInt32) : List UInt32 :=
  (spreadCold (targetsOf blocks) entry (coldFuel blocks)
    (coldStart walk blocks (ownCold fn opts blocks))).cold

def markCold (cold : List UInt32) (b : LayoutBlock) : LayoutBlock :=
  { b with cold := b.cold || decide (b.id ∈ cold) }

/-! ## Scores -/

def startScore (opts : BlockLayoutOptions) (b : LayoutBlock) : Int :=
  b.loopDepth * 10 +
    match opts.blockFreq.bind (fun count => count b.name) with
    | some c => ((min 1000 c : Nat) : Int)
    | none => 0

/-- The side of a two-way branch that the `br_if` names first. -/
def trueSide (blocks : List LayoutBlock) (source : LayoutBlock) (bt : BlockBranchTargets) : UInt32 :=
  if bt.targets.length ≠ 2 then invalidId
  else
    match source.instructions.getLast? with
    | none => invalidId
    | some last =>
      if last.opcode ≠ .jmp then invalidId
      else
        match last.rest.mirBranch with
        | none => invalidId
        | some (t, f) =>
          if t = f then invalidId
          else
            (bt.targets.find? fun x => x == t ||
              (targetsOf blocks x == [t] && (idToBlock blocks x).any isCopyBlock)).getD invalidId

def shapeScore (blocks : List LayoutBlock) (source : LayoutBlock) (bt : BlockBranchTargets)
    (s : LayoutBlock) : Int :=
  match bt.targets with
  | [first, second] =>
    let other := if first = s.id then second else first
    if other = s.id ∨ other = source.id then 0
    else
      match idToBlock blocks other with
      | none =>
        if entriesFrom blocks (targetsOf blocks) s.id ≠ 1 then 0
        else if targetsOf blocks s.id = [other] then 45
        else 0
      | some ob =>
        if hasCall s ≠ hasCall ob then if hasCall s then -120 else 45
        else if entriesFrom blocks (targetsOf blocks) s.id ≠ 1 then 0
        else if targetsOf blocks s.id = [other] then 45
        else if entriesFrom blocks (targetsOf blocks) other ≠ 1 then 0
        else if isCopyBlock s ≠ isCopyBlock ob then if isCopyBlock s then -45 else 45
        else 0
  | _ => 0

/-- The part of a successor's score that the edge's profile gives. -/
def profileScore (opts : BlockLayoutOptions) (curr s : LayoutBlock) : Int :=
  match opts.branchProb.bind (fun edge => edge curr.name s.name) with
  | some (probability, count) => probability + if count > 0 then 500 else 0
  | none => 0

def depthScore (curr s : LayoutBlock) : Int :=
  s.loopDepth * 100 +
    if s.loopDepth > curr.loopDepth then 80
    else if s.loopDepth = curr.loopDepth then 50
    else -100

def successorScore (opts : BlockLayoutOptions) (blocks : List LayoutBlock) (cold : List UInt32)
    (curr : LayoutBlock) (bt : BlockBranchTargets) (s : LayoutBlock) : Int :=
  if s.id ∈ cold then -5000
  else
    let preferred := trueSide blocks curr bt
    profileScore opts curr s + depthScore curr s +
      (if s.id = (if preferred ≠ invalidId then preferred else bt.fallthroughTarget) ∧
          s.loopDepth ≥ curr.loopDepth then 40 else 0) +
      (if s.loopDepth = curr.loopDepth then shapeScore blocks curr bt s else 0) +
      (if bt.singleUnconditionalJump then 60 else 0)

/-! ## Traces -/

def isPlaced (layout : List LayoutBlock) (id : UInt32) : Bool := layout.any (·.id == id)

/-- One successor of the loop over `bt.targets`. -/
def betterSuccessor (opts : BlockLayoutOptions) (blocks : List LayoutBlock) (cold : List UInt32)
    (layout : List LayoutBlock) (curr : LayoutBlock) (bt : BlockBranchTargets)
    (best : Option LayoutBlock × Int) (succId : UInt32) : Option LayoutBlock × Int :=
  if isPlaced layout succId then best
  else
    match idToBlock blocks succId with
    | none => best
    | some s =>
      let score := successorScore opts blocks cold curr bt s
      if score > best.2 then (some s, score) else best

def bestSuccessor (opts : BlockLayoutOptions) (blocks : List LayoutBlock) (cold : List UInt32)
    (layout : List LayoutBlock) (curr : LayoutBlock) : Option LayoutBlock :=
  let bt := getBranchTargets curr
  (bt.targets.foldl (betterSuccessor opts blocks cold layout curr bt) (none, -10000)).1

/-- `trace_starts`: the queue's pairs differ in the second part, so that it pops them in one
order. -/
def traceStarts (opts : BlockLayoutOptions) (blocks : List LayoutBlock) (cold : List UInt32) :
    List LayoutBlock :=
  (blocks.filter fun b => b.id ∉ cold).insertionSort fun a b => startScore opts b ≤ startScore opts a

/-- The loop that builds the traces, by the number of blocks that it still has to place: a
step places one, or the loop ends. -/
def buildTraces (opts : BlockLayoutOptions) (blocks : List LayoutBlock) (cold : List UInt32) :
    Nat → LayoutBlock → List LayoutBlock → List LayoutBlock → List LayoutBlock
  | 0, _, layout, _ => layout
  | n + 1, curr, layout, starts =>
    match (bestSuccessor opts blocks cold layout curr).filter (fun s => s.id ∉ cold) with
    | some s => buildTraces opts blocks cold n s (layout ++ [s]) starts
    | none =>
      match starts.dropWhile (fun b => isPlaced layout b.id) with
      | b :: rest => buildTraces opts blocks cold n b (layout ++ [b]) (b :: rest)
      | [] => layout

/-- The blocks not placed yet, in their order. -/
def placeRest : List LayoutBlock → List LayoutBlock → List LayoutBlock
  | layout, [] => layout
  | layout, b :: rest =>
    if isPlaced layout b.id then placeRest layout rest else placeRest (layout ++ [b]) rest

/-! ## The pass -/

def dropJump (b : LayoutBlock) (next : Option LayoutBlock) : LayoutBlock :=
  match b.instructions.getLast?, next with
  | some last, some n =>
    if labelOf .jmp last = some n.id then { b with instructions := b.instructions.dropLast } else b
  | _, _ => b

def dropRedundantJumps (blocks : List LayoutBlock) : List LayoutBlock := mapNext dropJump blocks

/-- The blocks in their new order, the first of them the entry. -/
def layOut (opts : BlockLayoutOptions) (cold : List UInt32) (entry : LayoutBlock)
    (blocks : List LayoutBlock) : List LayoutBlock :=
  let nonCold := blocks.countP fun b => b.id ∉ cold
  let hot := buildTraces opts blocks cold (nonCold - 1) entry [entry] (traceStarts opts blocks cold)
  if opts.coldBlockAtEnd then placeRest hot blocks else hot

/-- `fn.blocks` after the pass. -/
def optimizeBlockLayout (walk : SetOrder) (fn : LayoutFunction) (opts : BlockLayoutOptions) :
    List LayoutBlock :=
  match explicitJumps fn.blocks with
  | [] => fn.blocks
  | [_] => fn.blocks
  | entry :: rest =>
    let blocks := entry :: rest
    let cold := coldBlocks walk fn opts blocks entry.id
    dropRedundantJumps (layOut opts cold (markCold cold entry) (blocks.map (markCold cold)))

end Brass.Codegen.BlockLayout
