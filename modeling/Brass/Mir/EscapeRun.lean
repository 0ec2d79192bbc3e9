import Brass.Mir.EscapeFlow

/-!
# Executions, and where addresses go

A word is a list of bytes, and a byte is data or one of the eight bytes of an address. What
instructions compute, which way a branch goes, and what the world outside the activation does
with the objects that it can reach is left open; `Step` says what an execution may do to the
registers, the memory and the set of the objects whose address has left the activation. `Tracked`
singles out the steps at which the address of an allocation goes only where the graph of the
analysis has an edge.
-/

namespace Brass.Mir.Escape

/-- An object of the world outside, or the `n`-th allocated one, with the result of the
allocation that it comes from. -/
inductive Object
  | outside (n : Nat)
  | allocated (site n : Nat)
  deriving DecidableEq, Repr

inductive Byte
  | data (b : Nat)
  | part (o : Object) (pos : Int) (i : Nat)
  deriving DecidableEq, Repr

def address (o : Object) (pos : Int) : List Byte := (List.range 8).map (Byte.part o pos)

def Carries (w : List Byte) (o : Object) : Prop := ∃ pos i, Byte.part o pos i ∈ w

def NoAllocation (w : List Byte) : Prop := ∀ site n, ¬ Carries w (.allocated site n)

/-- The object and the position that an access through a word goes to. What is not an address goes
to the world outside or, put together from parts of addresses, to one of their objects. -/
def Names (w : List Byte) (o : Object) (pos : Int) : Prop :=
  w = address o pos ∨ ((∀ o pos, w ≠ address o pos) ∧ ((∃ n, o = .outside n) ∨ Carries w o))

structure State where
  point : Option (Nat × Nat)
  regs : Nat → List Byte
  mem : Object → Int → Byte
  /-- The objects whose address has left the activation. -/
  published : Object → Prop
  allocations : Nat

/-- What the world outside can reach. -/
inductive Reachable (s : State) : Object → Prop
  | outside (n : Nat) : Reachable s (.outside n)
  | published {o : Object} (h : s.published o) : Reachable s o
  | mem {o target : Object} {x pos : Int} {i : Nat} (h : Reachable s o)
      (hb : s.mem o x = .part target pos i) : Reachable s target

/-- The world outside writes to what it can reach, and what it writes is data or an address that
it has. -/
def OutsideWrites (s : State) (mem : Object → Int → Byte) : Prop :=
  ∀ o x, mem o x = s.mem o x ∨
    (Reachable s o ∧ ∀ target pos i, mem o x = .part target pos i → Reachable s target)

namespace State

def next (s : State) : State := { s with point := s.point.map fun p => (p.1, p.2 + 1) }

def set (s : State) (v : Option Nat) (w : List Byte) : State :=
  { s with regs := v.elim s.regs fun v => Function.update s.regs v w }

def publish (s : State) (vs : List Nat) : State :=
  { s with published := fun o => s.published o ∨ ∃ v ∈ vs, Carries (s.regs v) o }

def loaded (s : State) (o : Object) (pos : Int) (size : Nat) : List Byte :=
  (List.range size).map fun i => s.mem o (pos + i)

def write (s : State) (o : Object) (pos : Int) (size : Nat) (w : List Byte) : State :=
  { s with
    mem := Function.update s.mem o fun x =>
      if pos ≤ x ∧ x < pos + size then w.getD (x - pos).toNat (.data 0) else s.mem o x }

/-- The parameters of a block take their words, all at once. -/
def enter (s : State) (b : Nat) (words : List (Nat × List Byte)) : State :=
  { s with
    point := some (b, 0)
    regs := words.foldl (fun regs a => Function.update regs a.1 a.2) s.regs }

end State

/-- How an instruction is left: a failing guard leaves the activation or resumes in it. -/
inductive Action
  | runs
  | exits
  | resumes (block : Nat)
  deriving DecidableEq, Repr

section Step

variable (fn : Function)

def instAt (s : State) : Option Instruction :=
  s.point.bind fun p => (fn.block p.1).insts[p.2]?

/-- Whether an instruction gives its operands to the world outside, computes with them, or
returns them. -/
def actsOutside (inst : Instruction) : Bool :=
  match inst.opcode with
  | .call => !isAllocationCall fn inst
  | .callIndirect | .ret | .invoke | .guard | .other | .loadIndexed | .storeIndexed => true
  | _ => false

def handedOut (inst : Instruction) : List Nat := if actsOutside fn inst then inst.operands else []

/-- The state values that a failing guard gives away. -/
def handedState (inst : Instruction) : Action → List Nat
  | .runs => []
  | .exits => inst.stateMap
  | .resumes b => (inst.stateMap.zip (fn.block b).params).map (·.1)

def words (s : State) (params args : List Nat) : List (Nat × List Byte) :=
  params.zip (args.map s.regs)

/-- One instruction. A call may also leave the activation, by an exception. -/
inductive Step (s : State) (inst : Instruction) : Action → State → Prop
  | allocate {mem : Int → Byte} {v : Nat} (halloc : isAllocation fn inst = true)
      (hres : inst.result = some v) (hmem : ∀ x o pos i, mem x = .part o pos i → Reachable s o) :
      Step s inst .runs ({ s.set (some v) (address (.allocated v s.allocations) 0) with
        mem := Function.update s.mem (.allocated v s.allocations) mem
        allocations := s.allocations + 1 } : State).next
  | allocateUnused (halloc : isAllocation fn inst = true) (hres : inst.result = none) :
      Step s inst .runs s.next
  | load {base v : Nat} {o : Object} {pos : Int} (hop : inst.opcode = .load)
      (hbase : inst.operands[0]? = some base) (hres : inst.result = some v)
      (hnames : Names (s.regs base) o pos) :
      Step s inst .runs
        (s.set (some v) (s.loaded o (pos + inst.offset) (fn.ty v).sizeInBytes)).next
  | store {base val : Nat} {o : Object} {pos : Int} (hop : inst.opcode = .store)
      (hbase : inst.operands[0]? = some base) (hval : inst.operands[1]? = some val)
      (hnames : Names (s.regs base) o pos) :
      Step s inst .runs
        (s.write o (pos + inst.offset) (fn.ty val).sizeInBytes (s.regs val)).next
  | select {a : Nat} (hop : inst.opcode = .select)
      (hsrc : inst.operands[1]? = some a ∨ inst.operands[2]? = some a) :
      Step s inst .runs (s.set inst.result (s.regs a)).next
  | branch {t : BranchTarget} (hop : inst.opcode ≠ .invoke) (ht : t ∈ inst.targets) :
      Step s inst .runs (s.enter t.block (words s (fn.block t.block).params t.args))
  | outside {mem : Object → Int → Byte} {w : List Byte} (hout : actsOutside fn inst = true)
      (hop : inst.opcode ≠ .invoke ∧ inst.opcode ≠ .ret)
      (hmem : OutsideWrites (s.publish inst.operands) mem)
      (hw : ∀ o, Carries w o → Reachable (s.publish inst.operands) o) :
      Step s inst .runs ({ (s.publish inst.operands).set inst.result w with mem } : State).next
  | invoke {mem : Object → Int → Byte} {w : List Byte} {t : BranchTarget}
      (hop : inst.opcode = .invoke) (ht : t ∈ inst.targets)
      (hmem : OutsideWrites (s.publish inst.operands) mem)
      (hw : ∀ o, Carries w o → Reachable (s.publish inst.operands) o) :
      Step s inst .runs (({ (s.publish inst.operands).set inst.result w with mem } : State).enter
        t.block (words ({ (s.publish inst.operands).set inst.result w with mem })
          (fn.block t.block).params t.args))
  | leave {mem : Object → Int → Byte} (hout : actsOutside fn inst = true)
      (hop : inst.opcode ≠ .guard) (hmem : OutsideWrites (s.publish inst.operands) mem) :
      Step s inst .runs { s.publish inst.operands with mem, point := none }
  | exit {mem : Object → Int → Byte} (hop : inst.opcode = .guard)
      (hmem : OutsideWrites (s.publish (inst.operands ++ inst.stateMap)) mem) :
      Step s inst .exits
        { s.publish (inst.operands ++ inst.stateMap) with mem, point := none }
  | resume {b : Nat} (hop : inst.opcode = .guard) (hb : fn.resumeTarget inst.resumeId = some b) :
      Step s inst (.resumes b) (s.enter b (words s (fn.block b).params inst.stateMap))

/-- The activation starts with what the world outside gives to it. -/
structure Initial (s : State) : Prop where
  point : s.point = some (0, 0)
  regs : ∀ v o, Carries (s.regs v) o → ∃ n, o = .outside n
  mem : ∀ o x target pos i, s.mem o x = .part target pos i → ∃ n, target = .outside n
  published : ∀ o, ¬ s.published o

/-- The states that executions reach by steps that `ok` allows. -/
inductive Reached (ok : State → Instruction → Action → Prop) : State → Prop
  | start {s : State} (h : Initial s) : Reached ok s
  | step {s s' : State} {inst : Instruction} {a : Action} (h : Reached ok s)
      (hat : instAt fn s = some inst) (hok : ok s inst a) (hstep : Step fn s inst a s') :
      Reached ok s'

/-! ## Steps that the graph knows about -/

def copied (inst : Instruction) : List Nat :=
  (match inst.opcode with
    | .store => inst.operands[1]?.toList
    | .select => inst.operands[1]?.toList ++ inst.operands[2]?.toList
    | _ => []) ++ inst.targets.flatMap (·.args)

/-- The object that a store of an allocation's address goes to flows to the base of the store, or
nothing does, or a parameter of the function; an address that was stored is read back whole and as
a pointer; the result of an allocation that has an integer type is only the base of accesses; and
a failing guard gives no allocation away. -/
structure Tracked (s : State) (inst : Instruction) (a : Action) : Prop where
  stores : inst.opcode = .store → ∀ base val, inst.operands[0]? = some base →
    inst.operands[1]? = some val → ¬ NoAllocation (s.regs val) →
    ∀ o pos, Names (s.regs base) o pos →
      (∀ x, ¬ Flows fn (.reference base) x) ∨ (∃ p, Flows fn (.reference base) (.phantom p)) ∨
      ∃ site n, o = .allocated site n ∧ Flows fn (.reference base) (.allocation site)
  loads : inst.opcode = .load → ∀ base v, inst.operands[0]? = some base → inst.result = some v →
    ∀ site n pos, Names (s.regs base) (.allocated site n) pos →
      ¬ NoAllocation
        (s.loaded (.allocated site n) (pos + inst.offset) (fn.ty v).sizeInBytes) →
      fn.isPointerLike v = true ∧ ∃ o at', s.loaded (.allocated site n) (pos + inst.offset)
        (fn.ty v).sizeInBytes = address o at'
  integers : ∀ v ∈ handedOut fn inst ++ copied inst, IsAllocationResult fn v →
    fn.isPointerLike v = true
  guards : ∀ v ∈ handedState fn inst a, NoAllocation (s.regs v)

/-- What the verifier asks of a function. -/
structure Verified : Prop where
  edge : ∀ inst, Has fn inst → ∀ t ∈ inst.targets,
    ∀ a ∈ t.args.zip (fn.block t.block).params, fn.ty a.1 = fn.ty a.2
  select : ∀ inst, Has fn inst → inst.opcode = .select → ∀ v a, inst.result = some v →
    (inst.operands[1]? = some a ∨ inst.operands[2]? = some a) → fn.ty a = fn.ty v
  ret : ∀ inst, Has fn inst → inst.opcode = .ret → inst.operands.length ≤ 1
  loadIndexed : ∀ inst, Has fn inst → inst.opcode = .loadIndexed → inst.operands.length = 2
  storeIndexed : ∀ inst, Has fn inst → inst.opcode = .storeIndexed → inst.operands.length = 3
  index : ∀ inst, Has fn inst → (inst.opcode = .loadIndexed ∨ inst.opcode = .storeIndexed) →
    ∀ v, inst.operands[1]? = some v → fn.isPointerLike v = false

end Step

end Brass.Mir.Escape
