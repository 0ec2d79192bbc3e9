import Brass.Codegen.SchedDag
import Brass.Util.Footprint

/-!
# Executing a block

What an instruction may read and write follows from its operands, its fixed and clobbered
registers, the flag table and the barrier rules; what it computes is left open. A machine is
any step function that stays within these footprints, on either target. A trap is the end of
the run.

A spill slot is a cell of its own: the allocator gives each slot its words of the frame and no
instruction takes their address. A local slot is an operand of address computations only.
-/

namespace Brass.Codegen

open Brass.Footprint List

variable {α V : Type}
variable {inst : LirInst α} {m : LirMem} {p : PReg} {arch : Arch}

/-- What a run of a block can depend on. `control` is whether control is still in the block,
`runtime` what calls and barriers keep beside the program's memory. -/
inductive Loc
  | reg (k : RegKey)
  | byte (a : BitVec 64)
  | slot (i : Int32)
  | control
  | runtime
  deriving DecidableEq

abbrev State (V : Type) := Loc → V

/-- The value of the base or index register of a memory operand, zero without one. -/
def registerValue (word : V → BitVec 64) (v : VReg) (p : PReg) (s : State V) : BitVec 64 :=
  if p.isValid then word (s (.reg (.preg p.key)))
  else if v.isValid then word (s (.reg (.vreg v.id)))
  else 0

/-- The effective address of a memory operand. -/
def LirMem.address (word : V → BitVec 64) (m : LirMem) (s : State V) : BitVec 64 :=
  registerValue word m.baseVreg m.basePreg s +
    registerValue word m.indexVreg m.indexPreg s * BitVec.ofNat 64 (scaleValue m.scale) +
    BitVec.ofInt 64 m.disp.toInt

/-- The memory an operand stands for: `size` bytes, or a spill slot. -/
def LirOperand.locs (word : V → BitVec 64) (op : LirOperand) (s : State V) : Set Loc :=
  match op.kind with
  | .mem m => {l | ∃ k < op.size.toNat, l = .byte (m.address word s + BitVec.ofNat 64 k)}
  | .spillSlot i => {.slot i}
  | _ => ∅

def Loc.IsMemory : Loc → Prop
  | .byte _ => True
  | .slot _ => True
  | _ => False

/-- Control may leave the block here, or the whole state is inspected. -/
def isExclusive (inst : LirInst α) : Bool := isFullBarrier inst || inst.isTerminator

def regReads (inst : LirInst α) (arch : Arch) : Set Loc :=
  {l | (∃ k ∈ usesKeys inst, l = .reg k) ∨ (lirReadsFlags inst = true ∧ l = .reg .flags) ∨
    (lirWritesFlags inst arch = true ∧ l = .reg .flags) ∨ ∃ k ∈ defsKeys inst, l = .reg k}

def regWrites (inst : LirInst α) (arch : Arch) : Set Loc :=
  {l | (lirWritesFlags inst arch = true ∧ l = .reg .flags) ∨ ∃ k ∈ defsKeys inst, l = .reg k}

def operandLocs (word : V → BitVec 64) (ops : List LirOperand) (s : State V) : Set Loc :=
  {l | ∃ op ∈ ops, l ∈ op.locs word s}

/-- What calls and other barriers reach beyond their operands. -/
def barrierLocs (inst : LirInst α) : Set Loc :=
  {l | (inst.isCall = true ∧ l.IsMemory) ∨ (isSchedulingBarrier inst = true ∧ l = .runtime)}

/-- The locations an instruction may depend on. -/
def touches (word : V → BitVec 64) (arch : Arch) (inst : LirInst α) (s : State V) : Set Loc :=
  if isExclusive inst then Set.univ
  else {l | l ∈ regReads inst arch ∨ l ∈ operandLocs word (inst.defs ++ inst.uses) s ∨
    l ∈ barrierLocs inst ∨ l = .control}

/-- The locations an instruction may change. -/
def writes (word : V → BitVec 64) (arch : Arch) (inst : LirInst α) (s : State V) : Set Loc :=
  if isExclusive inst then Set.univ
  else {l | l ∈ regWrites inst arch ∨ l ∈ operandLocs word inst.defs s ∨ l ∈ barrierLocs inst}

/-- An execution of instructions within their footprints. -/
structure LirMachine (α V : Type) (arch : Arch) where
  word : V → BitVec 64
  step : LirInst α → State V → Option (State V)
  frame : ∀ {inst s s'}, step inst s = some s' → ∀ l, l ∉ writes word arch inst s → s' l = s l
  step_congr : ∀ {inst s s' t}, step inst s = some s' →
    (∀ l ∈ touches word arch inst s, t l = s l) →
    ∃ t', step inst t = some t' ∧ ∀ l ∈ writes word arch inst s, t' l = s' l

/-! ## Footprints are where the state says -/

variable (word : V → BitVec 64)

theorem writes_subset_touches (arch : Arch) (inst : LirInst α)
    (s : State V) : writes word arch inst s ⊆ touches word arch inst s := by
  intro l hl
  unfold writes at hl
  unfold touches
  split
  · exact Set.mem_univ l
  · rename_i hexcl
    rw [if_neg hexcl] at hl
    rcases hl with (hf | hd) | ⟨op, hop, hl⟩ | hb
    · exact .inl (.inr (.inr (.inl hf)))
    · exact .inl (.inr (.inr (.inr hd)))
    · exact .inr (.inl ⟨op, mem_append_left _ hop, hl⟩)
    · exact .inr (.inr (.inl hb))

theorem address_keys {op : LirOperand} (hop : op ∈ inst.defs ++ inst.uses) (hm : op.kind = .mem m) :
    (∀ v ∈ m.vregs, RegKey.vreg v ∈ usesKeys inst) ∧
      ∀ p ∈ m.pregs, RegKey.preg p ∈ usesKeys inst := by
  have hv : op.addressVregs = m.vregs := by simp [LirOperand.addressVregs, hm]
  have hp : op.addressPregs = m.pregs := by simp [LirOperand.addressPregs, hm]
  refine ⟨fun v hvm => ?_, fun p hpm => ?_⟩
  · refine mem_append_left _ (mem_map_of_mem ?_)
    rcases mem_append.mp hop with hd | hu
    · exact mem_append_right _ (mem_flatMap.mpr ⟨op, hd, hv ▸ hvm⟩)
    · exact mem_append_left _ (mem_flatMap.mpr ⟨op, hu, mem_append_right _ (hv ▸ hvm)⟩)
  · refine mem_append_right _ (mem_map_of_mem ?_)
    refine mem_append_left _ ?_
    rcases mem_append.mp hop with hd | hu
    · exact mem_append_right _ (mem_flatMap.mpr ⟨op, hd, hp ▸ hpm⟩)
    · exact mem_append_left _ (mem_flatMap.mpr ⟨op, hu, mem_append_right _ (hp ▸ hpm)⟩)

variable {t : State V}

theorem registerValue_congr {v : VReg} {s : State V}
    (hp : p.isValid = true → t (.reg (.preg p.key)) = s (.reg (.preg p.key)))
    (hv : v.isValid = true → t (.reg (.vreg v.id)) = s (.reg (.vreg v.id))) :
    registerValue word v p t = registerValue word v p s := by
  unfold registerValue
  split
  · rename_i h
    rw [hp h]
  · split
    · rename_i h
      rw [hv h]
    · rfl

theorem LirMem.address_congr {s : State V}
    (hv : ∀ v ∈ m.vregs, t (.reg (.vreg v)) = s (.reg (.vreg v)))
    (hp : ∀ p ∈ m.pregs, t (.reg (.preg p)) = s (.reg (.preg p))) :
    m.address word t = m.address word s := by
  have hbase : registerValue word m.baseVreg m.basePreg t =
      registerValue word m.baseVreg m.basePreg s :=
    registerValue_congr word (fun h => hp _ (by simp [LirMem.pregs, h]))
      fun h => hv _ (by simp [LirMem.vregs, h])
  have hindex : registerValue word m.indexVreg m.indexPreg t =
      registerValue word m.indexVreg m.indexPreg s :=
    registerValue_congr word (fun h => hp _ (by simp [LirMem.pregs, h]))
      fun h => hv _ (by simp [LirMem.vregs, h])
  rw [LirMem.address, LirMem.address, hbase, hindex]

theorem locs_congr {s : State V} (hexcl : ¬ isExclusive inst = true)
    (h : ∀ l ∈ touches word arch inst s, t l = s l) {op : LirOperand}
    (hop : op ∈ inst.defs ++ inst.uses) : op.locs word t = op.locs word s := by
  unfold touches at h
  rw [if_neg hexcl] at h
  have hkey : ∀ k ∈ usesKeys inst, t (.reg k) = s (.reg k) := fun k hk =>
    h _ (.inl (.inl ⟨k, hk, rfl⟩))
  cases hkind : op.kind with
  | mem m =>
      obtain ⟨hv, hp⟩ := address_keys hop hkind
      have haddr := LirMem.address_congr word (m := m) (s := s) (t := t)
        (fun v hvm => hkey _ (hv v hvm)) fun p hpm => hkey _ (hp p hpm)
      simp only [LirOperand.locs, hkind, haddr]
  | _ => simp only [LirOperand.locs, hkind]

theorem operandLocs_congr {s : State V}
    (hexcl : ¬ isExclusive inst = true) (h : ∀ l ∈ touches word arch inst s, t l = s l)
    {ops : List LirOperand} (hops : ∀ op ∈ ops, op ∈ inst.defs ++ inst.uses) :
    operandLocs word ops t = operandLocs word ops s := by
  ext l
  constructor
  · rintro ⟨op, hop, hl⟩
    exact ⟨op, hop, locs_congr word hexcl h (hops op hop) ▸ hl⟩
  · rintro ⟨op, hop, hl⟩
    exact ⟨op, hop, (locs_congr word hexcl h (hops op hop)).symm ▸ hl⟩

theorem touches_congr {s : State V} (h : ∀ l ∈ touches word arch inst s, t l = s l) :
    touches word arch inst t = touches word arch inst s := by
  by_cases hexcl : isExclusive inst = true
  · rw [touches, touches, if_pos hexcl, if_pos hexcl]
  · rw [touches, touches, if_neg hexcl, if_neg hexcl,
      operandLocs_congr word hexcl h fun op hop => hop]

theorem writes_congr {s : State V} (h : ∀ l ∈ touches word arch inst s, t l = s l) :
    writes word arch inst t = writes word arch inst s := by
  by_cases hexcl : isExclusive inst = true
  · rw [writes, writes, if_pos hexcl, if_pos hexcl]
  · rw [writes, writes, if_neg hexcl, if_neg hexcl,
      operandLocs_congr word hexcl h fun op hop => mem_append_left _ hop]

/-- A machine's blocks run by the general rules of footprints. -/
def LirMachine.toMachine {arch : Arch} (M : LirMachine α V arch) :
    Machine (LirInst α) Loc V where
  touches := touches M.word arch
  writes := writes M.word arch
  step := M.step
  writes_subset := writes_subset_touches M.word arch
  touches_congr := touches_congr M.word
  writes_congr := writes_congr M.word
  frame := M.frame
  step_congr := M.step_congr

def LirMachine.run {arch : Arch} (M : LirMachine α V arch) (insts : List (LirInst α))
    (s : State V) : Option (State V) :=
  Footprint.run M.toMachine insts s

/-! ## Loads and stores -/

/-- The value of the bytes from `a` on, least significant first. -/
def loadBytes (s : State (BitVec 64)) (a : BitVec 64) : Nat → BitVec 64
  | 0 => 0
  | k + 1 => loadBytes s a k ||| s (.byte (a + BitVec.ofNat 64 k)) <<< (8 * k)

def storeBytes (s : State (BitVec 64)) (a : BitVec 64) (size : Nat) (v : BitVec 64) :
    State (BitVec 64)
  | .byte b => if (b - a).toNat < size then v >>> (8 * (b - a).toNat) &&& 255 else s (.byte b)
  | l => s l

/-- A register moved from memory or to memory; other instructions change nothing. -/
def moveStep (inst : LirInst α) (s : State (BitVec 64)) : State (BitVec 64) :=
  match inst.opcode, inst.defs, inst.uses with
  | .mov, [⟨.preg p, _⟩], [⟨.mem m, size⟩] =>
    if p.isValid then
      fun l => if l = .reg (.preg p.key) then loadBytes s (m.address id s) size.toNat else s l
    else s
  | .mov, [⟨.mem m, size⟩], [⟨.preg p, _⟩] =>
    if p.isValid then
      storeBytes s (m.address id s) size.toNat (s (.reg (.preg p.key)))
    else s
  | _, _, _ => s

variable {s : State (BitVec 64)}

theorem loadBytes_congr {t : State (BitVec 64)} {a : BitVec 64} {size : Nat}
    (h : ∀ k < size, t (.byte (a + BitVec.ofNat 64 k)) = s (.byte (a + BitVec.ofNat 64 k))) :
    loadBytes t a size = loadBytes s a size := by
  induction size with
  | zero => rfl
  | succ k ih =>
      rw [loadBytes, loadBytes, ih fun j hj => h j (Nat.lt_succ_of_lt hj), h k (Nat.lt_succ_self k)]

variable {l : Loc}

theorem storeBytes_of_not_mem {a : BitVec 64} {size : Nat} {v : BitVec 64}
    (h : ∀ k < size, l ≠ .byte (a + BitVec.ofNat 64 k)) : storeBytes s a size v l = s l := by
  cases l with
  | byte b =>
      rw [storeBytes, if_neg]
      intro hlt
      refine h _ hlt ?_
      rw [BitVec.ofNat_toNat, BitVec.setWidth_eq, BitVec.add_comm, BitVec.sub_add_cancel]
  | _ => rfl

theorem moveStep_cases (inst : LirInst α) :
    (∃ p m r size, inst.defs = [⟨.preg p, r⟩] ∧ inst.uses = [⟨.mem m, size⟩] ∧
      p.isValid = true ∧ ∀ s, moveStep inst s = fun l => if l = .reg (.preg p.key)
        then loadBytes s (m.address id s) size.toNat else s l) ∨
    (∃ p m r size, inst.defs = [⟨.mem m, size⟩] ∧ inst.uses = [⟨.preg p, r⟩] ∧
      p.isValid = true ∧ ∀ s, moveStep inst s =
        storeBytes s (m.address id s) size.toNat (s (.reg (.preg p.key)))) ∨
    ∀ s, moveStep inst s = s := by
  unfold moveStep
  split
  · rename_i p r m size _ hdefs huses
    cases hp : p.isValid with
    | true => exact .inl ⟨p, m, r, size, hdefs, huses, hp, fun s => by simp⟩
    | false => exact .inr (.inr fun s => by simp)
  · rename_i m size p r _ hdefs huses
    cases hp : p.isValid with
    | true => exact .inr (.inl ⟨p, m, r, size, hdefs, huses, hp, fun s => by simp⟩)
    | false => exact .inr (.inr fun s => by simp)
  · exact .inr (.inr fun _ => rfl)

theorem directPreg_mem_defsKeys {r : UInt8} (hop : (⟨.preg p, r⟩ : LirOperand) ∈ inst.defs)
    (hp : p.isValid = true) :
    RegKey.preg p.key ∈ defsKeys inst := by
  refine mem_append_right _ (mem_map_of_mem ?_)
  refine mem_append_left _ (mem_append_left _ (mem_flatMap.mpr ⟨_, hop, ?_⟩))
  simp [LirOperand.directPregs, hp]

theorem directPreg_mem_usesKeys {r : UInt8} (hop : (⟨.preg p, r⟩ : LirOperand) ∈ inst.uses)
    (hp : p.isValid = true) :
    RegKey.preg p.key ∈ usesKeys inst := by
  refine mem_append_right _ (mem_map_of_mem ?_)
  refine mem_append_left _ (mem_append_left _ (mem_flatMap.mpr ⟨_, hop, ?_⟩))
  simp [LirOperand.directPregs, hp]

theorem moveStep_frame (arch : Arch) (hl : l ∉ writes id arch inst s) :
    moveStep inst s l = s l := by
  have hexcl : ¬ isExclusive inst = true := fun h => by
    rw [writes, if_pos h] at hl
    exact hl (Set.mem_univ l)
  rw [writes, if_neg hexcl] at hl
  obtain ⟨p, m, r, size, hdefs, _, hp, hstep⟩ | ⟨p, m, r, size, hdefs, _, _, hstep⟩ | hstep :=
    moveStep_cases inst
  · rw [hstep]
    refine if_neg fun heq => hl (.inl (.inr ⟨_, ?_, heq⟩))
    exact directPreg_mem_defsKeys (by rw [hdefs]; exact mem_singleton.mpr rfl) hp
  · rw [hstep]
    refine storeBytes_of_not_mem fun k hk heq => hl (.inr (.inl ⟨⟨.mem m, size⟩, ?_, ?_⟩))
    · rw [hdefs]
      exact mem_singleton.mpr rfl
    · exact ⟨k, hk, heq⟩
  · rw [hstep]

theorem address_congr_of_touches {t : State (BitVec 64)} (hexcl : ¬ isExclusive inst = true)
    (h : ∀ l ∈ touches id arch inst s, t l = s l) {size : UInt8}
    (hop : (⟨.mem m, size⟩ : LirOperand) ∈ inst.defs ++ inst.uses) :
    m.address id t = m.address id s := by
  rw [touches, if_neg hexcl] at h
  obtain ⟨hv, hp⟩ := address_keys hop rfl
  exact LirMem.address_congr id (fun v hvm => h _ (.inl (.inl ⟨_, hv v hvm, rfl⟩)))
    fun p hpm => h _ (.inl (.inl ⟨_, hp p hpm, rfl⟩))

theorem moveStep_congr (arch : Arch) {t : State (BitVec 64)}
    (h : ∀ l ∈ touches id arch inst s, t l = s l) (hl : l ∈ touches id arch inst s) :
    moveStep inst t l = moveStep inst s l := by
  by_cases hexcl : isExclusive inst = true
  · have hst : t = s := funext fun l => h l (by rw [touches, if_pos hexcl]; exact Set.mem_univ l)
    rw [hst]
  · have htouch := h
    rw [touches, if_neg hexcl] at htouch
    obtain ⟨p, m, r, size, _, huses, _, hstep⟩ | ⟨p, m, r, size, hdefs, huses, hp, hstep⟩ |
      hstep := moveStep_cases inst
    · have hop : (⟨.mem m, size⟩ : LirOperand) ∈ inst.defs ++ inst.uses :=
        mem_append_right _ (by rw [huses]; exact mem_singleton.mpr rfl)
      have hload : loadBytes t (m.address id s) size.toNat =
          loadBytes s (m.address id s) size.toNat :=
        loadBytes_congr fun k hk => htouch _ (.inr (.inl ⟨_, hop, k, hk, rfl⟩))
      rw [hstep, hstep, address_congr_of_touches hexcl h hop, hload]
      dsimp only
      rw [h l hl]
    · have hop : (⟨.mem m, size⟩ : LirOperand) ∈ inst.defs ++ inst.uses :=
        mem_append_left _ (by rw [hdefs]; exact mem_singleton.mpr rfl)
      have hreg : t (.reg (.preg p.key)) = s (.reg (.preg p.key)) :=
        htouch _ (.inl (.inl ⟨_, directPreg_mem_usesKeys
          (by rw [huses]; exact mem_singleton.mpr rfl) hp, rfl⟩))
      rw [hstep, hstep, address_congr_of_touches hexcl h hop, hreg]
      cases l with
      | byte b => rw [storeBytes, storeBytes, h _ hl]
      | _ => exact h _ hl
    · rw [hstep, hstep, h l hl]

/-- The machine of plain loads and stores, for either target. -/
def moveMachine (α : Type) (arch : Arch) : LirMachine α (BitVec 64) arch where
  word := id
  step inst s := some (moveStep inst s)
  frame hstep l hl := by
    rw [← Option.some.inj hstep]
    exact moveStep_frame arch hl
  step_congr {inst s s' t} hstep h := by
    refine ⟨moveStep inst t, rfl, fun l hl => ?_⟩
    rw [← Option.some.inj hstep]
    exact moveStep_congr arch h (writes_subset_touches id arch inst s hl)

end Brass.Codegen
