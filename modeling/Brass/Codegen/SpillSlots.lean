import Brass.Codegen.RootIntervals

/-!
# Spill slots

`slot_of` of `codegen/linear_scan_slots.cpp` gives a register its slot when the scan first spills
a piece of it: a slot of registers of its kind that its interval meets none of, or a new one. Two
intervals may overlap at a copy from one register to the other. So registers of one slot
overlap at copies between them only (`slotRun_clear`).
-/

namespace Brass.Codegen

open List Option

/-! ## Copies -/

/-- The moves between registers that `build_coalesce_hints` takes for copies. -/
def copyOperands (inst : Inst) : List (LirOperand × LirOperand) :=
  match inst.opcode with
  | .mov | .mov32 | .movsd | .movss | .movaps | .vmovaps | .vmovups =>
    match inst.defs, inst.uses with
    | d :: _, u :: _ => [(d, u)]
    | _, _ => []
  | .parallelCopy => inst.defs.zip inst.uses
  | _ => []

/-- The registers of a copy, what it defines first. -/
def copyVregs (c : LirOperand × LirOperand) : Option (VReg × VReg) :=
  match c.1.vreg?, c.2.vreg? with
  | some dst, some src =>
    if dst.regClass = src.regClass ∧ dst.id ≠ src.id then some (dst, src) else none
  | _, _ => none

def copyKey (a b : Nat) : Nat × Nat := if a < b then (a, b) else (b, a)

/-- `copy_positions_`: two registers and the position of a copy from one to the other. -/
def LirFunction.copyPositions (fn : LirFunction) : List ((Nat × Nat) × Nat) :=
  fn.allNumbered.flatMap (fun i => ((copyOperands i.2).filterMap copyVregs).map (fun c =>
    (copyKey c.1.id.toNat c.2.id.toNat, i.1)))

/-! ## Slots -/

/-- The registers that share a slot, and what they have in common. -/
structure SlotOwners where
  slot : Nat
  isGcref : Bool
  isGpr : Bool
  size : UInt8
  vregs : List Nat

structure SlotState where
  vregSlot : List (Option Nat)
  shared : List SlotOwners := []
  next : Nat := 0

def SlotState.slot (s : SlotState) (v : Nat) : Option Nat := s.vregSlot.getD v none

structure SlotData where
  vregs : List VReg
  intervals : List LiveInterval
  coalesce : List (Nat × VReg)
  copies : List ((Nat × Nat) × Nat)
  constants : List Nat
  slotsGrowUp : Bool

def SlotData.of (fn : LirFunction) (cc : CallingConv) (constants : List Nat) : SlotData where
  vregs := fn.vregTable
  intervals := (ScanData.of fn cc).intervals
  coalesce := (ScanData.of fn cc).hints.coalesce
  copies := fn.copyPositions
  constants := constants
  slotsGrowUp := cc.arch == .aarch64

def kMaxSlotsChecked : Nat := 64

def kMaxOwners : Nat := 16

/-- `allocate_spill_slot`: the slot, and the next one. -/
def allocateSpillSlot (growUp : Bool) (next : Nat) (size : UInt8) : Nat × Nat :=
  if size = 32 then
    let base := (next + 3) / 4 * 4
    (if growUp then base else base + 3, base + 4)
  else if size = 16 then
    let base := (next + 1) / 2 * 2
    (if growUp then base else base + 1, base + 2)
  else (next, next + 1)

namespace SlotData

variable (d : SlotData)

def copiesOf (a b : Nat) : List Nat :=
  (d.copies.filter (fun c => c.1 = copyKey a b)).map Prod.snd

/-- Two intervals overlap elsewhere than at a copy between their registers. -/
def meets (a b : LiveInterval) : Bool :=
  if a.endId < b.startId ∨ b.endId < a.startId then false
  else
    let copies := d.copiesOf a.vreg.id.toNat b.vreg.id.toNat
    a.segments.any (fun x => b.segments.any (fun y =>
      let lo := max x.start y.start
      let hi := min x.stop y.stop
      decide (lo ≤ hi) &&
        !(decide (hi - lo ≤ 1) && copies.any (fun c => decide (c ≤ lo) && decide (hi ≤ c + 1)))))

def shareable (v : VReg) : Bool :=
  decide (v.size ≤ 8) &&
    (match d.intervals[v.id.toNat]? with
    | some iv => !iv.segments.isEmpty
    | none => false) &&
    !d.constants.contains v.id.toNat

/-- The slots to check: those of copy partners first, then from the latest on. -/
def order (s : SlotState) (v : VReg) : List Nat :=
  let partners := ((d.coalesce.filter (fun h => h.1 = v.id.toNat)).map Prod.snd).flatMap (fun p =>
    match s.slot p.id.toNat with
    | some slot =>
      if d.copiesOf v.id.toNat p.id.toNat = [] then []
      else (List.range s.shared.length).filter (fun i =>
        s.shared[i]?.map SlotOwners.slot == some slot)
    | none => [])
  partners ++ (List.range s.shared.length).reverse.take (kMaxSlotsChecked + 8 - partners.length)

/-- The owners are of the register's kind, and not too many. -/
def suits (v : VReg) (o : SlotOwners) : Bool :=
  o.isGcref == v.isGcref && o.size == v.size && o.isGpr == decide (v.regClass = .gpr) &&
    decide (o.vregs.length < kMaxOwners)

def clashes (v : VReg) (o : SlotOwners) : Bool :=
  o.vregs.any (fun w =>
    match d.intervals[v.id.toNat]?, d.intervals[(d.vregs.getD w {}).id.toNat]? with
    | some mine, some other => d.meets mine other
    | _, _ => true)

/-- The first slot of the order that the register may share, of as many as are checked. -/
def findOwners (s : SlotState) (v : VReg) : List Nat → Nat → Option Nat
  | [], _ => none
  | i :: rest, checked =>
    if checked ≥ kMaxSlotsChecked then none
    else
      match s.shared[i]? with
      | none => findOwners s v rest checked
      | some o =>
        if !suits v o then findOwners s v rest checked
        else if d.clashes v o then findOwners s v rest (checked + 1)
        else some i

/-- `slot_of`, which leaves the slot of the register in the table. -/
def slotOf (v : VReg) (s : SlotState) : SlotState :=
  match s.slot v.id.toNat with
  | some _ => s
  | none =>
    match if d.shareable v then d.findOwners s v (d.order s v) 0 else none with
    | some i =>
      { s with
        vregSlot := s.vregSlot.set v.id.toNat (s.shared[i]?.map SlotOwners.slot)
        shared := s.shared.modify i (fun o => { o with vregs := o.vregs ++ [v.id.toNat] }) }
    | none =>
      let (slot, next) := allocateSpillSlot d.slotsGrowUp s.next v.size
      { vregSlot := s.vregSlot.set v.id.toNat (some slot)
        shared := if d.shareable v then
          s.shared ++ [⟨slot, v.isGcref, decide (v.regClass = .gpr), v.size, [v.id.toNat]⟩]
        else s.shared
        next := next }

/-- Any calls of `slot_of` for registers of the table. -/
inductive SlotRun : SlotState → Prop
  | init : SlotRun { vregSlot := List.replicate d.vregs.length none }
  | call {s : SlotState} {v : VReg} : SlotRun s → v ∈ d.vregs → SlotRun (d.slotOf v s)

/-! ## Registers of one slot -/

variable {d} {s : SlotState} {v w : Nat}

/-- Where segments of the two overlap there is a copy between the registers. -/
def ClearOf (d : SlotData) (a b : LiveInterval) : Prop :=
  ∀ x ∈ a.segments, ∀ y ∈ b.segments, max x.start y.start ≤ min x.stop y.stop →
    ∃ c, (copyKey a.vreg.id.toNat b.vreg.id.toNat, c) ∈ d.copies ∧
      c ≤ max x.start y.start ∧ min x.stop y.stop ≤ c + 1

theorem copyKey_comm (a b : Nat) : copyKey a b = copyKey b a := by
  unfold copyKey
  rcases Nat.lt_trichotomy a b with h | rfl | h
  · rw [if_pos h, if_neg (Nat.not_lt.mpr (Nat.le_of_lt h))]
  · rfl
  · rw [if_neg (Nat.not_lt.mpr (Nat.le_of_lt h)), if_pos h]

theorem ClearOf.symm {a b : LiveInterval} (h : d.ClearOf a b) : d.ClearOf b a := by
  intro y hy x hx hle
  rw [max_comm, min_comm] at hle
  obtain ⟨c, hc, h₁, h₂⟩ := h x hx y hy hle
  rw [copyKey_comm, max_comm, min_comm]
  exact ⟨c, hc, h₁, h₂⟩

theorem clearOf_of_meets {a b : LiveInterval} (ha : a.Bounded) (hb : b.Bounded)
    (h : d.meets a b = false) : d.ClearOf a b := by
  intro x hx y hy hle
  obtain ⟨h₁, h₂⟩ := ha x hx
  obtain ⟨h₃, h₄⟩ := hb y hy
  unfold meets at h
  split at h
  · omega
  · have hxy := any_eq_false.mp (Bool.not_eq_true _ ▸ any_eq_false.mp h x hx) y hy
    rw [Bool.and_eq_true, decide_eq_true_eq, Bool.not_eq_true', not_and, Bool.not_eq_false,
      Bool.and_eq_true] at hxy
    obtain ⟨c, hc, hlo⟩ := any_eq_true.mp (hxy hle).2
    rw [Bool.and_eq_true, decide_eq_true_eq, decide_eq_true_eq] at hlo
    obtain ⟨p, hp, rfl⟩ := mem_map.mp hc
    obtain ⟨hmem, hkey⟩ := mem_filter.mp hp
    rw [decide_eq_true_eq] at hkey
    exact ⟨p.2, hkey ▸ hmem, hlo⟩

/-- Both have an interval, and these are clear of each other. -/
def Clear (d : SlotData) (v w : Nat) : Prop :=
  ∃ a b, d.intervals[v]? = some a ∧ d.intervals[w]? = some b ∧ d.ClearOf a b

theorem Clear.symm (h : d.Clear v w) : d.Clear w v := by
  obtain ⟨a, b, ha, hb, hab⟩ := h
  exact ⟨b, a, hb, ha, hab.symm⟩

theorem findOwners_some {u : VReg} {is : List Nat} {checked i : Nat}
    (h : d.findOwners s u is checked = some i) :
    ∃ o, s.shared[i]? = some o ∧ suits u o = true ∧ d.clashes u o = false := by
  induction is generalizing checked with
  | nil => cases h
  | cons j is ih =>
    unfold findOwners at h
    split at h
    · cases h
    · split at h
      · exact ih h
      · rename_i o ho
        split at h
        · exact ih h
        · split at h
          · exact ih h
          · rename_i hsuits hclash
            cases h
            exact ⟨o, ho, by simpa using hsuits, by simpa using hclash⟩

theorem allocateSpillSlot_fresh (growUp : Bool) (next : Nat) (size : UInt8) :
    next ≤ (allocateSpillSlot growUp next size).1 ∧
      (allocateSpillSlot growUp next size).1 < (allocateSpillSlot growUp next size).2 := by
  unfold allocateSpillSlot
  dsimp only
  split_ifs <;> dsimp only <;> omega

/-- What holds of the slots between calls. -/
structure SlotsInv (d : SlotData) (s : SlotState) : Prop where
  length : s.vregSlot.length = d.vregs.length
  lt : ∀ v x, s.slot v = some x → x < s.next
  owners_lt : ∀ o ∈ s.shared, o.slot < s.next
  distinct : (s.shared.map SlotOwners.slot).Nodup
  owns : ∀ o ∈ s.shared, ∀ v, v ∈ o.vregs ↔ s.slot v = some o.slot
  alone : ∀ v w x, s.slot v = some x → s.slot w = some x → v = w ∨ ∃ o ∈ s.shared, o.slot = x
  kind : ∀ o ∈ s.shared, o.size ≤ 8 ∧ ∀ v ∈ o.vregs, (d.vregs.getD v {}).size = o.size ∧
    (d.vregs.getD v {}).isGcref = o.isGcref ∧
    o.isGpr = decide ((d.vregs.getD v {}).regClass = .gpr) ∧ v ∉ d.constants
  clear : ∀ o ∈ s.shared, ∀ v ∈ o.vregs, ∀ w ∈ o.vregs, v ≠ w → d.Clear v w

theorem mem_modify {α : Type} {l : List α} {i : Nat} {f : α → α} {x : α} (h : x ∈ l.modify i f) :
    (∃ y, l[i]? = some y ∧ x = f y) ∨ ∃ j, j ≠ i ∧ l[j]? = some x := by
  obtain ⟨j, hj⟩ := mem_iff_getElem?.mp h
  rw [getElem?_modify] at hj
  by_cases hji : i = j
  · subst hji
    simp only [if_true] at hj
    obtain ⟨y, hy, rfl⟩ := map_eq_some_iff.mp hj
    exact .inl ⟨y, hy, rfl⟩
  · simp only [hji, if_false, id_map'] at hj
    exact .inr ⟨j, fun h => hji h.symm, hj⟩

theorem SlotsInv.slot_ne (h : d.SlotsInv s) {i j : Nat} {o o' : SlotOwners}
    (ho : s.shared[i]? = some o) (ho' : s.shared[j]? = some o') (hij : j ≠ i) :
    o'.slot ≠ o.slot := by
  intro heq
  obtain ⟨hi, rfl⟩ := List.getElem?_eq_some_iff.mp ho
  obtain ⟨hj, rfl⟩ := List.getElem?_eq_some_iff.mp ho'
  have hi' : i < (s.shared.map SlotOwners.slot).length := by rwa [length_map]
  have hj' : j < (s.shared.map SlotOwners.slot).length := by rwa [length_map]
  have hslots : (s.shared.map SlotOwners.slot)[j] = (s.shared.map SlotOwners.slot)[i] := by
    rw [getElem_map, getElem_map]
    exact heq
  exact hij (h.distinct.getElem_inj_iff.mp hslots)

theorem SlotsInv.vreg_lt (h : d.SlotsInv s) {x : Nat} (hv : s.slot v = some x) :
    v < d.vregs.length := by
  by_contra hge
  rw [SlotState.slot, getD_eq_getElem?_getD,
    getElem?_eq_none (h.length ▸ Nat.le_of_not_lt hge)] at hv
  cases hv

section Step

variable (hids : d.vregs.map (fun v => v.id.toNat) = List.range d.vregs.length)
  (hbounded : ∀ iv ∈ d.intervals, iv.Bounded)

include hids

theorem id_of_mem {u : VReg} (hu : u ∈ d.vregs) :
    u.id.toNat < d.vregs.length ∧ d.vregs.getD u.id.toNat {} = u := by
  obtain ⟨i, hi, rfl⟩ := mem_iff_getElem.mp hu
  have hid := congrArg (fun l => l[i]?) hids
  simp only [getElem?_map, getElem?_eq_getElem hi, getElem?_range hi, map_some, some_inj] at hid
  rw [hid]
  exact ⟨hi, by rw [getD_eq_getElem?_getD, getElem?_eq_getElem hi]; rfl⟩

theorem id_getD (hv : v < d.vregs.length) : (d.vregs.getD v {}).id.toNat = v := by
  have hid := congrArg (fun l => l[v]?) hids
  simp only [getElem?_map, getElem?_eq_getElem hv, getElem?_range hv, map_some, some_inj] at hid
  rw [getD_eq_getElem?_getD, getElem?_eq_getElem hv]
  exact hid

include hbounded

theorem clear_of_clashes {u : VReg} {o : SlotOwners}
    (h : d.clashes u o = false) (hw : w ∈ o.vregs) (hlt : w < d.vregs.length) :
    d.Clear u.id.toNat w := by
  have hno := any_eq_false.mp h w hw
  rw [id_getD hids hlt] at hno
  split at hno
  · rename_i mine other hmine hother
    exact ⟨mine, other, hmine, hother, clearOf_of_meets
      (hbounded mine (mem_of_getElem? hmine)) (hbounded other (mem_of_getElem? hother))
      (by simpa using hno)⟩
  · exact absurd rfl hno

omit hids hbounded in
theorem slot_set {t : SlotState} {n : Nat} {x : Option Nat} (ht : t.vregSlot = s.vregSlot.set n x)
    (hn : n < s.vregSlot.length) (w : Nat) : t.slot w = if n = w then x else s.slot w := by
  rw [SlotState.slot, SlotState.slot, ht, getD_eq_getElem?_getD, getD_eq_getElem?_getD,
    getElem?_set]
  by_cases hnw : n = w
  · simp [hnw, hnw ▸ hn]
  · simp [hnw]

theorem SlotsInv.share (h : d.SlotsInv s) {u : VReg} (hu : u ∈ d.vregs)
    (hnone : s.slot u.id.toNat = none) (hshare : d.shareable u = true) {i : Nat} {o : SlotOwners}
    (ho : s.shared[i]? = some o) (hsuits : suits u o = true) (hclash : d.clashes u o = false)
    {t : SlotState} (ht : t = { s with
      vregSlot := s.vregSlot.set u.id.toNat (some o.slot)
      shared := s.shared.modify i (fun o => { o with vregs := o.vregs ++ [u.id.toNat] }) }) :
    d.SlotsInv t := by
  obtain ⟨hlt, hget⟩ := id_of_mem hids hu
  have hmem : o ∈ s.shared := mem_of_getElem? ho
  have hslot : ∀ w, t.slot w = if u.id.toNat = w then some o.slot else s.slot w :=
    slot_set (by rw [ht]) (h.length ▸ hlt)
  have hshared : ∀ o' ∈ t.shared, (o' = { o with vregs := o.vregs ++ [u.id.toNat] }) ∨
      (o' ∈ s.shared ∧ o'.slot ≠ o.slot) := by
    intro o' ho'
    rw [ht] at ho'
    rcases mem_modify ho' with ⟨y, hy, rfl⟩ | ⟨j, hji, hj⟩
    · rw [ho, some_inj] at hy
      exact .inl (hy ▸ rfl)
    · exact .inr ⟨mem_of_getElem? hj, h.slot_ne ho hj hji⟩
  have hnew : ∀ w ∈ o.vregs, d.Clear u.id.toNat w := fun w hw =>
    clear_of_clashes hids hbounded hclash hw (h.vreg_lt ((h.owns o hmem w).mp hw))
  have hslots : t.shared.map SlotOwners.slot = s.shared.map SlotOwners.slot := by
    rw [ht]
    refine ext_getElem? fun j => ?_
    rw [getElem?_map, getElem?_map, getElem?_modify]
    by_cases hij : i = j
    · cases s.shared[j]? <;> simp [hij]
    · simp [hij]
  have hkept : ∀ o' ∈ s.shared, ∃ o'' ∈ t.shared, o''.slot = o'.slot := by
    intro o' ho'
    exact mem_map.mp (hslots ▸ mem_map_of_mem ho')
  obtain ⟨hsize, hkind⟩ := h.kind o hmem
  simp only [suits, Bool.and_eq_true, beq_iff_eq, decide_eq_true_eq] at hsuits
  obtain ⟨⟨⟨hg, hs⟩, hgpr⟩, -⟩ := hsuits
  refine ⟨?_, fun v x hv => ?_, fun o' ho' => ?_, ?_, fun o' ho' v => ?_, fun v w x hv hw => ?_,
    fun o' ho' => ?_, fun o' ho' v hv w hw hvw => ?_⟩
  · rw [ht]
    exact (length_set ..).trans h.length
  · rw [hslot] at hv
    have hnext : t.next = s.next := by rw [ht]
    rw [hnext]
    split at hv
    · cases hv
      exact h.owners_lt o hmem
    · exact h.lt v x hv
  · have hnext : t.next = s.next := by rw [ht]
    rw [hnext]
    rcases hshared o' ho' with rfl | ⟨ho', -⟩
    · exact h.owners_lt o hmem
    · exact h.owners_lt o' ho'
  · rw [hslots]
    exact h.distinct
  · rw [hslot]
    rcases hshared o' ho' with rfl | ⟨ho', hne⟩
    · rw [mem_append, mem_singleton, h.owns o hmem]
      by_cases huv : u.id.toNat = v
      · simp [huv]
      · rw [if_neg huv]
        exact or_iff_left fun h => huv h.symm
    · rw [h.owns o' ho']
      by_cases huv : u.id.toNat = v
      · rw [if_pos huv, ← huv, hnone, some_inj]
        exact ⟨fun hh => (some_ne_none _ hh.symm).elim, fun hh => absurd hh.symm hne⟩
      · rw [if_neg huv]
  · rw [hslot] at hv hw
    by_cases huv : u.id.toNat = v
    · by_cases huw : u.id.toNat = w
      · exact .inl (huv.symm.trans huw)
      · rw [if_pos huv, some_inj] at hv
        obtain ⟨o'', h₁, h₂⟩ := hkept o hmem
        exact .inr ⟨o'', h₁, h₂.trans hv⟩
    · by_cases huw : u.id.toNat = w
      · rw [if_pos huw, some_inj] at hw
        obtain ⟨o'', h₁, h₂⟩ := hkept o hmem
        exact .inr ⟨o'', h₁, h₂.trans hw⟩
      · rw [if_neg huv] at hv
        rw [if_neg huw] at hw
        refine (h.alone v w x hv hw).imp_right fun ⟨o', ho', hx⟩ => ?_
        obtain ⟨o'', h₁, h₂⟩ := hkept o' ho'
        exact ⟨o'', h₁, h₂.trans hx⟩
  · rcases hshared o' ho' with rfl | ⟨ho', -⟩
    · refine ⟨hsize, fun v hv => ?_⟩
      rcases mem_append.mp hv with hv | hv
      · exact hkind v hv
      · rw [mem_singleton.mp hv, hget]
        refine ⟨hs.symm, hg.symm, hgpr, fun hc => ?_⟩
        simp only [shareable, Bool.and_eq_true, Bool.not_eq_true'] at hshare
        simp [hc] at hshare
    · exact h.kind o' ho'
  · rcases hshared o' ho' with rfl | ⟨ho', -⟩
    · rcases mem_append.mp hv with hv | hv
      · rcases mem_append.mp hw with hw | hw
        · exact h.clear o hmem v hv w hw hvw
        · rw [mem_singleton.mp hw]
          exact (hnew v hv).symm
      · rw [mem_singleton.mp hv] at hvw ⊢
        rcases mem_append.mp hw with hw | hw
        · exact hnew w hw
        · exact absurd (mem_singleton.mp hw).symm hvw
    · exact h.clear o' ho' v hv w hw hvw

omit hbounded in
theorem SlotsInv.alloc (h : d.SlotsInv s) {u : VReg} (hu : u ∈ d.vregs)
    (hnone : s.slot u.id.toNat = none) {slot next : Nat} (hslot : s.next ≤ slot) (hnext : slot < next)
    {t : SlotState} (ht : t = {
      vregSlot := s.vregSlot.set u.id.toNat (some slot)
      shared := if d.shareable u then
        s.shared ++ [⟨slot, u.isGcref, decide (u.regClass = .gpr), u.size, [u.id.toNat]⟩]
        else s.shared
      next := next }) : d.SlotsInv t := by
  obtain ⟨hlt, hget⟩ := id_of_mem hids hu
  have hslots : ∀ w, t.slot w = if u.id.toNat = w then some slot else s.slot w :=
    slot_set (by rw [ht]) (h.length ▸ hlt)
  have htnext : t.next = next := by rw [ht]
  have hnew : ∀ w, s.slot w ≠ some slot := fun w hw => by
    have := h.lt w slot hw
    omega
  have hkept : ∀ o ∈ s.shared, o ∈ t.shared := by
    intro o ho
    rw [ht]
    dsimp only
    split
    · exact mem_append_left _ ho
    · exact ho
  have hshared : ∀ o ∈ t.shared, o ∈ s.shared ∨ (d.shareable u = true ∧
      o = ⟨slot, u.isGcref, decide (u.regClass = .gpr), u.size, [u.id.toNat]⟩) := by
    intro o ho
    rw [ht] at ho
    dsimp only at ho
    split at ho
    · rename_i hshare
      exact (mem_append.mp ho).imp_right fun h => ⟨hshare, mem_singleton.mp h⟩
    · exact .inl ho
  refine ⟨?_, fun v x hv => ?_, fun o ho => ?_, ?_, fun o ho v => ?_, fun v w x hv hw => ?_,
    fun o ho => ?_, fun o ho v hv w hw hvw => ?_⟩
  · rw [ht]
    exact (length_set ..).trans h.length
  · rw [hslots] at hv
    rw [htnext]
    split at hv
    · cases hv
      exact hnext
    · have := h.lt v x hv
      omega
  · rw [htnext]
    rcases hshared o ho with ho | ⟨-, rfl⟩
    · have := h.owners_lt o ho
      omega
    · exact hnext
  · rw [ht]
    dsimp only
    split
    · rw [map_append]
      refine nodup_append.mpr ⟨h.distinct, nodup_singleton _, fun x hx y hy => ?_⟩
      obtain ⟨o, ho, rfl⟩ := mem_map.mp hx
      have := h.owners_lt o ho
      obtain rfl := mem_singleton.mp hy
      omega
    · exact h.distinct
  · rw [hslots]
    rcases hshared o ho with ho | ⟨-, rfl⟩
    · rw [h.owns o ho]
      by_cases huv : u.id.toNat = v
      · have := h.owners_lt o ho
        rw [if_pos huv, ← huv, hnone, some_inj]
        exact ⟨fun hh => (some_ne_none _ hh.symm).elim, fun hh => by omega⟩
      · rw [if_neg huv]
    · rw [mem_singleton]
      by_cases huv : u.id.toNat = v
      · simp [huv]
      · rw [if_neg huv]
        exact ⟨fun hh => absurd hh.symm huv, fun hh => absurd hh (hnew v)⟩
  · rw [hslots] at hv hw
    by_cases huv : u.id.toNat = v
    · by_cases huw : u.id.toNat = w
      · exact .inl (huv.symm.trans huw)
      · rw [if_pos huv, some_inj] at hv
        rw [if_neg huw, ← hv] at hw
        exact absurd hw (hnew w)
    · by_cases huw : u.id.toNat = w
      · rw [if_pos huw, some_inj] at hw
        rw [if_neg huv, ← hw] at hv
        exact absurd hv (hnew v)
      · rw [if_neg huv] at hv
        rw [if_neg huw] at hw
        exact (h.alone v w x hv hw).imp_right fun ⟨o, ho, hx⟩ => ⟨o, hkept o ho, hx⟩
  · rcases hshared o ho with ho | ⟨hshare, rfl⟩
    · exact h.kind o ho
    · simp only [shareable, Bool.and_eq_true, Bool.not_eq_true', decide_eq_true_eq] at hshare
      refine ⟨hshare.1.1, fun v hv => ?_⟩
      rw [mem_singleton.mp hv, hget]
      refine ⟨rfl, rfl, rfl, fun hc => ?_⟩
      simp [hc] at hshare
  · rcases hshared o ho with ho | ⟨-, rfl⟩
    · exact h.clear o ho v hv w hw hvw
    · exact absurd ((mem_singleton.mp hv).trans (mem_singleton.mp hw).symm) hvw

theorem slotOf_inv (h : d.SlotsInv s) {u : VReg} (hu : u ∈ d.vregs) : d.SlotsInv (d.slotOf u s) := by
  unfold slotOf
  split
  · exact h
  · rename_i hnone
    split
    · rename_i i hi
      split at hi
      · rename_i hshare
        obtain ⟨o, ho, hsuits, hclash⟩ := findOwners_some hi
        refine h.share hids hbounded hu hnone hshare ho hsuits hclash ?_
        rw [ho]
        rfl
      · cases hi
    · obtain ⟨hge, hlt⟩ := allocateSpillSlot_fresh d.slotsGrowUp s.next u.size
      exact h.alloc hids hu hnone hge hlt rfl

theorem slotRun_inv (h : d.SlotRun s) : d.SlotsInv s := by
  induction h with
  | init =>
    have hnone : ∀ v, ({ vregSlot := replicate d.vregs.length none } : SlotState).slot v =
        none := by
      intro v
      rw [SlotState.slot, getD_eq_getElem?_getD, getElem?_replicate]
      split <;> rfl
    refine ⟨length_replicate, fun v x hv => ?_, by simp, nodup_nil, by simp,
      fun v w x hv => ?_, by simp, by simp⟩
    · rw [hnone] at hv
      cases hv
    · rw [hnone] at hv
      cases hv
  | call _ hu ih => exact slotOf_inv hids hbounded ih hu

end Step

structure SharesSlot (s : SlotState) (v w : Nat) : Prop where
  ne : v ≠ w
  slot : s.slot v = s.slot w
  some : (s.slot v).isSome = true

theorem SharesSlot.symm (h : SharesSlot s v w) : SharesSlot s w v :=
  ⟨h.ne.symm, h.slot.symm, h.slot ▸ h.some⟩

theorem SlotsInv.owners (h : d.SlotsInv s) (hs : SharesSlot s v w) :
    ∃ o ∈ s.shared, v ∈ o.vregs ∧ w ∈ o.vregs := by
  obtain ⟨x, hv⟩ := isSome_iff_exists.mp hs.some
  have hw : s.slot w = some x := hs.slot ▸ hv
  obtain ⟨o, ho, rfl⟩ := (h.alone v w x hv hw).resolve_left hs.ne
  exact ⟨o, ho, (h.owns o ho v).mpr hv, (h.owns o ho w).mpr hw⟩

end SlotData

open SlotData LirFunction in
/-- After any calls of `slot_of`, registers of one slot are of one kind, and their intervals
overlap at copies between them only. -/
theorem slotRun_clear (fn : LirFunction) (cc : CallingConv) (constants : List Nat) {s : SlotState}
    (h : (SlotData.of fn cc constants).SlotRun s) {v w : Nat} (hs : SharesSlot s v w) :
    (SlotData.of fn cc constants).Clear v w ∧
      (fn.vregTable.getD v {}).size = (fn.vregTable.getD w {}).size ∧
      (fn.vregTable.getD v {}).size ≤ 8 := by
  have hinv := slotRun_inv fn.ids (ScanData.intervals_bounded fn cc) h
  obtain ⟨o, ho, hv, hw⟩ := hinv.owners hs
  obtain ⟨hsize, hkind⟩ := hinv.kind o ho
  have hv' := (hkind v hv).1
  exact ⟨hinv.clear o ho v hv w hw hs.ne, hv'.trans (hkind w hw).1.symm, hv' ▸ hsize⟩

end Brass.Codegen
