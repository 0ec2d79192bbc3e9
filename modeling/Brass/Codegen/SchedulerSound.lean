import Brass.Codegen.LirMachine
import Brass.Codegen.SchedulerOrder

/-!
# What scheduling a block preserves

Two instructions of a block conflict when one defines a register or the flags and the other
uses or defines them, when their memory operands overlap in the run and one of them writes,
or when a barrier rule orders them. The scheduler compares memory operands by their base
registers and displacements. It takes general register 5 for a frame pointer on every target
and trusts accesses through it not to meet any others, does not look at an index beside it,
and computes the ends of displacement ranges in 32 bits: `Misjudged` names these pairs. As
long as none of them overlap in the run, conflicting instructions keep their order and the
scheduled block ends in the state of the original.
-/

namespace Brass.Codegen

open Relation SchedDag List Option LirOperand LirMem Footprint

variable {α V : Type} {arch : Arch}

/-! ## Conflicts -/

variable {k : RegKey} {c : LirInst α} {word : V → BitVec 64} {l : Loc}

/-- The instructions at two positions of a block that is run from a state have to keep their
order. -/
inductive Conflicts (M : LirMachine α V arch) (insts : List (LirInst α)) (s : State V)
    (i j : Nat) : Prop
  | register {a b : LirInst α} {k : RegKey} (ha : insts[i]? = some a) (hb : insts[j]? = some b)
      (hk : (k ∈ defsKeys a ∧ (k ∈ usesKeys b ∨ k ∈ defsKeys b)) ∨
        (k ∈ usesKeys a ∧ k ∈ defsKeys b))
  | flags {a b : LirInst α} (ha : insts[i]? = some a) (hb : insts[j]? = some b)
      (hf : (lirWritesFlags a arch = true ∧
          (lirReadsFlags b = true ∨ lirWritesFlags b arch = true)) ∨
        (lirReadsFlags a = true ∧ lirWritesFlags b arch = true))
  | memory {a b : LirInst α} {x y : LirOperand} {si sj : State V} {l : Loc}
      (ha : insts[i]? = some a) (hb : insts[j]? = some b)
      (hsi : M.run (insts.take i) s = some si) (hsj : M.run (insts.take j) s = some sj)
      (hx : x ∈ a.defs ++ a.uses) (hy : y ∈ b.defs ++ b.uses)
      (hwrite : x ∈ a.defs ∨ y ∈ b.defs) (hlx : l ∈ x.locs M.word si)
      (hly : l ∈ y.locs M.word sj)
  | barriers {a b : LirInst α} (ha : insts[i]? = some a) (hb : insts[j]? = some b)
      (hbar : isSchedulingBarrier a = true ∧ isSchedulingBarrier b = true)
  | fullBarrier {a b : LirInst α} (ha : insts[i]? = some a) (hb : insts[j]? = some b)
      (hfull : isFullBarrier a = true ∨ isFullBarrier b = true)
  | call {a b : LirInst α} (ha : insts[i]? = some a) (hb : insts[j]? = some b)
      (hcall : (a.isCall = true ∧
          (instructionReadsMemory b = true ∨ instructionWritesMemory b = true)) ∨
        ((instructionReadsMemory a = true ∨ instructionWritesMemory a = true) ∧
          b.isCall = true))
  | terminator {b c : LirInst α} {t : Nat} (hb : insts[j]? = some b) (htj : t ≤ j)
      (hc : insts[t]? = some c) (hterm : c.isTerminator = true)

/-! ## The pairs the alias rule misjudges -/

def LirMem.baseKey (m : LirMem) : Option RegKey :=
  if m.basePreg.isValid then some (.preg m.basePreg.key)
  else if m.baseVreg.isValid then some (.vreg m.baseVreg.id)
  else none

/-- The operand's base is general register 5, x64's frame pointer. -/
def LirMem.isFrame (m : LirMem) : Bool := m.basePreg == PReg.rbp

/-- The end of a displacement range does not fit in 32 bits. -/
def endOverflows (disp : Int32) (size : UInt8) : Bool := decide (2 ^ 31 ≤ disp.toInt + size.toNat)

/-- The addresses of two memory operands are not what tells them apart: one is taken for a
frame access and the other not, both are and one has an index, or the end of a range they are
compared by overflows. -/
def misjudged (m : LirMem) (mSize : UInt8) (n : LirMem) (nSize : UInt8) : Bool :=
  m.isFrame != n.isFrame ||
    (m.isFrame && (m.hasIndex || n.hasIndex) && rangesApart m.disp mSize n.disp nSize) ||
    (decide (m.baseKey = n.baseKey) && m.hasBase &&
      (endOverflows m.disp mSize || endOverflows n.disp nSize) &&
      rangesApart m.disp mSize n.disp nSize)

/-- In the run of the block from a state no two accesses, one of them a write, overlap that
the alias rule misjudges. -/
def NoMisjudgedOverlap (M : LirMachine α V arch) (insts : List (LirInst α)) (s : State V) :
    Prop :=
  ∀ i j a b si sj, i < j → insts[i]? = some a → insts[j]? = some b →
    M.run (insts.take i) s = some si → M.run (insts.take j) s = some sj →
    ∀ x ∈ a.defs ++ a.uses, ∀ y ∈ b.defs ++ b.uses, (x ∈ a.defs ∨ y ∈ b.defs) →
    ∀ m n, x.kind = .mem m → y.kind = .mem n → misjudged m x.size n y.size = true →
    ∀ l ∈ x.locs M.word si, l ∉ y.locs M.word sj

/-! ## Conflicts the graph orders in every state -/

section Static

variable {insts : List (LirInst α)} {i j : Nat} {a b : LirInst α}

theorem lt_length (hb : insts[j]? = some b) : j < insts.length :=
  (List.getElem?_eq_some_iff.mp hb).1

theorem node_of_get (hb : insts[j]? = some b) {test : LirInst α → Bool} (htest : test b = true)
    {d : SchedDag α} (hd : Extends { insts := insts, arch := arch } d) :
    d.node test j = true := by
  rw [hd.node]
  exact node_eq_true.mpr ⟨b, hb, htest⟩

/-- The graph before the barrier rules. -/
def dataDag (insts : List (LirInst α)) (arch : Arch) : SchedDag α :=
  buildMemoryDependencies (buildRegisterDependencies { insts := insts, arch := arch })

theorem buildDag_eq (insts : List (LirInst α)) (arch : Arch) :
    buildDag insts arch = buildBarrierDependencies (dataDag insts arch) := by
  unfold buildDag dataDag
  rfl

theorem dataDag_extends (insts : List (LirInst α)) (arch : Arch) :
    Extends { insts := insts, arch := arch } (dataDag insts arch) :=
  (buildRegisterDependencies_extends _).trans (buildMemoryDependencies_extends _)

theorem dataDag_forward (insts : List (LirInst α)) (arch : Arch) : (dataDag insts arch).Forward :=
  (dataDag_extends insts arch).forward (forward_empty insts arch)

theorem event_reach {e₁ e₂ : RegEvent} (h₁ : e₁ ∈ blockEvents { insts := insts, arch := arch })
    (h₂ : e₂ ∈ blockEvents { insts := insts, arch := arch }) (hkey : e₁.key = e₂.key)
    (hdef : e₁.isDef = true ∨ e₂.isDef = true) (hlt : e₁.node < e₂.node) :
    (buildDag insts arch).Reach e₁.node e₂.node := by
  have hreach := buildRegisterDependencies_reach h₁ h₂ hkey hdef hlt
  rw [buildDag_eq]
  exact (buildBarrierDependencies_extends _).reach
    ((buildMemoryDependencies_extends _).reach hreach)

theorem use_event (ha : insts[i]? = some a) (hk : k ∈ usesKeys a) :
    ⟨i, k, false⟩ ∈ blockEvents { insts := insts, arch := arch } :=
  mem_blockEvents.mpr ⟨a, ha, .inl (regEvents_spec.mpr ⟨rfl, .inl ⟨rfl, hk⟩⟩)⟩

theorem def_event (ha : insts[i]? = some a) (hk : k ∈ defsKeys a) :
    ⟨i, k, true⟩ ∈ blockEvents { insts := insts, arch := arch } :=
  mem_blockEvents.mpr ⟨a, ha, .inl (regEvents_spec.mpr ⟨rfl, .inr ⟨rfl, hk⟩⟩)⟩

theorem flagUse_event (ha : insts[i]? = some a) (hf : lirReadsFlags a = true) :
    ⟨i, .flags, false⟩ ∈ blockEvents { insts := insts, arch := arch } :=
  mem_blockEvents.mpr ⟨a, ha, .inr (flagEvents_spec.mpr ⟨rfl, rfl, .inl ⟨rfl, hf⟩⟩)⟩

theorem flagDef_event (ha : insts[i]? = some a) (hf : lirWritesFlags a arch = true) :
    ⟨i, .flags, true⟩ ∈ blockEvents { insts := insts, arch := arch } :=
  mem_blockEvents.mpr ⟨a, ha, .inr (flagEvents_spec.mpr ⟨rfl, rfl, .inr ⟨rfl, hf⟩⟩)⟩

theorem register_reach (hij : i < j) (ha : insts[i]? = some a) (hb : insts[j]? = some b)
    {k : RegKey} (hk : (k ∈ defsKeys a ∧ (k ∈ usesKeys b ∨ k ∈ defsKeys b)) ∨
      (k ∈ usesKeys a ∧ k ∈ defsKeys b)) : (buildDag insts arch).Reach i j := by
  rcases hk with ⟨hda, hub | hdb⟩ | ⟨hua, hdb⟩
  · exact event_reach (def_event ha hda) (use_event hb hub) rfl (.inl rfl) hij
  · exact event_reach (def_event ha hda) (def_event hb hdb) rfl (.inl rfl) hij
  · exact event_reach (use_event ha hua) (def_event hb hdb) rfl (.inr rfl) hij

theorem flags_reach (hij : i < j) (ha : insts[i]? = some a) (hb : insts[j]? = some b)
    (hf : (lirWritesFlags a arch = true ∧ (lirReadsFlags b = true ∨ lirWritesFlags b arch = true)) ∨
      (lirReadsFlags a = true ∧ lirWritesFlags b arch = true)) :
    (buildDag insts arch).Reach i j := by
  rcases hf with ⟨hda, hub | hdb⟩ | ⟨hua, hdb⟩
  · exact event_reach (flagDef_event ha hda) (flagUse_event hb hub) rfl (.inl rfl) hij
  · exact event_reach (flagDef_event ha hda) (flagDef_event hb hdb) rfl (.inl rfl) hij
  · exact event_reach (flagUse_event ha hua) (flagDef_event hb hdb) rfl (.inr rfl) hij

theorem size_lt (hb : insts[j]? = some b) : j < (dataDag insts arch).size :=
  (lt_length hb).trans_eq (dataDag_extends insts arch).size.symm

theorem full_reach (hij : i < j) (ha : insts[i]? = some a) (hb : insts[j]? = some b)
    (hfull : isFullBarrier a = true ∨ isFullBarrier b = true) :
    (buildDag insts arch).Reach i j := by
  rw [buildDag_eq]
  refine fullBarrier_reach _ (dataDag_forward insts arch) hij (size_lt hb) ?_
  exact hfull.imp (fun h => node_of_get ha h (dataDag_extends insts arch))
    fun h => node_of_get hb h (dataDag_extends insts arch)

theorem terminated_reach {t : Nat} (hij : i < j) (hb : insts[j]? = some b) (htj : t ≤ j)
    (hc : insts[t]? = some c) (hterm : c.isTerminator = true) :
    (buildDag insts arch).Reach i j := by
  rw [buildDag_eq]
  exact terminator_reach _ (dataDag_forward insts arch)
    (node_of_get hc hterm (dataDag_extends insts arch)) htj hij (size_lt hb)

theorem exclusive_cases (h : isExclusive c = true) :
    isFullBarrier c = true ∨ c.isTerminator = true := by
  rwa [isExclusive, Bool.or_eq_true] at h

end Static

/-! ## Memory -/

section Memory

variable {insts : List (LirInst α)} {i j : Nat} {a b : LirInst α} {x y : LirOperand}
variable {r : MemoryRef} {p q : UInt8} {m n : LirMem}

theorem accessesMemory_of_memoryRef (h : memoryRef x = some r) : x.accessesMemory = true := by
  cases hkind : x.kind <;>
    simp [memoryRef, hkind, accessesMemory, isMem, isSpillSlot] at h ⊢

theorem writesMemory_of_mem (hx : x ∈ a.defs) (h : x.accessesMemory = true) :
    instructionWritesMemory a = true :=
  any_eq_true.mpr ⟨x, hx, h⟩

theorem readsMemory_of_mem (hx : x ∈ a.uses) (h : x.accessesMemory = true) :
    instructionReadsMemory a = true :=
  any_eq_true.mpr ⟨x, hx, h⟩

theorem accesses_of_mem (hx : x ∈ a.defs ++ a.uses) (h : x.accessesMemory = true) :
    instructionReadsMemory a = true ∨ instructionWritesMemory a = true := by
  rcases mem_append.mp hx with hd | hu
  · exact .inr (writesMemory_of_mem hd h)
  · exact .inl (readsMemory_of_mem hu h)

theorem alias_reach (hij : i < j) (ha : insts[i]? = some a) (hb : insts[j]? = some b)
    (hx : x ∈ a.defs ++ a.uses) (hy : y ∈ b.defs ++ b.uses) (hwrite : x ∈ a.defs ∨ y ∈ b.defs)
    {q : MemoryRef} (hr : memoryRef x = some r) (hq : memoryRef y = some q)
    (halias : refsMayAlias r q = true) :
    (buildDag insts arch).Reach i j := by
  have hext := buildRegisterDependencies_extends ({ insts := insts, arch := arch } : SchedDag α)
  have hxm := accessesMemory_of_memoryRef hr
  have hym := accessesMemory_of_memoryRef hq
  have hrefs : ∀ {k : Nat} {c : LirInst α} {z : LirOperand} {p : MemoryRef},
      insts[k]? = some c → z ∈ c.defs ++ c.uses → memoryRef z = some p →
      p ∈ (buildRegisterDependencies { insts := insts, arch := arch }).memoryRefs k := by
    intro k c z p hc hz hp
    rw [SchedDag.memoryRefs, hext.insts, hc, map_some, getD_some, getMemoryRefs, ← filterMap_append]
    exact mem_filterMap.mpr ⟨z, hz, hp⟩
  have hmay : mayMemoryAlias
      ((buildRegisterDependencies { insts := insts, arch := arch }).memoryRefs i)
      ((buildRegisterDependencies { insts := insts, arch := arch }).memoryRefs j) = true :=
    any_eq_true.mpr ⟨r, hrefs ha hx hr, any_eq_true.mpr ⟨q, hrefs hb hy hq, halias⟩⟩
  have hload : ∀ {k : Nat} {c : LirInst α}, insts[k]? = some c → instructionReadsMemory c = true →
      (buildRegisterDependencies { insts := insts, arch := arch }).isLoad k = true :=
    fun hc h => node_of_get hc h hext
  have hstore : ∀ {k : Nat} {c : LirInst α}, insts[k]? = some c → instructionWritesMemory c = true →
      (buildRegisterDependencies { insts := insts, arch := arch }).isStore k = true :=
    fun hc h => node_of_get hc h hext
  have hnode : ∀ {k : Nat} {c : LirInst α} {z : LirOperand}, insts[k]? = some c →
      z ∈ c.defs ++ c.uses → z.accessesMemory = true →
      k ∈ memoryNodes (buildRegisterDependencies { insts := insts, arch := arch }) := by
    intro k c z hc hz hzm
    refine mem_memoryNodes.mpr ⟨(lt_length hc).trans_eq hext.size.symm, ?_⟩
    exact (accesses_of_mem hz hzm).imp (hload hc) (hstore hc)
  -- a pair of which one writes and the other accesses memory has a hazard
  have hhazard : memoryHazard (buildRegisterDependencies { insts := insts, arch := arch }) i j ≠
      none := by
    have hwrites : (buildRegisterDependencies { insts := insts, arch := arch }).isStore i = true ∨
        (buildRegisterDependencies { insts := insts, arch := arch }).isStore j = true :=
      hwrite.imp (fun h => hstore ha (writesMemory_of_mem h hxm))
        fun h => hstore hb (writesMemory_of_mem h hym)
    have hi := (mem_memoryNodes.mp (hnode ha hx hxm)).2
    have hj := (mem_memoryNodes.mp (hnode hb hy hym)).2
    generalize buildRegisterDependencies { insts := insts, arch := arch } = d at *
    unfold memoryHazard
    rw [if_pos hmay]
    cases hsi : d.isStore i <;> cases hsj : d.isStore j <;> cases hli : d.isLoad i <;>
      cases hlj : d.isLoad j <;> simp_all
  have hedge := buildMemoryDependencies_hasEdge (hnode ha hx hxm) (hnode hb hy hym) hij hhazard
  rw [buildDag_eq]
  exact ReflTransGen.single ((buildBarrierDependencies_extends _).edge hedge)

theorem rangeEnd_toInt {disp : Int32} {size : UInt8} (h : endOverflows disp size = false) :
    (rangeEnd disp size).toInt = disp.toInt + size.toNat := by
  have hsize : size.toUInt32.toInt32.toInt = size.toNat := by
    have hlt := size.toNat_lt
    have hbmod : ((size.toNat : Int)).bmod 4294967296 = size.toNat :=
      Int.bmod_eq_of_le (by omega) (by omega)
    rw [UInt32.toInt32]
    simpa [Int32.toInt, Int32.toBitVec] using hbmod
  have hlow := disp.le_toInt
  have hhigh : disp.toInt + size.toNat < 2 ^ 31 := by
    have hnot := of_decide_eq_false h
    omega
  rw [rangeEnd, Int32.toInt_add, hsize]
  exact Int.bmod_eq_of_le (by omega) (by omega)

theorem apart_bytes {base : BitVec 64} {d e : Int32} (hd : endOverflows d p = false)
    (he : endOverflows e q = false) (hapart : rangesApart d p e q = true) {k l : Nat}
    (hk : k < p.toNat) (hl : l < q.toNat) :
    base + BitVec.ofInt 64 d.toInt + BitVec.ofNat 64 k ≠
      base + BitVec.ofInt 64 e.toInt + BitVec.ofNat 64 l := by
  intro heq
  have hints : BitVec.ofInt 64 (d.toInt + k) = BitVec.ofInt 64 (e.toInt + l) := by
    rw [BitVec.ofInt_add, BitVec.ofInt_add, BitVec.ofInt_natCast, BitVec.ofInt_natCast]
    rw [BitVec.add_assoc, BitVec.add_assoc] at heq
    exact (BitVec.add_right_inj base).mp heq
  have hmod := congrArg BitVec.toNat hints
  rw [BitVec.toNat_ofInt, BitVec.toNat_ofInt] at hmod
  have hd₁ := d.le_toInt
  have hd₂ := d.toInt_lt
  have he₁ := e.le_toInt
  have he₂ := e.toInt_lt
  have hp := p.toNat_lt
  have hq := q.toNat_lt
  rw [rangesApart, Bool.or_eq_true, decide_eq_true_eq, decide_eq_true_eq,
    Int32.le_iff_toInt_le, Int32.le_iff_toInt_le, rangeEnd_toInt hd, rangeEnd_toInt he] at hapart
  omega

theorem registerValue_base (word : V → BitVec 64) (hk : m.baseKey = some k) (s : State V) :
    registerValue word m.baseVreg m.basePreg s = word (s (.reg k)) := by
  unfold baseKey at hk
  unfold registerValue
  split at hk
  · rename_i hp
    rw [if_pos hp, ← some.inj hk]
  · rename_i hp
    split at hk
    · rename_i hv
      rw [if_neg hp, if_pos hv, ← some.inj hk]
    · exact absurd hk (by simp)

theorem registerValue_index (word : V → BitVec 64) (h : m.hasIndex = false) (s : State V) :
    registerValue word m.indexVreg m.indexPreg s = 0 := by
  rw [hasIndex, Bool.or_eq_false_iff] at h
  simp [registerValue, h.1, h.2]

theorem baseKey_mem_usesKeys (hx : x ∈ a.defs ++ a.uses) (hm : x.kind = .mem m)
    (hk : m.baseKey = some k) : k ∈ usesKeys a := by
  obtain ⟨hv, hp⟩ := address_keys hx hm
  unfold baseKey at hk
  split at hk
  · rename_i hvalid
    rw [← some.inj hk]
    exact hp _ (by simp [pregs, hvalid])
  · split at hk
    · rename_i hvalid
      rw [← some.inj hk]
      exact hv _ (by simp [vregs, hvalid])
    · exact absurd hk (by simp)

/-- The reference of an operand with another base than register 5. -/
def heapRef (m : LirMem) (size : UInt8) : MemoryRef :=
  { size := size, disp := m.disp, hasIndex := m.hasIndex, isHeapOrOther := true,
    hasBase := m.hasBase, baseVreg := m.baseVreg, basePreg := m.basePreg }

theorem memoryRef_heap (hm : x.kind = .mem m) (hframe : m.isFrame = false) :
    memoryRef x = some (heapRef m x.size) := by
  have hbase : ¬ m.basePreg = PReg.rbp := fun h => by
    rw [isFrame, h] at hframe
    exact absurd hframe (by simp)
  simp only [memoryRef, hm, if_neg hbase, heapRef]

/-- The reference of an operand with base register 5. -/
def frameRef (m : LirMem) (size : UInt8) : MemoryRef :=
  { size := size, disp := m.disp, hasIndex := m.hasIndex, isRbpSpill := true,
    rbpOffset := m.disp }

theorem memoryRef_frame (hm : x.kind = .mem m) (hframe : m.isFrame = true) :
    memoryRef x = some (frameRef m x.size) := by
  have hbase : m.basePreg = PReg.rbp := beq_iff_eq.mp hframe
  simp only [memoryRef, hm, if_pos hbase, frameRef]

theorem heapRef_apart (hno : refsMayAlias (heapRef m p) (heapRef n q) = false) :
    sameBase (heapRef m p) (heapRef n q) = true ∧ m.hasIndex = false ∧ n.hasIndex = false ∧
      rangesApart m.disp p n.disp q = true := by
  by_contra hcon
  simp only [refsMayAlias, heapRef, Bool.and_self, Bool.or_self, Bool.false_and, Bool.true_and,
    Bool.false_eq_true, if_false] at hno hcon
  split at hno
  · rename_i hall
    simp only [Bool.and_eq_true, Bool.not_eq_true'] at hall
    exact hcon ⟨hall.1.1, hall.1.2, hall.2, by simpa using hno⟩
  · exact absurd hno (by simp)

theorem baseKey_of_sameBase (hsame : sameBase (heapRef m p) (heapRef n q) = true) :
    m.hasBase = true ∧ ∃ k, m.baseKey = some k ∧ n.baseKey = some k := by
  rw [sameBase, Bool.and_eq_true, Bool.and_eq_true, Bool.or_eq_true, Bool.and_eq_true,
    Bool.and_eq_true, beq_iff_eq, beq_iff_eq] at hsame
  obtain ⟨⟨hbase, _⟩, hregs⟩ := hsame
  dsimp only [heapRef] at hbase hregs
  refine ⟨hbase, ?_⟩
  rcases hregs with ⟨hv, heq⟩ | ⟨hp, heq⟩
  · have hmp := m.oneBase hv
    have hnp := n.oneBase (heq ▸ hv)
    refine ⟨.vreg m.baseVreg.id, ?_, ?_⟩
    · rw [baseKey, if_neg (by rw [hmp]; simp), if_pos hv]
    · rw [baseKey, if_neg (by rw [hnp]; simp), ← heq, if_pos hv]
  · refine ⟨.preg m.basePreg.key, ?_, ?_⟩
    · rw [baseKey, if_pos hp]
    · rw [baseKey, ← heq, if_pos hp]

theorem baseKey_of_frame (hframe : m.isFrame = true) :
    m.hasBase = true ∧ m.baseKey = some (.preg PReg.rbp.key) := by
  have hbase : m.basePreg = PReg.rbp := beq_iff_eq.mp hframe
  have hvalid : PReg.rbp.isValid = true := by decide
  refine ⟨?_, ?_⟩
  · rw [hasBase, hbase, hvalid, Bool.or_true]
  · rw [baseKey, hbase, if_pos hvalid]

/-- Two operands the rule takes for apart, without being misjudged, have one base register, no
index, and displacement ranges that are apart and end within 32 bits. -/
theorem apart_of_not_alias (hm : x.kind = .mem m) (hn : y.kind = .mem n) {q : MemoryRef}
    (hr : memoryRef x = some r) (hq : memoryRef y = some q) (hno : refsMayAlias r q = false)
    (hmis : misjudged m x.size n y.size = false) :
    ∃ k, m.baseKey = some k ∧ n.baseKey = some k ∧ m.hasIndex = false ∧ n.hasIndex = false ∧
      rangesApart m.disp x.size n.disp y.size = true ∧
      endOverflows m.disp x.size = false ∧ endOverflows n.disp y.size = false := by
  rw [misjudged, Bool.or_eq_false_iff, Bool.or_eq_false_iff] at hmis
  obtain ⟨⟨hframe, hindex⟩, hover⟩ := hmis
  rw [bne_eq_false_iff_eq] at hframe
  cases hmf : m.isFrame with
  | true =>
      rw [hmf] at hframe
      obtain ⟨hbase, hmk⟩ := baseKey_of_frame hmf
      obtain ⟨_, hnk⟩ := baseKey_of_frame hframe.symm
      obtain rfl := some.inj (hr.symm.trans (memoryRef_frame hm hmf))
      obtain rfl := some.inj (hq.symm.trans (memoryRef_frame hn hframe.symm))
      have hapart : rangesApart m.disp x.size n.disp y.size = true := by
        simpa [refsMayAlias, frameRef] using hno
      simp only [hmf, Bool.true_and, hapart, Bool.and_true, Bool.or_eq_false_iff] at hindex
      simp only [hmk, hnk, decide_true, hbase, Bool.true_and, hapart, Bool.and_true,
        Bool.or_eq_false_iff] at hover
      exact ⟨_, hmk, hnk, hindex.1, hindex.2, hapart, hover.1, hover.2⟩
  | false =>
      rw [hmf] at hframe
      obtain rfl := some.inj (hr.symm.trans (memoryRef_heap hm hmf))
      obtain rfl := some.inj (hq.symm.trans (memoryRef_heap hn hframe.symm))
      obtain ⟨hsame, hmi, hni, hapart⟩ := heapRef_apart hno
      obtain ⟨hbase, k, hmk, hnk⟩ := baseKey_of_sameBase hsame
      simp only [hmk, hnk, decide_true, hbase, Bool.true_and, hapart, Bool.and_true,
        Bool.or_eq_false_iff] at hover
      exact ⟨k, hmk, hnk, hmi, hni, hapart, hover.1, hover.2⟩

theorem mem_locs {s : State V} (h : l ∈ x.locs word s) :
    (∃ m k, x.kind = .mem m ∧ k < x.size.toNat ∧ l = .byte (m.address word s + BitVec.ofNat 64 k)) ∨
      ∃ slot, x.kind = .spillSlot slot ∧ l = .slot slot := by
  cases hkind : x.kind with
  | mem m =>
      simp only [locs, hkind] at h
      obtain ⟨k, hk, hl⟩ := h
      exact .inl ⟨m, k, rfl, hk, hl⟩
  | spillSlot slot =>
      simp only [locs, hkind] at h
      exact .inr ⟨slot, rfl, h⟩
  | _ => simp [locs, hkind] at h

theorem reg_mem_writes {s : State V} (hk : k ≠ .flags) (h : Loc.reg k ∈ writes word arch c s) :
    isExclusive c = true ∨ k ∈ defsKeys c := by
  by_cases hexcl : isExclusive c = true
  · exact .inl hexcl
  · right
    rw [writes, if_neg hexcl] at h
    rcases h with (⟨_, heq⟩ | ⟨k', hk', heq⟩) | ⟨op, _, hl⟩ | ⟨_, hl⟩ | ⟨_, hl⟩
    · exact absurd (Loc.reg.inj heq) hk
    · exact Loc.reg.inj heq ▸ hk'
    · rcases mem_locs hl with ⟨_, _, _, _, heq⟩ | ⟨_, _, heq⟩
      · exact absurd heq (by simp)
      · exact absurd heq (by simp)
    · exact absurd hl (by simp [Loc.IsMemory])
    · exact absurd hl (by simp)

/-- Two users of a register that is written between them, or by the first, are chained through
the writer. -/
theorem writer_reach {s : State V} {k : Nat} {key : RegKey} (hik : i ≤ k) (hkj : k < j)
    (ha : insts[i]? = some a) (hb : insts[j]? = some b) (hc : insts[k]? = some c)
    (hka : key ∈ usesKeys a) (hkb : key ∈ usesKeys b) (hw : Loc.reg key ∈ writes word arch c s) :
    (buildDag insts arch).Reach i j := by
  have hflags : key ≠ .flags := fun h => flags_not_mem_usesKeys a (h ▸ hka)
  rcases reg_mem_writes hflags hw with hexcl | hdef
  · rcases exclusive_cases hexcl with hfull | hterm
    · have hkj' : (buildDag insts arch).Reach k j := full_reach hkj hc hb (.inl hfull)
      rcases Nat.eq_or_lt_of_le hik with rfl | hlt
      · exact hkj'
      · exact (full_reach hlt ha hc (.inr hfull)).trans hkj'
    · exact terminated_reach (Nat.lt_of_le_of_lt hik hkj) hb hkj.le hc hterm
  · have hkj' : (buildDag insts arch).Reach k j :=
      register_reach hkj hc hb (.inl ⟨hdef, .inl hkb⟩)
    rcases Nat.eq_or_lt_of_le hik with rfl | hlt
    · exact hkj'
    · exact (register_reach hlt ha hc (.inr ⟨hka, hdef⟩)).trans hkj'

theorem address_of_base (hk : m.baseKey = some k) (hindex : m.hasIndex = false) (s : State V) :
    m.address word s = word (s (.reg k)) + BitVec.ofInt 64 m.disp.toInt := by
  rw [address, registerValue_base word hk, registerValue_index word hindex]
  simp

/-- Two operands off one base register that is not written in between do not overlap when
their displacement ranges are apart. -/
theorem byte_ne_of_apart (word : V → BitVec 64) {key : RegKey} {si sj : State V}
    (hmk : m.baseKey = some key) (hnk : n.baseKey = some key) (hmi : m.hasIndex = false)
    (hni : n.hasIndex = false) (hapart : rangesApart m.disp p n.disp q = true)
    (hmo : endOverflows m.disp p = false) (hno : endOverflows n.disp q = false)
    (hkeep : sj (.reg key) = si (.reg key)) {k l : Nat} (hk : k < p.toNat) (hl : l < q.toNat) :
    m.address word si + BitVec.ofNat 64 k ≠ n.address word sj + BitVec.ofNat 64 l := by
  rw [address_of_base hmk hmi, address_of_base hnk hni, hkeep]
  exact apart_bytes hmo hno hapart hk hl

theorem overlap_reach {M : LirMachine α V arch} {s : State V} (hs : NoMisjudgedOverlap M insts s)
    (hij : i < j) (ha : insts[i]? = some a) (hb : insts[j]? = some b) {si sj : State V}
    (hsi : M.run (insts.take i) s = some si) (hsj : M.run (insts.take j) s = some sj)
    (hx : x ∈ a.defs ++ a.uses) (hy : y ∈ b.defs ++ b.uses) (hwrite : x ∈ a.defs ∨ y ∈ b.defs)
    (hlx : l ∈ x.locs M.word si) (hly : l ∈ y.locs M.word sj) :
    (buildDag insts arch).Reach i j := by
  rcases mem_locs hlx with ⟨m, p, hm, hp, hlm⟩ | ⟨slot, hm, hlm⟩
  · rcases mem_locs hly with ⟨n, q, hn, hq, hln⟩ | ⟨slot, hn, hln⟩
    · obtain ⟨r, hr⟩ : ∃ r, memoryRef x = some r := by
        cases hf : m.isFrame with
        | true => exact ⟨_, memoryRef_frame hm hf⟩
        | false => exact ⟨_, memoryRef_heap hm hf⟩
      obtain ⟨r', hr'⟩ : ∃ r', memoryRef y = some r' := by
        cases hf : n.isFrame with
        | true => exact ⟨_, memoryRef_frame hn hf⟩
        | false => exact ⟨_, memoryRef_heap hn hf⟩
      cases halias : refsMayAlias r r' with
      | true => exact alias_reach hij ha hb hx hy hwrite hr hr' halias
      | false =>
          have hmis : misjudged m x.size n y.size = false := by
            by_contra hmis
            exact hs i j a b si sj hij ha hb hsi hsj x hx y hy hwrite m n hm hn
              (Bool.eq_true_of_not_eq_false hmis) l hlx hly
          obtain ⟨key, hmk, hnk, hmi, hni, hapart, hmo, hno⟩ :=
            apart_of_not_alias hm hn hr hr' halias hmis
          have hka := baseKey_mem_usesKeys hx hm hmk
          have hkb := baseKey_mem_usesKeys hy hn hnk
          have hjlen : (insts.take j).length = j :=
            length_take_of_le (lt_length hb).le
          obtain ⟨σ, hzero, hend, hσ⟩ := run_states hsj
          rw [hjlen] at hend
          have htake : (insts.take j).take i = insts.take i := by
            rw [take_take, Nat.min_eq_left hij.le]
          have hσi : σ i = si := by
            have hrun := hσ.run_take (k := i) (by omega)
            rw [htake, hzero] at hrun
            exact some.inj (hrun.symm.trans hsi)
          by_cases hwriter : ∃ k c, i ≤ k ∧ k < j ∧ insts[k]? = some c ∧
              Loc.reg key ∈ writes M.word arch c (σ k)
          · obtain ⟨k, c, hik, hkj, hc, hw⟩ := hwriter
            exact writer_reach hik hkj ha hb hc hka hkb hw
          · -- the base is the same at both, so the displacements tell the accesses apart
            have hkeep : σ j (.reg key) = σ i (.reg key) := by
              refine hσ.unchanged hij.le hjlen.ge fun k c hik hkj hc hw => ?_
              rw [getElem?_take_of_lt hkj] at hc
              exact hwriter ⟨k, c, hik, hkj, hc, hw⟩
            rw [hend, hσi] at hkeep
            have hne := byte_ne_of_apart M.word hmk hnk hmi hni hapart hmo hno hkeep hp hq
            exact absurd (Loc.byte.inj (hlm.symm.trans hln)) hne
    · exact absurd (hlm.symm.trans hln) (by simp)
  · rcases mem_locs hly with ⟨n, q, hn, hq, hln⟩ | ⟨slot', hn, hln⟩
    · exact absurd (hlm.symm.trans hln) (by simp)
    · obtain rfl := Loc.slot.inj (hlm.symm.trans hln)
      have hr : memoryRef x = some { isSpillSlot := true, spillSlotIdx := slot, size := x.size } := by
        simp only [memoryRef, hm]
      have hr' : memoryRef y = some { isSpillSlot := true, spillSlotIdx := slot, size := y.size } := by
        simp only [memoryRef, hn]
      exact alias_reach hij ha hb hx hy hwrite hr hr' (by simp [refsMayAlias])

end Memory

/-! ## Every conflict keeps its order -/

theorem Conflicts.reach {M : LirMachine α V arch} {insts : List (LirInst α)} {s : State V}
    {i j : Nat} (hs : NoMisjudgedOverlap M insts s) (hij : i < j)
    (h : Conflicts M insts s i j) : (buildDag insts arch).Reach i j := by
  cases h with
  | register ha hb hk => exact register_reach hij ha hb hk
  | flags ha hb hf => exact flags_reach hij ha hb hf
  | memory ha hb hsi hsj hx hy hwrite hlx hly =>
      exact overlap_reach hs hij ha hb hsi hsj hx hy hwrite hlx hly
  | barriers ha hb hbar =>
      rw [buildDag_eq]
      exact barriers_reach _ (node_of_get ha hbar.1 (dataDag_extends insts arch))
        (node_of_get hb hbar.2 (dataDag_extends insts arch)) hij.le (size_lt hb)
  | fullBarrier ha hb hfull => exact full_reach hij ha hb hfull
  | call ha hb hcall =>
      rw [buildDag_eq]
      refine call_reach _ hij (size_lt hb) ?_
      have hext := dataDag_extends insts arch
      rcases hcall with ⟨hcall, hmem⟩ | ⟨hmem, hcall⟩
      · exact .inl ⟨node_of_get ha hcall hext,
          hmem.imp (fun h => node_of_get hb h hext) fun h => node_of_get hb h hext⟩
      · exact .inr ⟨hmem.imp (fun h => node_of_get ha h hext) fun h => node_of_get ha h hext,
          node_of_get hb hcall hext⟩
  | terminator hb htj hc hterm => exact terminated_reach hij hb htj hc hterm

theorem Conflicts.lt_length {M : LirMachine α V arch} {insts : List (LirInst α)} {s : State V}
    {i j : Nat} (h : Conflicts M insts s i j) : j < insts.length := by
  cases h <;> exact Codegen.lt_length (by assumption)

/-! ## Footprints that meet -/

/-- Why an instruction writes something another touches. -/
inductive Meets (word : V → BitVec 64) (arch : Arch) (a b : LirInst α) (sa sb : State V) : Prop
  | exclusive (h : isExclusive a = true ∨ isExclusive b = true)
  | register {k : RegKey} (hd : k ∈ defsKeys a) (hu : k ∈ usesKeys b ∨ k ∈ defsKeys b)
  | flags (hw : lirWritesFlags a arch = true)
      (hr : lirReadsFlags b = true ∨ lirWritesFlags b arch = true)
  | memory {x y : LirOperand} {l : Loc} (hx : x ∈ a.defs) (hy : y ∈ b.defs ++ b.uses)
      (hlx : l ∈ x.locs word sa) (hly : l ∈ y.locs word sb)
  | call (h : (a.isCall = true ∧
        (instructionReadsMemory b = true ∨ instructionWritesMemory b = true)) ∨
      ((instructionReadsMemory a = true ∨ instructionWritesMemory a = true) ∧ b.isCall = true))
  | barriers (ha : isSchedulingBarrier a = true) (hb : isSchedulingBarrier b = true)

theorem accessesMemory_of_locs {s : State V} {x : LirOperand} (h : l ∈ x.locs word s) :
    x.accessesMemory = true ∧ l.IsMemory := by
  rcases mem_locs h with ⟨m, _, hm, _, rfl⟩ | ⟨slot, hm, rfl⟩
  · exact ⟨by simp [accessesMemory, isMem, hm], trivial⟩
  · exact ⟨by simp [accessesMemory, isSpillSlot, hm], trivial⟩

theorem not_isMemory_reg (k : RegKey) : ¬ (Loc.reg k).IsMemory := id

theorem reg_of_mem_regReads {b : LirInst α} (h : l ∈ regReads b arch) : ∃ k, l = .reg k := by
  rcases h with ⟨k, _, rfl⟩ | ⟨_, rfl⟩ | ⟨_, rfl⟩ | ⟨k, _, rfl⟩
  · exact ⟨k, rfl⟩
  · exact ⟨_, rfl⟩
  · exact ⟨_, rfl⟩
  · exact ⟨k, rfl⟩

theorem meets_of_mem {a b : LirInst α} {sa sb : State V} (hw : l ∈ writes word arch a sa)
    (ht : l ∈ touches word arch b sb) :
    Meets word arch a b sa sb := by
  by_cases hea : isExclusive a = true
  · exact .exclusive (.inl hea)
  by_cases heb : isExclusive b = true
  · exact .exclusive (.inr heb)
  rw [writes, if_neg hea] at hw
  rw [touches, if_neg heb] at ht
  -- by what the first writes: a register, memory through an operand, memory or state of a barrier
  rcases hw with hreg | ⟨x, hx, hlx⟩ | hbar
  · have hkey : ∃ k, l = .reg k := by
      rcases hreg with ⟨_, rfl⟩ | ⟨k, _, rfl⟩
      · exact ⟨_, rfl⟩
      · exact ⟨_, rfl⟩
    obtain ⟨k, rfl⟩ := hkey
    rcases ht with hread | ⟨y, _, hly⟩ | (⟨_, hmem⟩ | ⟨_, heq⟩) | heq
    · rcases hreg with ⟨hwf, heq⟩ | ⟨k', hk', heq⟩
      · obtain rfl := Loc.reg.inj heq
        rcases hread with ⟨k', hk', heq'⟩ | ⟨hrf, _⟩ | ⟨hwf', _⟩ | ⟨k', hk', heq'⟩
        · exact absurd (Loc.reg.inj heq' ▸ hk') (flags_not_mem_usesKeys b)
        · exact .flags hwf (.inl hrf)
        · exact .flags hwf (.inr hwf')
        · exact absurd (Loc.reg.inj heq' ▸ hk') (flags_not_mem_defsKeys b)
      · obtain rfl := Loc.reg.inj heq
        have hflags : k ≠ .flags := fun h => flags_not_mem_defsKeys a (h ▸ hk')
        rcases hread with ⟨k', hk'', heq'⟩ | ⟨_, heq'⟩ | ⟨_, heq'⟩ | ⟨k', hk'', heq'⟩
        · exact .register hk' (.inl (Loc.reg.inj heq' ▸ hk''))
        · exact absurd (Loc.reg.inj heq') hflags
        · exact absurd (Loc.reg.inj heq') hflags
        · exact .register hk' (.inr (Loc.reg.inj heq' ▸ hk''))
    · exact absurd (accessesMemory_of_locs hly).2 (not_isMemory_reg k)
    · exact absurd hmem (not_isMemory_reg k)
    · exact absurd heq (by simp)
    · exact absurd heq (by simp)
  · obtain ⟨hxm, hmem⟩ := accessesMemory_of_locs hlx
    rcases ht with hread | ⟨y, hy, hly⟩ | (⟨hcall, _⟩ | ⟨_, rfl⟩) | rfl
    · obtain ⟨k, rfl⟩ := reg_of_mem_regReads hread
      exact absurd hmem (not_isMemory_reg k)
    · exact .memory hx hy hlx hly
    · exact .call (.inr ⟨accesses_of_mem (mem_append_left _ hx) hxm, hcall⟩)
    · exact absurd hmem id
    · exact absurd hmem id
  · rcases hbar with ⟨hcall, hmem⟩ | ⟨hbar, rfl⟩
    · rcases ht with hread | ⟨y, hy, hly⟩ | (⟨hcall', _⟩ | ⟨_, rfl⟩) | rfl
      · obtain ⟨k, rfl⟩ := reg_of_mem_regReads hread
        exact absurd hmem (not_isMemory_reg k)
      · exact .call (.inl ⟨hcall, accesses_of_mem hy (accessesMemory_of_locs hly).1⟩)
      · exact .barriers (isSchedulingBarrier_of_isCall hcall) (isSchedulingBarrier_of_isCall hcall')
      · exact absurd hmem id
      · exact absurd hmem id
    · rcases ht with hread | ⟨y, hy, hly⟩ | (⟨_, hmem⟩ | ⟨hbar', _⟩) | heq
      · obtain ⟨k, heq⟩ := reg_of_mem_regReads hread
        exact absurd heq (by simp)
      · exact absurd (accessesMemory_of_locs hly).2 id
      · exact absurd hmem id
      · exact .barriers hbar hbar'
      · exact absurd heq (by simp)

section Runs

variable {M : LirMachine α V arch} {insts : List (LirInst α)} {s : State V} {i j : Nat}
  {a b : LirInst α} {si sj : State V}

theorem conflicts_of_exclusive (hij : i < j) (ha : insts[i]? = some a)
    (hb : insts[j]? = some b) (h : isExclusive a = true ∨ isExclusive b = true) :
    Conflicts M insts s i j := by
  rcases h with h | h
  · rcases exclusive_cases h with hfull | hterm
    · exact .fullBarrier ha hb (.inl hfull)
    · exact .terminator hb hij.le ha hterm
  · rcases exclusive_cases h with hfull | hterm
    · exact .fullBarrier ha hb (.inr hfull)
    · exact .terminator hb (Nat.le_refl j) hb hterm

theorem conflicts_of_meets (hij : i < j) (ha : insts[i]? = some a) (hb : insts[j]? = some b)
    (hsi : M.run (insts.take i) s = some si) (hsj : M.run (insts.take j) s = some sj)
    (h : Meets M.word arch a b si sj ∨ Meets M.word arch b a sj si) :
    Conflicts M insts s i j := by
  rcases h with h | h
  · cases h with
    | exclusive h => exact conflicts_of_exclusive hij ha hb h
    | register hd hu => exact .register ha hb (.inl ⟨hd, hu⟩)
    | flags hw hr => exact .flags ha hb (.inl ⟨hw, hr⟩)
    | memory hx hy hlx hly =>
        exact .memory ha hb hsi hsj (mem_append_left _ hx) hy (.inl hx) hlx hly
    | call h => exact .call ha hb h
    | barriers h₁ h₂ => exact .barriers ha hb ⟨h₁, h₂⟩
  · cases h with
    | exclusive h => exact conflicts_of_exclusive hij ha hb h.symm
    | register hd hu =>
        rcases hu with hu | hd'
        · exact .register ha hb (.inr ⟨hu, hd⟩)
        · exact .register ha hb (.inl ⟨hd', .inr hd⟩)
    | flags hw hr =>
        rcases hr with hr | hw'
        · exact .flags ha hb (.inr ⟨hr, hw⟩)
        · exact .flags ha hb (.inl ⟨hw', .inr hw⟩)
    | memory hx hy hlx hly =>
        exact .memory ha hb hsi hsj hy (mem_append_left _ hx) (.inr hx) hly hlx
    | call h => exact .call ha hb (h.symm.imp And.symm And.symm)
    | barriers h₁ h₂ => exact .barriers ha hb ⟨h₂, h₁⟩

/-- Positions of a run whose footprints meet conflict. -/
theorem conflicts_of_not_free {σ : Nat → State V}
    (hσ : Footprint.StatesOf M.toMachine insts σ) (hij : i < j) (hj : j < insts.length)
    (hmeet : ¬ Footprint.Free (footprint M.toMachine.touches insts σ)
      (footprint M.toMachine.writes insts σ) i j) :
    Conflicts M insts (σ 0) i j := by
  obtain ⟨a, ha⟩ : ∃ a, insts[i]? = some a := ⟨_, getElem?_eq_getElem (hij.trans hj)⟩
  obtain ⟨b, hb⟩ : ∃ b, insts[j]? = some b := ⟨_, getElem?_eq_getElem hj⟩
  refine conflicts_of_meets hij ha hb (hσ.run_take (hij.trans hj).le) (hσ.run_take hj.le) ?_
  by_contra hnone
  apply hmeet
  refine ⟨fun l hw ht => hnone (.inl ?_), fun l hw ht => hnone (.inr ?_)⟩
  · rw [footprint_eq ha] at hw
    rw [footprint_eq hb] at ht
    exact meets_of_mem hw ht
  · rw [footprint_eq hb] at hw
    rw [footprint_eq ha] at ht
    exact meets_of_mem hw ht

end Runs

/-! ## Scheduling -/

/-- General registers of a target by number. -/
def gpr (n : UInt8) : PReg := { regClass := .gpr, code := n }

/-- `str x0, [p]` before `ldr x1, [q, disp]`. -/
def storeThenLoad (p q : LirMem) : List (LirInst Unit) :=
  [{ opcode := .mov, defs := [⟨.mem p, 8⟩], uses := [⟨.preg (gpr 0), 8⟩], rest := () },
   { opcode := .mov, defs := [⟨.preg (gpr 1), 8⟩], uses := [⟨.mem q, 8⟩], rest := () }]

/-- `x0` is one, the other registers hold one address and the memory is zero. -/
def oneAddress : State (BitVec 64)
  | .reg (.preg k) => if k = 0 then 1 else 4096
  | _ => 0

def postRa : SchedOptions := { enablePostRa := true }

end Brass.Codegen
