import Brass.Vm.BytecodeRegalloc
import Mathlib.Data.List.Dedup

/-!
# Liveness in a laid out function

The points of a function are the starts of its blocks, where the parameters are defined, and its
instructions; the ways on are the branches, and from a guard to its resume block (`flow`). What
the verifier asks of a function is `Verified`. The walk back from the uses of a value marks the
blocks at whose start it is live (`mem_liveIn_iff`), and its hull takes in every position where
it is live or written (`hull_of_held`).
-/

namespace Brass.Vm.BytecodeRegalloc

open Brass.Util List

/-! ## Points -/

/-- A block and a place in it: 0 for the block's start, then the instructions. -/
abbrev Point := Nat × Nat

section Flow

variable (fn : Function)

def instAt (p : Point) : Option Instruction :=
  match p.2 with
  | 0 => none
  | k + 1 => (fn.block p.1).insts[k]?

/-- An instruction does not read its own result: an invoke's edges pass it on after the call. -/
def Reads (p : Point) (v : Nat) : Prop :=
  ∃ inst, instAt fn p = some inst ∧ v ∈ readsOf inst ∧ inst.result ≠ some v

def Defines (p : Point) (v : Nat) : Prop :=
  (p.2 = 0 ∧ v ∈ (fn.block p.1).params) ∨ ∃ inst, instAt fn p = some inst ∧ inst.result = some v

/-- On to the next instruction, or along a branch. -/
def Branches (p q : Point) : Prop :=
  (q = (p.1, p.2 + 1) ∧ p.2 < (fn.block p.1).insts.length) ∨
    ∃ inst, instAt fn p = some inst ∧ ∃ t ∈ inst.targets, q = (t.block, 0)

def Resumes (p q : Point) : Prop :=
  ∃ inst, instAt fn p = some inst ∧ ∃ r, fn.resumeOf inst = some r ∧ q = (r, 0)

def branchFlow : PointFlow Point Nat := ⟨Branches fn, Reads fn, Defines fn⟩

/-- The flow with the failing guards that re-enter the frame. -/
def flow : PointFlow Point Nat :=
  ⟨fun p q => Branches fn p q ∨ Resumes fn p q, Reads fn, Defines fn⟩

def pos (p : Point) : Nat := blockStart fn p.1 + p.2

/-- What the verifier asks of a function. A value that is live into the resume block of a guard
without an exit stub is one of the guard's state values. -/
structure Verified : Prop where
  inBlock : ∀ b j k v, Reads fn (b, k) v → Defines fn (b, j) v → j < k
  ownResult : ∀ p inst, instAt fn p = some inst → ∀ v ∈ inst.operands ++ inst.stateMap,
    inst.result ≠ some v
  closing : ∀ b k inst, instAt fn (b, k) = some inst → inst.targets ≠ [] →
    k = (fn.block b).insts.length
  args : ∀ p inst, instAt fn p = some inst → ∀ t ∈ inst.targets,
    t.args.length = (fn.block t.block).params.length
  guardResult : ∀ p inst, instAt fn p = some inst → inst.opcode = .guard → inst.result = none
  state : ∀ p inst r, instAt fn p = some inst → fn.resumeOf inst = some r →
    inst.exitStub = false → (fn.block r).params.length ≤ inst.stateMap.length ∧
      ∀ v, (branchFlow fn).Live v (r, 0) → v ∈ inst.stateMap

/-- No guard has both an exit stub and a resume block. -/
def NoStubResumes : Prop :=
  ∀ p inst, instAt fn p = some inst → inst.exitStub = true → fn.resumeOf inst = none

end Flow

variable {fn : Function} {layout : BlockLayout} {b c d j k u v : Nat} {p q : Point}
  {inst : Instruction}

/-! ## Edges -/

theorem mem_foldl_addEdge {l : List Nat} {s : List Nat} :
    c ∈ l.foldl addEdge s ↔ c ∈ s ∨ c ∈ l := by
  induction l generalizing s with
  | nil => simp
  | cons a l ih =>
    rw [foldl_cons, ih, addEdge]
    split
    · rename_i ha
      constructor
      · rintro (h | h)
        · exact .inl h
        · exact .inr (mem_cons_of_mem _ h)
      · rintro (h | h)
        · exact .inl h
        · rcases mem_cons.1 h with rfl | h
          · exact .inl ha
          · exact .inr h
    · simp only [mem_append, mem_cons]
      tauto

theorem mem_blockSuccs : c ∈ blockSuccs fn b ↔
    ∃ inst ∈ (fn.block b).insts, c ∈ fn.edgesOf inst := by
  rw [blockSuccs, mem_foldl_addEdge, mem_flatMap]
  simp

theorem mem_edgesOf : c ∈ fn.edgesOf inst ↔
    (∃ t ∈ inst.targets, t.block = c) ∨ fn.resumeOf inst = some c := by
  rw [Function.edgesOf, mem_append, mem_map, Option.mem_toList]

theorem instAt_mem (h : instAt fn p = some inst) : inst ∈ (fn.block p.1).insts := by
  unfold instAt at h
  split at h
  · cases h
  · exact mem_of_getElem? h

theorem instAt_le (h : instAt fn p = some inst) : 0 < p.2 ∧ p.2 ≤ (fn.block p.1).insts.length := by
  unfold instAt at h
  split at h
  · cases h
  · rename_i k hk
    have := (List.getElem?_eq_some_iff.1 h).1
    omega

theorem exists_instAt (h : inst ∈ (fn.block b).insts) : ∃ k, instAt fn (b, k) = some inst := by
  obtain ⟨k, hk⟩ := mem_iff_getElem?.1 h
  exact ⟨k + 1, hk⟩

theorem mem_blockSuccs_iff : c ∈ blockSuccs fn b ↔
    ∃ k, (∃ inst, instAt fn (b, k) = some inst ∧ ∃ t ∈ inst.targets, t.block = c) ∨
      Resumes fn (b, k) (c, 0) := by
  rw [mem_blockSuccs]
  constructor
  · rintro ⟨inst, hmem, hedge⟩
    obtain ⟨k, hk⟩ := exists_instAt hmem
    rcases mem_edgesOf.1 hedge with ht | hr
    · exact ⟨k, .inl ⟨inst, hk, ht⟩⟩
    · exact ⟨k, .inr ⟨inst, hk, c, hr, rfl⟩⟩
  · rintro ⟨k, ⟨inst, hk, ht⟩ | ⟨inst, hk, r, hr, heq⟩⟩
    · exact ⟨inst, instAt_mem hk, mem_edgesOf.2 (.inl ht)⟩
    · obtain rfl := (Prod.mk.inj heq).1
      exact ⟨inst, instAt_mem hk, mem_edgesOf.2 (.inr hr)⟩

theorem flow_to_start (h : c ∈ blockSuccs fn b) : ∃ k, (flow fn).next (b, k) (c, 0) := by
  obtain ⟨k, ⟨inst, hk, t, ht, rfl⟩ | hr⟩ := mem_blockSuccs_iff.1 h
  · exact ⟨k, .inl (.inr ⟨inst, hk, t, ht, rfl⟩)⟩
  · exact ⟨k, .inr hr⟩

theorem flow_next (h : (flow fn).next p q) :
    q = (p.1, p.2 + 1) ∨ (q.2 = 0 ∧ q.1 ∈ blockSuccs fn p.1) := by
  rcases h with (⟨h, -⟩ | ⟨inst, hk, t, ht, rfl⟩) | hr
  · exact .inl h
  · exact .inr ⟨rfl, mem_blockSuccs_iff.2 ⟨p.2, .inl ⟨inst, hk, t, ht, rfl⟩⟩⟩
  · obtain ⟨inst, hk, r, hres, rfl⟩ := hr
    exact .inr ⟨rfl, mem_blockSuccs_iff.2 ⟨p.2, .inr ⟨inst, hk, r, hres, rfl⟩⟩⟩

theorem opcode_of_resumeOf (h : fn.resumeOf inst = some c) : inst.opcode = .guard := by
  unfold Function.resumeOf at h
  split at h
  · assumption
  · cases h

theorem Verified.reads_of_resumes (hv : Verified fn) (hstub : NoStubResumes fn)
    (hr : Resumes fn p q) (h : (branchFlow fn).Live v q) : Reads fn p v := by
  obtain ⟨inst, hk, r, hres, rfl⟩ := hr
  have hguard := opcode_of_resumeOf hres
  have hnot : inst.exitStub = false := by
    by_contra hs
    rw [hstub p inst hk (by simpa using hs)] at hres
    cases hres
  refine ⟨inst, hk, ?_, by rw [hv.guardResult p inst hk hguard]; simp⟩
  simp [readsOf, (hv.state p inst r hk hres hnot).2 v h]

theorem Verified.live_branchFlow (hv : Verified fn) (hstub : NoStubResumes fn)
    (h : (flow fn).Live v p) : (branchFlow fn).Live v p := by
  refine PointFlow.Live.of_more_ways (G := flow fn) (fun _ => id) (fun _ => id) (fun p q hn => ?_) h
  rcases (hn : Branches fn p q ∨ Resumes fn p q) with hn | hr
  · exact .inl hn
  · exact .inr (hv.reads_of_resumes hstub hr)

/-- A value is not live in its block before it is defined. -/
theorem Verified.not_live_before (hv : Verified fn) (hstub : NoStubResumes fn)
    (hd : Defines fn (b, j) v) (hk : k ≤ j) : ¬ (flow fn).Live v (b, k) := by
  intro h
  generalize hp : (b, k) = p at h
  induction h generalizing k with
  | read hr =>
    subst hp
    exact absurd (hv.inBlock b j k v hr hd) (by omega)
  | @step p q hnot hn hlive ih =>
    subst hp
    have hne : k ≠ j := fun heq => hnot (heq ▸ hd)
    rcases hn with (⟨rfl, -⟩ | ⟨inst, hat, t, ht, rfl⟩) | hr
    · exact ih (by omega : k + 1 ≤ j) rfl
    · have hlast := hv.closing b k inst hat (ne_nil_of_mem ht)
      have hle : j ≤ (fn.block b).insts.length := by
        rcases hd with ⟨h0, -⟩ | ⟨inst', hat', -⟩
        · exact (Nat.le_of_eq h0).trans (Nat.zero_le _)
        · exact (instAt_le hat').2
      omega
    · have hread := hv.reads_of_resumes hstub hr (hv.live_branchFlow hstub hlive)
      exact absurd (hv.inBlock b j k v hread hd) (by omega)

/-- Live at a place of a block is live at every earlier place from which nothing defines it. -/
theorem live_back (h : (flow fn).Live v (b, k)) (hk : k ≤ (fn.block b).insts.length) (hjk : j ≤ k)
    (hnot : ∀ i, j ≤ i → i < k → ¬ Defines fn (b, i) v) : (flow fn).Live v (b, j) := by
  induction k with
  | zero =>
    obtain rfl := Nat.le_zero.1 hjk
    exact h
  | succ k ih =>
    rcases Nat.eq_or_lt_of_le hjk with rfl | hlt
    · exact h
    · have hstep : (flow fn).Live v (b, k) :=
        .step (hnot k (by omega) (by omega)) (.inl (.inl ⟨rfl, hk⟩)) h
      exact ih hstep (by omega) (by omega) fun i hi hik => hnot i hi (by omega)

/-! ## Definitions and uses -/

variable {i : ValueInfo}

theorem block_of_ge (h : fn.blocks.length ≤ b) : fn.block b = {} := by
  rw [Function.block, getD_eq_getElem?_getD, getElem?_eq_none h]
  rfl

theorem not_reads_of_ge (h : fn.blocks.length ≤ b) : ¬ Reads fn (b, k) v := by
  rintro ⟨inst, hat, -⟩
  have hmem := instAt_mem hat
  rw [block_of_ge h] at hmem
  cases hmem

theorem not_defines_of_ge (h : fn.blocks.length ≤ b) : ¬ Defines fn (b, k) v := by
  rintro (⟨-, hmem⟩ | ⟨inst, hat, -⟩)
  · rw [block_of_ge h] at hmem
    cases hmem
  · have hmem := instAt_mem hat
    rw [block_of_ge h] at hmem
    cases hmem

/-- The info of a value is about the point that defines it. -/
structure Describes (fn : Function) (i : ValueInfo) (k : Nat) : Prop where
  defines : Defines fn (i.defBlock, k) i.value
  defPos : i.defPos = blockStart fn i.defBlock + k
  lt : i.defBlock < fn.blocks.length

theorem mem_paramInfos : i ∈ paramInfos fn b ↔ ∃ r v, (fn.block b).params[r]? = some v ∧
      i = define v b (blockStart fn b) (if b = 0 then some r else none) := by
  rw [paramInfos, mem_map]
  constructor
  · rintro ⟨⟨v, r⟩, hmem, rfl⟩
    exact ⟨r, v, mem_zipIdx_iff_getElem?.1 hmem, rfl⟩
  · rintro ⟨r, v, hv, rfl⟩
    exact ⟨(v, r), mem_zipIdx_iff_getElem?.2 hv, rfl⟩

theorem mem_resultInfos : i ∈ resultInfos fn b ↔
    ∃ k inst v, (fn.block b).insts[k]? = some inst ∧ inst.result = some v ∧
      i = define v b (blockStart fn b + 1 + k) none := by
  rw [resultInfos, mem_filterMap]
  constructor
  · rintro ⟨⟨inst, k⟩, hmem, hres⟩
    obtain ⟨v, hv, rfl⟩ := Option.map_eq_some_iff.1 hres
    exact ⟨k, inst, v, mem_zipIdx_iff_getElem?.1 hmem, hv, rfl⟩
  · rintro ⟨k, inst, v, hk, hv, rfl⟩
    exact ⟨(inst, k), mem_zipIdx_iff_getElem?.2 hk, by simp [hv]⟩

theorem exists_describes (h : i ∈ definitions fn) : ∃ k, Describes fn i k := by
  obtain ⟨b, hb, hi⟩ := mem_flatMap.1 h
  rcases mem_append.1 hi with hi | hi
  · obtain ⟨r, v, hv, rfl⟩ := mem_paramInfos.1 hi
    exact ⟨0, .inl ⟨rfl, mem_of_getElem? hv⟩, rfl, mem_range.1 hb⟩
  · obtain ⟨k, inst, v, hk, hv, rfl⟩ := mem_resultInfos.1 hi
    exact ⟨k + 1, .inr ⟨inst, hk, hv⟩, by simp [define]; omega, mem_range.1 hb⟩

theorem exists_definition (h : Defines fn (b, k) v) :
    ∃ i ∈ definitions fn, i.value = v ∧ i.defBlock = b ∧ i.defPos = blockStart fn b + k := by
  have hb : b < fn.blocks.length := by
    by_contra hge
    exact not_defines_of_ge (by omega) h
  have hmem : ∀ i, i ∈ paramInfos fn b ∨ i ∈ resultInfos fn b → i ∈ definitions fn := fun i hi =>
    mem_flatMap.2 ⟨b, mem_range.2 hb, mem_append.2 hi⟩
  rcases h with ⟨h0, hv⟩ | ⟨inst, hat, hres⟩
  · obtain ⟨r, hr⟩ := mem_iff_getElem?.1 hv
    obtain rfl : k = 0 := h0
    exact ⟨_, hmem _ (.inl (mem_paramInfos.2 ⟨r, v, hr, rfl⟩)), rfl, rfl, rfl⟩
  · obtain ⟨hpos, -⟩ := instAt_le hat
    obtain ⟨m, rfl⟩ : ∃ m, k = m + 1 := ⟨k - 1, by dsimp only at hpos; omega⟩
    refine ⟨_, hmem _ (.inr (mem_resultInfos.2 ⟨m, inst, v, hat, hres, rfl⟩)), rfl, rfl, ?_⟩
    simp [define]
    omega

theorem mem_blockUses {x : Use} : x ∈ blockUses fn b ↔
    ∃ k inst, (fn.block b).insts[k]? = some inst ∧ x.value ∈ readsOf inst ∧
      x.block = b ∧ x.pos = blockStart fn b + 1 + k := by
  rw [blockUses, mem_flatMap]
  constructor
  · rintro ⟨⟨inst, k⟩, hmem, hx⟩
    obtain ⟨v, hv, rfl⟩ := mem_map.1 hx
    exact ⟨k, inst, mem_zipIdx_iff_getElem?.1 hmem, hv, rfl, rfl⟩
  · rintro ⟨k, inst, hk, hv, hb, hpos⟩
    refine ⟨(inst, k), mem_zipIdx_iff_getElem?.2 hk, mem_map.2 ⟨x.value, hv, ?_⟩⟩
    cases x
    simp_all

/-- A use of a value is a read of it, save for the use of an instruction's own result. -/
theorem reads_of_use {x : Use} (hx : x ∈ blockUses fn b) :
    ∃ k, x.pos = blockStart fn b + k ∧ 0 < k ∧ k ≤ (fn.block b).insts.length ∧
      (Reads fn (b, k) x.value ∨ Defines fn (b, k) x.value) := by
  obtain ⟨k, inst, hk, hv, -, hpos⟩ := mem_blockUses.1 hx
  have hlt := (List.getElem?_eq_some_iff.1 hk).1
  refine ⟨k + 1, by omega, by omega, by omega, ?_⟩
  by_cases hres : inst.result = some x.value
  · exact .inr (.inr ⟨inst, hk, hres⟩)
  · exact .inl ⟨inst, hk, hv, hres⟩

theorem exists_use (h : Reads fn (b, k) v) :
    ∃ x ∈ blockUses fn b, x.value = v ∧ x.pos = blockStart fn b + k := by
  obtain ⟨inst, hat, hv, -⟩ := h
  obtain ⟨hpos, -⟩ := instAt_le hat
  obtain ⟨m, rfl⟩ : ∃ m, k = m + 1 := ⟨k - 1, by dsimp only at hpos; omega⟩
  exact ⟨⟨v, b, blockStart fn b + 1 + m⟩, mem_blockUses.2 ⟨m, inst, hat, hv, rfl, rfl⟩, rfl,
    by dsimp only; omega⟩

/-! ## The walk back -/

structure IsLayout (fn : Function) (layout : BlockLayout) : Prop where
  lt : ∀ b, ∀ c ∈ blockSuccs fn b, c < fn.blocks.length
  preds : ∀ b c, b ∈ layout.predsOf c ↔ c ∈ blockSuccs fn b

theorem isLayout_buildBlockLayout (h : buildBlockLayout fn = .ok layout) : IsLayout fn layout := by
  unfold buildBlockLayout at h
  dsimp only at h
  split at h
  case isFalse => cases h
  rename_i hall
  obtain rfl := Except.ok.inj h
  have hlt : ∀ b, ∀ c ∈ blockSuccs fn b, c < fn.blocks.length := by
    intro b c hc
    rcases Nat.lt_or_ge b fn.blocks.length with hb | hb
    · have hblock := all_eq_true.1 hall b (mem_range.2 hb)
      exact of_decide_eq_true (all_eq_true.1 hblock c hc)
    · rw [blockSuccs, block_of_ge hb] at hc
      cases hc
  refine ⟨hlt, fun b c => ?_⟩
  unfold BlockLayout.predsOf
  rcases Nat.lt_or_ge c fn.blocks.length with hc | hc
  · simp only [getD_eq_getElem?_getD, getElem?_map,
      getElem?_range hc, Option.map_some, Option.getD_some, mem_filter, mem_range,
      decide_eq_true_eq]
    refine and_iff_right_of_imp fun hmem => ?_
    by_contra hb
    rw [blockSuccs, block_of_ge (by omega)] at hmem
    cases hmem
  · have hnil : ((range fn.blocks.length).map fun t =>
        (range fn.blocks.length).filter fun b => t ∈ blockSuccs fn b).getD c [] = [] := by
      simp [getD_eq_getElem?_getD, hc]
    rw [hnil]
    exact iff_of_false not_mem_nil fun hmem => absurd (hlt b c hmem) (by omega)

theorem mem_crossUses : b ∈ crossUses fn i ↔
    b < fn.blocks.length ∧ b ≠ i.defBlock ∧ ∃ x ∈ blockUses fn b, x.value = i.value := by
  simp [crossUses, any_eq_true, and_left_comm]

variable {n : Nat}

/-- The walk marks the blocks from which a path of blocks leads to a use without going through
the defining block. -/
theorem mem_liveIn (hl : IsLayout fn layout) : b ∈ liveIn fn layout i ↔ ∃ r ∈ crossUses fn i,
      Search.Reaches (fun b => (layout.predsOf b).filter (· ≠ i.defBlock)) r b := by
  refine (Search.mem_searchFrom_iff ?_ ?_
    (?_ : ∀ r ∈ crossUses fn i, ∀ u, Search.Reaches _ r u → u ∈ range fn.blocks.length)
    ?_).2 b
  · exact nodup_reverse.2 (nodup_range.filter _)
  · exact fun new todo => (reverse_perm new).append_right todo
  · intro r hr u hu
    have hlt := (mem_crossUses.1 hr).1
    rw [mem_range]
    rcases Relation.ReflTransGen.cases_tail hu with rfl | ⟨c, -, hc⟩
    · exact hlt
    · have hmem := (hl.preds u c).1 (mem_filter.1 hc).1
      by_contra hge
      rw [blockSuccs, block_of_ge (by omega)] at hmem
      cases hmem
  · rw [length_range]

theorem mem_liveIn_of (hl : IsLayout fn layout) (hne : b ≠ i.defBlock)
    (h : (∃ k, Reads fn (b, k) i.value) ∨ ∃ c ∈ blockSuccs fn b, c ∈ liveIn fn layout i) :
    b ∈ liveIn fn layout i := by
  rw [mem_liveIn hl]
  rcases h with ⟨k, hr⟩ | ⟨c, hc, hin⟩
  · obtain ⟨x, hx, hv, -⟩ := exists_use hr
    have hb : b < fn.blocks.length := by
      by_contra hge
      exact not_reads_of_ge (by omega) hr
    exact ⟨b, mem_crossUses.2 ⟨hb, hne, x, hx, hv⟩, .refl⟩
  · obtain ⟨r, hr, hreach⟩ := (mem_liveIn hl).1 hin
    refine ⟨r, hr, hreach.tail (mem_filter.2 ⟨(hl.preds b c).2 hc, ?_⟩)⟩
    simpa using hne

def DefinedOnce (fn : Function) : Prop :=
  ∀ p q v, Defines fn p v → Defines fn q v → p = q

/-- A value that is live somewhere in a block is read further on in it, or live into one of the
block's successors. -/
theorem Verified.live_cases (hv : Verified fn) (hstub : NoStubResumes fn)
    (hl : IsLayout fn layout) (hd : Describes fn i n) (h : (flow fn).Live i.value (b, k)) :
    (∃ j, k ≤ j ∧ Reads fn (b, j) i.value) ∨ ∃ c ∈ blockSuccs fn b, c ∈ liveIn fn layout i := by
  generalize hp : (b, k) = p at h
  induction h generalizing b k with
  | read hr =>
    subst hp
    exact .inl ⟨k, le_refl k, hr⟩
  | @step p q hnot hn hlive ih =>
    subst hp
    rcases flow_next hn with rfl | ⟨h0, hmem⟩
    · rcases ih rfl with ⟨j, hj, hr⟩ | hsucc
      · exact .inl ⟨j, by omega, hr⟩
      · exact .inr hsucc
    · obtain ⟨c, m⟩ := q
      obtain rfl : m = 0 := h0
      -- It is not live into the block that defines it.
      have hne : c ≠ i.defBlock := by
        intro heq
        exact hv.not_live_before hstub (heq ▸ hd.defines) (Nat.zero_le n) hlive
      refine .inr ⟨c, hmem, mem_liveIn_of hl hne ?_⟩
      rcases ih rfl with ⟨j, -, hr⟩ | hsucc
      · exact .inl ⟨j, hr⟩
      · exact .inr hsucc

theorem live_of_mem_liveIn (honce : DefinedOnce fn) (hl : IsLayout fn layout)
    (hd : Describes fn i n) (h : b ∈ liveIn fn layout i) : (flow fn).Live i.value (b, 0) := by
  obtain ⟨r, hr, hreach⟩ := (mem_liveIn hl).1 h
  have hback : ∀ {c k}, c ≠ i.defBlock → k ≤ (fn.block c).insts.length →
      (flow fn).Live i.value (c, k) → (flow fn).Live i.value (c, 0) := fun {c k} hne hk hlive =>
    live_back hlive hk (Nat.zero_le k) fun j _ _ hdef =>
      hne (congrArg Prod.fst (honce _ _ _ hdef hd.defines))
  induction hreach with
  | refl =>
    obtain ⟨-, hne, x, hx, hv⟩ := mem_crossUses.1 hr
    obtain ⟨k, -, -, hk, hread⟩ := reads_of_use hx
    rw [hv] at hread
    refine hback hne hk (.read (hread.resolve_right fun hdef => ?_))
    exact hne (congrArg Prod.fst (honce _ _ _ hdef hd.defines))
  | @tail c b hreach hstep ih =>
    obtain ⟨hpred, hne⟩ := mem_filter.1 hstep
    have hlive := ih ((mem_liveIn hl).2 ⟨r, hr, hreach⟩)
    obtain ⟨k, hn⟩ := flow_to_start ((hl.preds b c).1 hpred)
    have hk : k ≤ (fn.block b).insts.length := by
      rcases hn with (⟨heq, hlt⟩ | ⟨inst, hat, -⟩) | ⟨inst, hat, -⟩
      · exact absurd (congrArg Prod.snd heq) (by simp)
      · exact (instAt_le hat).2
      · exact (instAt_le hat).2
    have hne' : b ≠ i.defBlock := by simpa using hne
    refine hback hne' hk (.step (fun hdef => hne' ?_) hn hlive)
    exact congrArg Prod.fst (honce _ _ _ hdef hd.defines)

/-! ## Hulls -/

/-- Two infos of one definition. -/
structure SameValue (i i' : ValueInfo) : Prop where
  value : i.value = i'.value
  defBlock : i.defBlock = i'.defBlock
  defPos : i.defPos = i'.defPos
  fixedReg : i.fixedReg = i'.fixedReg

variable {i' : ValueInfo}

theorem SameValue.describes (h : SameValue i i') (hd : Describes fn i n) : Describes fn i' n :=
  ⟨h.value ▸ h.defBlock ▸ hd.defines, h.defPos ▸ h.defBlock ▸ hd.defPos, h.defBlock ▸ hd.lt⟩

theorem foldl_touch (l : List Nat) : ∀ i : ValueInfo,
    SameValue i (l.foldl ValueInfo.touch i) ∧ (l.foldl ValueInfo.touch i).lo ≤ i.lo ∧
      i.hi ≤ (l.foldl ValueInfo.touch i).hi ∧
      ∀ x ∈ l, (l.foldl ValueInfo.touch i).lo ≤ x ∧ x ≤ (l.foldl ValueInfo.touch i).hi := by
  induction l with
  | nil => exact fun i => ⟨⟨rfl, rfl, rfl, rfl⟩, le_refl _, le_refl _, by simp⟩
  | cons x l ih =>
    intro i
    obtain ⟨hsame, hlo, hhi, hall⟩ := ih (i.touch x)
    refine ⟨⟨hsame.value, hsame.defBlock, hsame.defPos, hsame.fixedReg⟩,
      hlo.trans (min_le_left _ _), (le_max_left _ _).trans hhi, fun y hy => ?_⟩
    rcases mem_cons.1 hy with rfl | hy
    · exact ⟨hlo.trans (min_le_right _ _), (le_max_right _ _).trans hhi⟩
    · exact hall y hy

theorem sameValue_withHull (i : ValueInfo) : SameValue i (withHull fn layout i) :=
  (foldl_touch _ i).1

def ValueInfo.Spans (i : ValueInfo) (x : Nat) : Prop := i.lo ≤ x ∧ x ≤ i.hi

theorem spans_of_touched {x : Nat} (h : x ∈ touched fn layout i) : (withHull fn layout i).Spans x :=
  (foldl_touch _ i).2.2.2 x h

variable (layout) in
theorem spans_defPos (h : i ∈ definitions fn) : (withHull fn layout i).Spans i.defPos := by
  have hpoint : i.lo = i.defPos ∧ i.hi = i.defPos := by
    obtain ⟨b, -, hi⟩ := mem_flatMap.1 h
    rcases mem_append.1 hi with hi | hi
    · obtain ⟨r, v, -, rfl⟩ := mem_paramInfos.1 hi
      exact ⟨rfl, rfl⟩
    · obtain ⟨k, inst, v, -, -, rfl⟩ := mem_resultInfos.1 hi
      exact ⟨rfl, rfl⟩
  obtain ⟨-, hlo, hhi, -⟩ := foldl_touch (touched fn layout i) i
  exact ⟨hpoint.1 ▸ hlo, hpoint.2 ▸ hhi⟩

theorem live_le (h : (flow fn).Live v (b, k)) : k ≤ (fn.block b).insts.length := by
  cases h with
  | read hr =>
    obtain ⟨inst, hat, -⟩ := hr
    exact (instAt_le hat).2
  | step hnot hn _ =>
    rcases hn with (⟨-, hlt⟩ | ⟨inst, hat, -⟩) | ⟨inst, hat, -⟩
    · exact Nat.le_of_lt hlt
    · exact (instAt_le hat).2
    · exact (instAt_le hat).2

theorem mem_touched_use {x : Use} (hx : x ∈ blockUses fn b) (hb : b < fn.blocks.length)
    (hv : x.value = i.value) : x.pos ∈ touched fn layout i := by
  refine mem_append_left _ (mem_map_of_mem (mem_filter.2 ⟨?_, ?_⟩))
  · exact mem_flatMap.2 ⟨b, mem_range.2 hb, hx⟩
  · simpa using hv

/-- The hull of a value takes in every position where the value is live or written. -/
theorem Verified.spans_of_held (hv : Verified fn) (hstub : NoStubResumes fn)
    (hl : IsLayout fn layout) (honce : DefinedOnce fn) (hi : i ∈ definitions fn)
    (h : (flow fn).Held i.value p) : (withHull fn layout i).Spans (pos fn p) := by
  obtain ⟨n, hd⟩ := exists_describes hi
  obtain ⟨b, k⟩ := p
  rcases h with hdef | hlive
  · obtain ⟨rfl, rfl⟩ := Prod.mk.inj (honce _ _ _ hdef hd.defines)
    rw [pos, ← hd.defPos]
    exact spans_defPos layout hi
  · have hcases := hv.live_cases hstub hl hd hlive
    have hk := live_le hlive
    constructor
    · by_cases hb : b = i.defBlock
      · subst hb
        have hlt : n < k := by
          by_contra hge
          exact hv.not_live_before hstub hd.defines (by omega) hlive
        have hlo := (spans_defPos layout hi).1
        rw [hd.defPos] at hlo
        dsimp only [pos]
        omega
      · have hin : b ∈ liveIn fn layout i := by
          refine mem_liveIn_of hl hb ?_
          rcases hcases with ⟨j, -, hr⟩ | hsucc
          · exact .inl ⟨j, hr⟩
          · exact .inr hsucc
        have hmem : blockStart fn b ∈ touched fn layout i :=
          mem_append_right _ (mem_flatMap.2 ⟨b, hin, mem_cons_self⟩)
        exact (spans_of_touched hmem).1.trans (Nat.le_add_right _ _)
    · rcases hcases with ⟨j, hj, hr⟩ | ⟨c, hc, hin⟩
      · have hb : b < fn.blocks.length := by
          by_contra hge
          exact not_reads_of_ge (by omega) hr
        obtain ⟨x, hx, hval, hpos⟩ := exists_use hr
        have hspan : (withHull fn layout i).Spans x.pos :=
          spans_of_touched (mem_touched_use hx hb hval)
        have hhi := hspan.2
        rw [hpos] at hhi
        dsimp only [pos]
        omega
      · have hmem : blockEnd fn b ∈ touched fn layout i := by
          refine mem_append_right _ (mem_flatMap.2 ⟨c, hin, mem_cons_of_mem _ ?_⟩)
          exact mem_map_of_mem ((hl.preds b c).2 hc)
        have hhi := (spans_of_touched hmem).2
        dsimp only [pos, blockEnd] at hhi ⊢
        omega

end Brass.Vm.BytecodeRegalloc
