import Brass.Gc.MatureSpace
import Mathlib.Data.Finset.Card

/-!
# The mature space's tables, and what the sweep keeps

`Core` ties the tables of the space to the objects that are live: each has its start bit,
in a block in use, and the lines it touches count as used, or, in a block the sweep has yet
to reach, as marked. The pieces of the sweep keep it, whichever end they work from, and
leave a block that is swept as it is (`Swept`).
-/

namespace Brass.Gc.Mature

open List Mature

structure Obj.Fits (o : Obj) : Prop where
  headerAligned : o.header % kGranuleBytes = 0
  totalAligned : o.total % kGranuleBytes = 0
  least : kHeaderBytes + kGranuleBytes ≤ o.total
  inside : o.header + o.total ≤ blockBase o.block + kBlockBytes

def Obj.Apart (o q : Obj) : Prop :=
  o.header + o.total ≤ q.header ∨ q.header + q.total ≤ o.header

def Obj.touches (o : Obj) (line : Nat) : Bool :=
  linesOf (blockBase o.block) o.header o.total line

def unsweptSet (s : MatureSpace) : Finset Nat :=
  (Finset.range s.count).filter fun b => blockUnswept s b

structure Core (s : MatureSpace) (live : List Obj) : Prop where
  fits : ∀ o ∈ live, o.Fits
  apart : live.Pairwise Obj.Apart
  inUse : ∀ o ∈ live, (s.blocks o.block).inUse = true
  started : ∀ o ∈ live, (s.blocks o.block).starts o.granule = true
  size : ∀ o ∈ live, (s.blocks o.block).size o.granule = o.total
  /-- In a swept block every start is a live object's. -/
  exact : ∀ b g, blockUnswept s b = false → (s.blocks b).starts g = true →
    ∃ o ∈ live, o.block = b ∧ o.granule = g
  used : ∀ o ∈ live, blockUnswept s o.block = false → ∀ l, o.touches l = true →
    (s.blocks o.block).lineUsed l = true
  /-- In an unswept block the live objects are the marked ones. -/
  keep : ∀ o ∈ live, blockUnswept s o.block = true → marked s o = true
  markLive : ∀ b g, (s.blocks b).marks g = true → ∃ o ∈ live, o.block = b ∧ o.granule = g
  markLines : ∀ o ∈ live, marked s o = true → ∀ l, o.touches l = true →
    (s.blocks o.block).lineMark l = true
  /-- While no cycle is open the marks of a swept block are clear. -/
  clean : s.marking = false → ∀ b, blockUnswept s b = false →
    (∀ g, (s.blocks b).marks g = false) ∧ ∀ l, (s.blocks b).lineMark l = false
  /-- A block that is not in use is clear. -/
  clear : ∀ b, (s.blocks b).inUse = false →
    (∀ l < kLinesPerBlock, (s.blocks b).lineUsed l = false) ∧
    (∀ g, (s.blocks b).marks g = false) ∧ ∀ l, (s.blocks b).lineMark l = false
  committed : ∀ b, (s.blocks b).inUse = true → (s.blocks b).committed = true
  below : ∀ b, (s.blocks b).inUse = true → b < s.count
  freeNodup : s.freeBlocks.Nodup
  free : ∀ b, b ∈ s.freeBlocks ↔ b < s.count ∧ (s.blocks b).inUse = false
  recyclableNodup : s.recyclableBlocks.Nodup
  recyclable : ∀ b ∈ s.recyclableBlocks, (s.blocks b).inUse = true ∧ blockUnswept s b = false ∧
    ∃ l < kLinesPerBlock, (s.blocks b).lineUsed l = false
  range : ∀ b, blockUnswept s b = true → s.low ≤ b ∧ b < s.high
  number : s.unsweptBlocks = (unsweptSet s).card
  idle : s.active = false → s.high ≤ s.low
  /-- A cycle is open only once the last sweep is done. -/
  marking : s.marking = true → s.active = false

theorem core_empty (reserve : Nat) : Core (.empty reserve) [] := by
  constructor <;> simp [MatureSpace.empty, BlockMeta.fresh, blockUnswept, unsweptSet]

theorem mem_unsweptSet {s : MatureSpace} {b : Nat} :
    b ∈ unsweptSet s ↔ b < s.count ∧ blockUnswept s b = true := by
  simp [unsweptSet]

namespace Core

variable {s : MatureSpace} {live : List Obj}

theorem unswept_inUse {b : Nat} (hb : blockUnswept s b = true) : (s.blocks b).inUse = true := by
  simp only [blockUnswept, Bool.and_eq_true] at hb
  exact hb.1

theorem swept_of_idle (h : Core s live) (hidle : s.active = false) (b : Nat) :
    blockUnswept s b = false := by
  by_contra hb
  have hrange := h.range b (by simpa using hb)
  have hle := h.idle hidle
  omega

theorem touches_header {o : Obj} (ho : o.Fits) :
    o.touches ((o.header - blockBase o.block) / kLineBytes) = true := by
  have hleast := ho.least
  unfold kHeaderBytes kGranuleBytes at hleast
  unfold Obj.touches linesOf
  simp only [decide_eq_true_eq]
  refine ⟨le_refl _, Nat.div_le_div_right ?_⟩
  omega

theorem line_lt {o : Obj} (ho : o.Fits) {l : Nat} (hl : o.touches l = true) :
    l < kLinesPerBlock := by
  have hin := ho.inside
  have hleast := ho.least
  unfold Obj.touches linesOf at hl
  unfold kHeaderBytes kGranuleBytes at hleast
  unfold kBlockBytes at hin
  unfold kLineBytes at hl
  unfold kLinesPerBlock
  simp only [decide_eq_true_eq] at hl
  omega

end Core

/-- What `Core` says of one block. -/
structure BlockOk (live : List Obj) (marking : Bool) (b : Nat) (m : BlockMeta)
    (unswept : Bool) : Prop where
  inUse : ∀ o ∈ live, o.block = b → m.inUse = true
  started : ∀ o ∈ live, o.block = b → m.starts o.granule = true
  size : ∀ o ∈ live, o.block = b → m.size o.granule = o.total
  exact : unswept = false → ∀ g, m.starts g = true → ∃ o ∈ live, o.block = b ∧ o.granule = g
  used : unswept = false → ∀ o ∈ live, o.block = b → ∀ l, o.touches l = true →
    m.lineUsed l = true
  keep : unswept = true → ∀ o ∈ live, o.block = b → m.marks o.granule = true
  markLive : ∀ g, m.marks g = true → ∃ o ∈ live, o.block = b ∧ o.granule = g
  markLines : ∀ o ∈ live, o.block = b → m.marks o.granule = true → ∀ l, o.touches l = true →
    m.lineMark l = true
  clean : marking = false → unswept = false →
    (∀ g, m.marks g = false) ∧ ∀ l, m.lineMark l = false
  clear : m.inUse = false → (∀ l < kLinesPerBlock, m.lineUsed l = false) ∧
    (∀ g, m.marks g = false) ∧ ∀ l, m.lineMark l = false
  committed : m.inUse = true → m.committed = true

/-- What `Core` says of the lists and the counts. -/
structure Listed (s : MatureSpace) : Prop where
  below : ∀ b, (s.blocks b).inUse = true → b < s.count
  freeNodup : s.freeBlocks.Nodup
  free : ∀ b, b ∈ s.freeBlocks ↔ b < s.count ∧ (s.blocks b).inUse = false
  recyclableNodup : s.recyclableBlocks.Nodup
  recyclable : ∀ b ∈ s.recyclableBlocks, (s.blocks b).inUse = true ∧ blockUnswept s b = false ∧
    ∃ l < kLinesPerBlock, (s.blocks b).lineUsed l = false
  range : ∀ b, blockUnswept s b = true → s.low ≤ b ∧ b < s.high
  number : s.unsweptBlocks = (unsweptSet s).card
  idle : s.active = false → s.high ≤ s.low
  marking : s.marking = true → s.active = false

theorem Core.blockOk {s : MatureSpace} {live : List Obj} (h : Core s live) (b : Nat) :
    BlockOk live s.marking b (s.blocks b) (blockUnswept s b) where
  inUse o ho hb := hb ▸ h.inUse o ho
  started o ho hb := hb ▸ h.started o ho
  size o ho hb := hb ▸ h.size o ho
  exact hb g := h.exact b g hb
  used hu o ho hb := hb ▸ h.used o ho (hb ▸ hu)
  keep hu o ho hb := hb ▸ h.keep o ho (hb ▸ hu)
  markLive := h.markLive b
  markLines o ho hb hm := hb ▸ h.markLines o ho (show (s.blocks o.block).marks o.granule = true from hb ▸ hm)
  clean hm := h.clean hm b
  clear := h.clear b
  committed := h.committed b

/-- It is enough to look at each block by itself. -/
theorem Core.of_blocks {s : MatureSpace} {live : List Obj} (hfits : ∀ o ∈ live, o.Fits)
    (hapart : live.Pairwise Obj.Apart)
    (h : ∀ b, BlockOk live s.marking b (s.blocks b) (blockUnswept s b)) (hl : Listed s) :
    Core s live :=
  { hl with
    fits := hfits
    apart := hapart
    inUse := fun o ho => (h _).inUse o ho rfl
    started := fun o ho => (h _).started o ho rfl
    size := fun o ho => (h _).size o ho rfl
    exact := fun b g hb => (h b).exact hb g
    used := fun o ho hu => (h _).used hu o ho rfl
    keep := fun o ho hu => (h _).keep hu o ho rfl
    markLive := fun b => (h b).markLive
    markLines := fun o ho hm => (h _).markLines o ho rfl hm
    clean := fun hm b => (h b).clean hm
    clear := fun b => (h b).clear
    committed := fun b => (h b).committed }

/-! ## Sweeping one block -/

section SweepBlock

variable {s : MatureSpace} {live : List Obj} {index : Nat}

/-- Where the sweep of a block files it, by the lines that are used. -/
inductive FiledAs (s : MatureSpace) (index : Nat) (t : MatureSpace) : Bool → Prop where
  | free (hused : usedLines ((s.blocks index).swept s.epoch) = 0)
      (hfree : t.freeBlocks = index :: s.freeBlocks)
      (hrecyclable : t.recyclableBlocks = s.recyclableBlocks) : FiledAs s index t false
  | recyclable (hused : usedLines ((s.blocks index).swept s.epoch) < kLinesPerBlock)
      (hfree : t.freeBlocks = s.freeBlocks)
      (hrecyclable : t.recyclableBlocks = index :: s.recyclableBlocks) : FiledAs s index t true
  | full (hfree : t.freeBlocks = s.freeBlocks)
      (hrecyclable : t.recyclableBlocks = s.recyclableBlocks) : FiledAs s index t true

/-- `t` is `s` with a block swept and the range of unswept blocks narrowed past it. -/
structure SweptAt (s : MatureSpace) (index : Nat) (t : MatureSpace) (inUse : Bool) : Prop where
  self : t.blocks index = { (s.blocks index).swept s.epoch with inUse := inUse }
  other : ∀ b, b ≠ index → t.blocks b = s.blocks b
  count : t.count = s.count
  epoch : t.epoch = s.epoch
  marking : t.marking = s.marking
  active : t.active = s.active
  number : t.unsweptBlocks = s.unsweptBlocks - 1
  small : t.smallRegion = s.smallRegion
  medium : t.mediumRegion = s.mediumRegion
  range : ∀ b, blockUnswept s b = true → b ≠ index → t.low ≤ b ∧ b < t.high
  filed : FiledAs s index t inUse

theorem sweptAt_sweepBlock (hu : (s.blocks index).inUse = true) {low high : Nat}
    (hrange : ∀ b, blockUnswept s b = true → b ≠ index → low ≤ b ∧ b < high) :
    ∃ inUse, SweptAt s index (sweepBlock { s with low := low, high := high } index) inUse := by
  have hother : ∀ (m : BlockMeta) (b : Nat), b ≠ index →
      Function.update s.blocks index m b = s.blocks b := fun m b hb =>
    Function.update_of_ne hb _ _
  unfold sweepBlock
  dsimp only
  split
  · rename_i hused
    exact ⟨false, Function.update_self .., hother _, rfl, rfl, rfl, rfl, rfl, rfl, rfl, hrange,
      .free hused rfl rfl⟩
  · split
    · rename_i hused
      refine ⟨true, ?_, hother _, rfl, rfl, rfl, rfl, rfl, rfl, rfl, hrange, .recyclable hused rfl rfl⟩
      refine (Function.update_self ..).trans ?_
      simp only [BlockMeta.swept, hu]
    · refine ⟨true, ?_, hother _, rfl, rfl, rfl, rfl, rfl, rfl, rfl, hrange, .full rfl rfl⟩
      refine (Function.update_self ..).trans ?_
      simp only [BlockMeta.swept, hu]

theorem usedLines_eq_zero {m : BlockMeta} (h : usedLines m = 0) {l : Nat}
    (hl : l < kLinesPerBlock) : m.lineUsed l = false := by
  have hnone := countP_eq_zero.mp h l (mem_range.mpr hl)
  simpa using hnone

theorem exists_free_line {m : BlockMeta} (h : usedLines m < kLinesPerBlock) :
    ∃ l < kLinesPerBlock, m.lineUsed l = false := by
  by_contra hall
  have hcount : usedLines m = (range kLinesPerBlock).length := by
    refine countP_eq_length.mpr ?_
    intro l hl
    by_contra hfree
    exact hall ⟨l, mem_range.mp hl, by simpa using hfree⟩
  rw [length_range] at hcount
  omega

theorem Core.usedLines_ne_zero (h : Core s live) (hu : blockUnswept s index = true) {o : Obj}
    (ho : o ∈ live) (hb : o.block = index) (epoch : UInt32) :
    usedLines ((s.blocks index).swept epoch) ≠ 0 := by
  intro hzero
  subst hb
  have htouch := Core.touches_header (h.fits o ho)
  have hmark := h.markLines o ho (h.keep o ho hu) _ htouch
  have hunused := usedLines_eq_zero hzero (Core.line_lt (h.fits o ho) htouch)
  have hmark' : ((s.blocks o.block).swept epoch).lineUsed
      ((o.header - blockBase o.block) / kLineBytes) = true := hmark
  rw [hunused] at hmark'
  exact absurd hmark' (by simp)

namespace SweptAt

variable {t : MatureSpace} {inUse : Bool}

section

variable (h : SweptAt s index t inUse)
include h

theorem unswept_self : blockUnswept t index = false := by
  have hsame : (t.blocks index).sweepEpoch = t.epoch := by
    rw [h.self, h.epoch]
    rfl
  simp [blockUnswept, hsame]

theorem unswept_other {b : Nat} (hb : b ≠ index) : blockUnswept t b = blockUnswept s b := by
  simp only [blockUnswept, h.other b hb, h.epoch]

theorem unswept_of {b : Nat} (hb : blockUnswept t b = true) :
    blockUnswept s b = true ∧ b ≠ index := by
  have hne : b ≠ index := by
    rintro rfl
    rw [h.unswept_self] at hb
    exact absurd hb (by simp)
  exact ⟨h.unswept_other hne ▸ hb, hne⟩

theorem card (hu : blockUnswept s index = true)
    (hlt : index < s.count) : (unsweptSet t).card + 1 = (unsweptSet s).card := by
  have herase : unsweptSet t = (unsweptSet s).erase index := by
    ext b
    rw [Finset.mem_erase, mem_unsweptSet, mem_unsweptSet, h.count]
    constructor
    · rintro ⟨hb, hub⟩
      obtain ⟨hub, hne⟩ := h.unswept_of hub
      exact ⟨hne, hb, hub⟩
    · rintro ⟨hne, hb, hub⟩
      exact ⟨hb, h.unswept_other hne ▸ hub⟩
  rw [herase, Finset.card_erase_of_mem (mem_unsweptSet.mpr ⟨hlt, hu⟩)]
  have hpos : 0 < (unsweptSet s).card :=
    Finset.card_pos.mpr ⟨index, mem_unsweptSet.mpr ⟨hlt, hu⟩⟩
  omega

theorem inUse_of_live (hc : Core s live)
    (hu : blockUnswept s index = true) {o : Obj} (ho : o ∈ live) (hb : o.block = index) :
    inUse = true := by
  cases h.filed with
  | free hused _ _ => exact absurd hused (hc.usedLines_ne_zero hu ho hb s.epoch)
  | recyclable _ _ _ => rfl
  | full _ _ => rfl

theorem freeNodup (hc : Core s live)
    (hinUse : (s.blocks index).inUse = true) : t.freeBlocks.Nodup := by
  cases h.filed with
  | free _ hfree _ =>
    rw [hfree, nodup_cons]
    refine ⟨?_, hc.freeNodup⟩
    intro hmem
    have hnot := ((hc.free index).mp hmem).2
    rw [hinUse] at hnot
    exact absurd hnot (by simp)
  | recyclable _ hfree _ => exact hfree ▸ hc.freeNodup
  | full hfree _ => exact hfree ▸ hc.freeNodup

theorem mem_free (hc : Core s live) (hlt : index < s.count)
    (hinUse : (s.blocks index).inUse = true) (b : Nat) :
    b ∈ t.freeBlocks ↔ b < t.count ∧ (t.blocks b).inUse = false := by
  have huse : (t.blocks index).inUse = inUse := by
    rw [h.self]
  rw [h.count]
  by_cases hb : b = index
  · subst hb
    have hnot : b ∉ s.freeBlocks := by
      intro hmem
      have hfalse := ((hc.free b).mp hmem).2
      rw [hinUse] at hfalse
      exact absurd hfalse (by simp)
    rw [huse]
    cases h.filed with
    | free _ hfree _ => simp [hfree, hlt]
    | recyclable _ hfree _ => simp [hfree, hnot]
    | full hfree _ => simp [hfree, hnot]
  · rw [h.other b hb, ← hc.free b]
    cases h.filed with
    | free _ hfree _ => simp [hfree, hb]
    | recyclable _ hfree _ => rw [hfree]
    | full hfree _ => rw [hfree]

theorem mem_recyclable {b : Nat} (hb : b ∈ t.recyclableBlocks) :
    b ∈ s.recyclableBlocks ∨ b = index := by
  cases h.filed with
  | free _ _ hrec => exact .inl (hrec ▸ hb)
  | recyclable _ _ hrec =>
    rw [hrec, mem_cons] at hb
    exact hb.symm
  | full _ hrec => exact .inl (hrec ▸ hb)

end

section

variable (h : SweptAt s index t inUse) (hc : Core s live) (hu : blockUnswept s index = true)
include h hc hu

theorem recyclableNodup : t.recyclableBlocks.Nodup := by
  cases h.filed with
  | free _ _ hrec => exact hrec ▸ hc.recyclableNodup
  | recyclable _ _ hrec =>
    rw [hrec, nodup_cons]
    refine ⟨?_, hc.recyclableNodup⟩
    intro hmem
    have hswept := (hc.recyclable index hmem).2.1
    rw [hu] at hswept
    exact absurd hswept (by simp)
  | full _ hrec => exact hrec ▸ hc.recyclableNodup

theorem recyclable :
    ∀ b ∈ t.recyclableBlocks, (t.blocks b).inUse = true ∧ blockUnswept t b = false ∧
      ∃ l < kLinesPerBlock, (t.blocks b).lineUsed l = false := by
  have hold : ∀ b ∈ s.recyclableBlocks, (t.blocks b).inUse = true ∧ blockUnswept t b = false ∧
      ∃ l < kLinesPerBlock, (t.blocks b).lineUsed l = false := by
    intro b hb
    obtain ⟨h1, h2, h3⟩ := hc.recyclable b hb
    have hne : b ≠ index := by
      rintro rfl
      rw [hu] at h2
      exact absurd h2 (by simp)
    rw [h.unswept_other hne, h.other b hne]
    exact ⟨h1, h2, h3⟩
  intro b hb
  cases hf : h.filed with
  | free _ _ hrec => exact hold b (hrec ▸ hb)
  | recyclable hused _ hrec =>
    rw [hrec, mem_cons] at hb
    rcases hb with rfl | hb
    · refine ⟨by rw [h.self], h.unswept_self, ?_⟩
      rw [h.self]
      exact exists_free_line hused
    · exact hold b hb
  | full _ hrec => exact hold b (hrec ▸ hb)

theorem core : Core t live := by
  have hinUse : (s.blocks index).inUse = true := Core.unswept_inUse hu
  have hactive : s.active = true := by
    by_contra hidle
    have hswept := hc.swept_of_idle (by simpa using hidle) index
    rw [hu] at hswept
    exact absurd hswept (by simp)
  have hlt := hc.below index hinUse
  refine Core.of_blocks hc.fits hc.apart (fun b => ?_)
    { below := ?_, freeNodup := h.freeNodup hc hinUse, free := h.mem_free hc hlt hinUse
      recyclableNodup := h.recyclableNodup hc hu, recyclable := h.recyclable hc hu, range := ?_
      number := ?_, idle := ?_, marking := ?_ }
  · have hold := hc.blockOk b
    rw [h.marking]
    by_cases hb : b = index
    · subst hb
      rw [hu] at hold
      rw [h.unswept_self, h.self]
      refine
        { inUse := fun o ho hob => h.inUse_of_live hc hu ho hob, started := fun o ho hob => ?_
          size := hold.size, exact := fun _ g hg => hold.markLive g (Bool.and_eq_true_iff.mp hg).2
          used := fun _ o ho hob => hold.markLines o ho hob (hold.keep rfl o ho hob)
          keep := fun hfalse => absurd hfalse Bool.false_ne_true
          markLive := fun _ hg => absurd hg Bool.false_ne_true
          markLines := fun _ _ _ hg => absurd hg Bool.false_ne_true
          clean := fun _ _ => ⟨fun _ => rfl, fun _ => rfl⟩
          clear := fun hout => ⟨fun l hl => ?_, fun _ => rfl, fun _ => rfl⟩
          committed := fun _ => hold.committed hinUse }
      · show ((s.blocks b).starts o.granule && (s.blocks b).marks o.granule) = true
        rw [hold.started o ho hob, hold.keep rfl o ho hob]
        rfl
      · have hout : inUse = false := hout
        subst hout
        cases h.filed with
        | free hused _ _ => exact usedLines_eq_zero hused hl
    · rw [h.unswept_other hb, h.other b hb]
      exact hold
  · intro b hb
    rw [h.count]
    by_cases hbi : b = index
    · exact hbi ▸ hlt
    · rw [h.other b hbi] at hb
      exact hc.below b hb
  · intro b hb
    obtain ⟨hb, hne⟩ := h.unswept_of hb
    exact h.range b hb hne
  · have hcard := h.card hu hlt
    rw [h.number, hc.number]
    omega
  · intro hidle
    rw [h.active, hactive] at hidle
    exact absurd hidle (by simp)
  · intro hmarking
    rw [h.active]
    exact hc.marking (h.marking ▸ hmarking)

end

end SweptAt

end SweepBlock

/-! ## Pieces of the sweep -/

/-- What any piece of the sweep keeps: a block that is swept stays as it is. -/
structure Swept (live : List Obj) (s t : MatureSpace) : Prop where
  core : Core t live
  keeps : ∀ b, (s.blocks b).inUse = true → blockUnswept s b = false → t.blocks b = s.blocks b
  epoch : t.epoch = s.epoch
  count : t.count = s.count
  small : t.smallRegion = s.smallRegion
  medium : t.mediumRegion = s.mediumRegion
  unswept : ∀ b, blockUnswept t b = true → blockUnswept s b = true
  recyclable : ∀ b ∈ t.recyclableBlocks, b ∈ s.recyclableBlocks ∨ blockUnswept s b = true

namespace Swept

variable {live : List Obj} {s t u : MatureSpace}

theorem refl (h : Core s live) : Swept live s s :=
  ⟨h, fun _ _ _ => rfl, rfl, rfl, rfl, rfl, fun _ hb => hb, fun _ hb => .inl hb⟩

theorem stays (h : Swept live s t) {b : Nat} (hb : blockUnswept s b = false) :
    blockUnswept t b = false := by
  by_contra hcon
  rw [h.unswept b (by simpa using hcon)] at hb
  exact absurd hb (by simp)

theorem trans (h : Swept live s t) (h' : Swept live t u) : Swept live s u where
  core := h'.core
  keeps b hb hs := by
    have ht := h.keeps b hb hs
    have hstay : blockUnswept t b = false := h.stays hs
    rw [h'.keeps b (by rw [ht]; exact hb) hstay, ht]
  epoch := h'.epoch.trans h.epoch
  count := h'.count.trans h.count
  small := h'.small.trans h.small
  medium := h'.medium.trans h.medium
  unswept b hb := h.unswept b (h'.unswept b hb)
  recyclable b hb := by
    rcases h'.recyclable b hb with hb | hb
    · exact h.recyclable b hb
    · exact .inr (h.unswept b hb)

end Swept

section Pieces

variable {live : List Obj} {s t : MatureSpace} {g : Setting}

theorem Core.swept_narrow (h : Core s live) (low high : Nat)
    (hrange : ∀ b, blockUnswept s b = true → low ≤ b ∧ b < high)
    (hidle : s.active = false → high ≤ low) :
    Swept live s { s with low := low, high := high } :=
  { Swept.refl h with core := { h with range := hrange, idle := hidle } }

theorem Core.swept_sweepBlock (h : Core s live) {index : Nat} (low high : Nat)
    (hu : blockUnswept s index = true)
    (hrange : ∀ b, blockUnswept s b = true → b ≠ index → low ≤ b ∧ b < high) :
    Swept live s (sweepBlock { s with low := low, high := high } index) := by
  obtain ⟨inUse, hat⟩ := sweptAt_sweepBlock (Core.unswept_inUse hu) hrange
  refine
    { core := hat.core h hu, keeps := ?_, epoch := hat.epoch, count := hat.count
      small := hat.small, medium := hat.medium, unswept := fun b hb => (hat.unswept_of hb).1
      recyclable := ?_ }
  · intro b _ hb
    refine hat.other b ?_
    rintro rfl
    rw [hu] at hb
    exact absurd hb (by simp)
  · intro b hb
    rcases hat.mem_recyclable hb with hb | rfl
    · exact .inl hb
    · exact .inr hu

structure SamePlan (s t : MatureSpace) : Prop where
  active : t.active = s.active
  planned : t.releasePlanned = s.releasePlanned
  list : t.releaseList = s.releaseList

theorem samePlan_sweepBlock (s : MatureSpace) (index : Nat) :
    SamePlan s (sweepBlock s index) ∧ (sweepBlock s index).low = s.low ∧
      (sweepBlock s index).high = s.high := by
  unfold sweepBlock
  dsimp only
  split
  · exact ⟨⟨rfl, rfl, rfl⟩, rfl, rfl⟩
  · split
    · exact ⟨⟨rfl, rfl, rfl⟩, rfl, rfl⟩
    · exact ⟨⟨rfl, rfl, rfl⟩, rfl, rfl⟩

/-- Sweeping from the top either finds an unswept block or leaves none. -/
theorem Core.sweepBlockFromTop (n : Nat) : ∀ {s : MatureSpace}, Core s live → s.high - s.low ≤ n →
    Swept live s (sweepBlockFromTop n s).1 ∧
    SamePlan s (sweepBlockFromTop n s).1 ∧
    ((sweepBlockFromTop n s).2 = false →
      (sweepBlockFromTop n s).1.high ≤ (sweepBlockFromTop n s).1.low) ∧
    ((sweepBlockFromTop n s).2 = true →
      (sweepBlockFromTop n s).1.high - (sweepBlockFromTop n s).1.low < s.high - s.low) := by
  induction n with
  | zero =>
    intro s h hn
    exact ⟨Swept.refl h, ⟨rfl, rfl, rfl⟩, fun _ => by simp only [Mature.sweepBlockFromTop]; omega,
      fun hfalse => absurd hfalse (by simp [Mature.sweepBlockFromTop])⟩
  | succ n ih =>
    intro s h hn
    rw [Mature.sweepBlockFromTop]
    by_cases hlt : s.low < s.high
    · rw [if_pos hlt]
      dsimp only
      by_cases hu : blockUnswept s (s.high - 1) = true
      · have hu' : blockUnswept { s with high := s.high - 1 } (s.high - 1) = true := hu
        rw [if_pos hu']
        have hswept := h.swept_sweepBlock s.low (s.high - 1) hu (by
          intro b hb hne
          have := h.range b hb
          omega)
        obtain ⟨hplan, hlow, hhigh⟩ :=
          samePlan_sweepBlock { s with high := s.high - 1 } (s.high - 1)
        refine ⟨hswept, ⟨hplan.active, hplan.planned, hplan.list⟩, ?_, ?_⟩
        · exact fun hfalse => absurd hfalse (by simp)
        · intro _
          rw [hlow, hhigh]
          dsimp only
          omega
      · have hu' : ¬ blockUnswept { s with high := s.high - 1 } (s.high - 1) = true := hu
        rw [if_neg hu']
        have hnarrow := h.swept_narrow s.low (s.high - 1) (by
          intro b hb
          have hrange := h.range b hb
          have hne : b ≠ s.high - 1 := fun heq => hu (heq ▸ hb)
          omega) (by
          intro hidle
          have := h.idle hidle
          omega)
        obtain ⟨h1, h2, h3, h4⟩ := ih hnarrow.core (by dsimp only; omega)
        refine ⟨hnarrow.trans h1, ⟨h2.active, h2.planned, h2.list⟩, h3, ?_⟩
        intro htrue
        have := h4 htrue
        dsimp only at this
        omega
    · rw [if_neg hlt]
      exact ⟨Swept.refl h, ⟨rfl, rfl, rfl⟩, fun _ => by dsimp only; omega,
        fun hfalse => absurd hfalse (by simp)⟩

theorem Core.swept_planRelease (h : Core s live) : Swept live s (planRelease g s) := by
  refine { Swept.refl h with core := ?_ }
  refine { h with freeNodup := ?_, free := ?_ }
  · exact (perm_insertionSort _ _).nodup_iff.mpr h.freeNodup
  · intro b
    exact ((perm_insertionSort _ _).mem_iff).trans (h.free b)

theorem Core.swept_decommit (h : Core s live) {index : Nat} (hfree : releasable s index = true) :
    Swept live s (decommit s index) := by
  have hfree : (s.blocks index).inUse = false := by
    simp only [releasable, Bool.and_eq_true, Bool.not_eq_true'] at hfree
    exact hfree.1
  have hdecommit : decommit s index = { s with
      blocks := fun b =>
        { s.blocks b with committed := (s.blocks b).committed && decide (b ≠ index) } } := by
    unfold decommit setBlock
    congr 1
    funext b
    by_cases hb : b = index
    · subst hb
      simp
    · simp [hb]
  rw [hdecommit]
  refine
    { core := { h with committed := ?_ }, keeps := ?_, epoch := rfl, count := rfl, small := rfl
      medium := rfl, unswept := fun _ hb => hb, recyclable := fun _ hb => .inl hb }
  all_goals
    intro b hb
    have hne : b ≠ index := by
      rintro rfl
      have hb : (s.blocks b).inUse = true := hb
      rw [hfree] at hb
      exact absurd hb (by simp)
  · simpa [hne] using h.committed b hb
  · intro _
    simp [hne]

theorem Core.swept_setReleaseList (h : Core s live) (list : List Nat) :
    Swept live s { s with releaseList := list } :=
  { Swept.refl h with core := { h with } }

theorem Core.swept_extendRelease (list : List Nat) : ∀ {s : MatureSpace} (low length : Nat),
    Core s live → Swept live s (extendRelease s low length list) ∧
      (extendRelease s low length list).releaseList.length ≤ list.length ∧
      (extendRelease s low length list).active = s.active ∧
      (extendRelease s low length list).high = s.high ∧
      (extendRelease s low length list).low = s.low ∧
      (extendRelease s low length list).releasePlanned = s.releasePlanned := by
  induction list with
  | nil =>
    intro s low length h
    exact ⟨h.swept_setReleaseList [], le_refl _, rfl, rfl, rfl, rfl⟩
  | cons next rest ih =>
    intro s low length h
    rw [extendRelease]
    split
    · rename_i hnext
      have hdec := h.swept_decommit hnext.2.2.2
      obtain ⟨h1, h2, h3, h4, h5, h6⟩ := ih next (length + 1) hdec.core
      exact ⟨hdec.trans h1, h2.trans (Nat.le_succ _), h3, h4, h5, h6⟩
    · exact ⟨h.swept_setReleaseList _, le_refl _, rfl, rfl, rfl, rfl⟩

theorem Core.swept_releaseStep (list : List Nat) : ∀ {s : MatureSpace}, Core s live →
    Swept live s (releaseStep s list).1 ∧
      ((releaseStep s list).2 = true → (releaseStep s list).1.releaseList.length < list.length) ∧
      (releaseStep s list).1.active = s.active ∧
      (releaseStep s list).1.high = s.high ∧
      (releaseStep s list).1.low = s.low ∧
      (releaseStep s list).1.releasePlanned = s.releasePlanned := by
  induction list with
  | nil =>
    intro s h
    exact ⟨h.swept_setReleaseList [], fun hfalse => absurd hfalse (by simp [releaseStep]),
      rfl, rfl, rfl, rfl⟩
  | cons high rest ih =>
    intro s h
    rw [releaseStep]
    split
    · rename_i hhigh
      have hdec := h.swept_decommit hhigh
      obtain ⟨h1, h2, h3, h4, h5, h6⟩ := Core.swept_extendRelease rest high 1 hdec.core
      exact ⟨hdec.trans h1, fun _ => Nat.lt_succ_of_le h2, h3, h4, h5, h6⟩
    · obtain ⟨h1, h2, h3⟩ := ih h
      exact ⟨h1, fun htrue => (h2 htrue).trans (Nat.lt_succ_self _), h3⟩

theorem Core.freeBlocks_length_le (h : Core s live) : s.freeBlocks.length ≤ s.count := by
  have hsub : s.freeBlocks ⊆ List.range s.count := by
    intro b hb
    exact mem_range.mpr ((h.free b).mp hb).1
  have hle := (subperm_of_subset h.freeNodup hsub).length_le
  rwa [length_range] at hle

theorem Core.sweepPiece (h : Core s live) :
    Swept live s (sweepPiece g s).1 ∧ (sweepPiece g s).1.active = s.active ∧
    ((sweepPiece g s).2 = false → (sweepPiece g s).1.high ≤ (sweepPiece g s).1.low) ∧
    ((sweepPiece g s).2 = true → piecesLeft (sweepPiece g s).1 < piecesLeft s) := by
  obtain ⟨h1, h2, h3, h4⟩ := h.sweepBlockFromTop (s.high - s.low) (le_refl _)
  unfold Mature.sweepPiece
  generalize htop : Mature.sweepBlockFromTop (s.high - s.low) s = top at h1 h2 h3 h4
  obtain ⟨t, found⟩ := top
  cases found with
  | true =>
    dsimp only at h1 h2 h4 ⊢
    refine ⟨h1, h2.active, fun hfalse => absurd hfalse (by simp), fun _ => ?_⟩
    have hlt := h4 rfl
    unfold piecesLeft
    rw [h2.planned, h2.list, h1.count]
    omega
  | false =>
    have hle := h3 rfl
    dsimp only at hle h1 h2 ⊢
    by_cases hplanned : t.releasePlanned = true
    · have hnot : ¬ (!t.releasePlanned) = true := by simp [hplanned]
      rw [if_neg hnot]
      obtain ⟨g1, g2, g3, g4, g5, g6⟩ := Core.swept_releaseStep t.releaseList h1.core
      refine ⟨h1.trans g1, g3.trans h2.active, fun _ => ?_, fun htrue => ?_⟩
      · rw [g4, g5]
        exact hle
      · have hlt := g2 htrue
        have hs : s.releasePlanned = true := h2.planned ▸ hplanned
        unfold piecesLeft
        rw [g4, g5, g6, hplanned, hs, ← h2.list]
        simp only [if_true]
        omega
    · have hnot : (!t.releasePlanned) = true := by simpa using hplanned
      rw [if_pos hnot]
      have hplan := h1.core.swept_planRelease (g := g)
      refine ⟨h1.trans hplan, h2.active, fun hfalse => absurd hfalse (by simp), fun _ => ?_⟩
      have hs : ¬ s.releasePlanned = true := h2.planned ▸ hplanned
      have hfree := h1.core.freeBlocks_length_le
      have hlist : (planRelease g t).releaseList.length ≤ t.freeBlocks.length := by
        unfold planRelease
        simp
      have hcount := h1.count
      unfold piecesLeft
      rw [if_neg hs, if_pos (show (planRelease g t).releasePlanned = true from rfl)]
      have hhigh : (planRelease g t).high = t.high := rfl
      have hlow : (planRelease g t).low = t.low := rfl
      dsimp only
      rw [hhigh, hlow]
      omega

theorem Core.sweepWork (n : Nat) : ∀ {s : MatureSpace}, Core s live →
    Swept live s (sweepWork g n s).1 ∧ (sweepWork g n s).1.active = s.active ∧
    ((sweepWork g n s).2 = true → (sweepWork g n s).1.high ≤ (sweepWork g n s).1.low) ∧
    (piecesLeft s ≤ n → (sweepWork g n s).2 = true) := by
  induction n with
  | zero =>
    intro s h
    refine ⟨Swept.refl h, rfl, fun hfalse => absurd hfalse (by simp [Mature.sweepWork]), ?_⟩
    intro hle
    unfold piecesLeft at hle
    omega
  | succ n ih =>
    intro s h
    obtain ⟨h1, h2, h3, h4⟩ := h.sweepPiece (g := g)
    rw [Mature.sweepWork]
    generalize Mature.sweepPiece g s = piece at h1 h2 h3 h4
    obtain ⟨t, more⟩ := piece
    cases more with
    | true =>
      obtain ⟨g1, g2, g3, g4⟩ := ih h1.core
      refine ⟨h1.trans g1, g2.trans h2, g3, fun hle => g4 ?_⟩
      have hlt := h4 rfl
      dsimp only at hlt ⊢
      omega
    | false => exact ⟨h1, h2, fun _ => h3 rfl, fun _ => rfl⟩

theorem Core.swept_endSweep (h : Core s live) (hdone : s.high ≤ s.low) :
    Swept live s (endSweep s) :=
  { Swept.refl h with
    core := { h with idle := fun _ => hdone, marking := fun _ => rfl } }

theorem Core.swept_completeSweep (h : Core s live) :
    Swept live s (completeSweep g s) ∧ (completeSweep g s).active = false := by
  unfold completeSweep
  by_cases hactive : s.active = true
  · rw [if_pos hactive]
    obtain ⟨h1, _, h3, h4⟩ := h.sweepWork (g := g) (piecesLeft s)
    exact ⟨h1.trans (h1.core.swept_endSweep (h3 (h4 (le_refl _)))), rfl⟩
  · rw [if_neg hactive]
    exact ⟨Swept.refl h, by simpa using hactive⟩

theorem Core.swept_sweepSlice (h : Core s live) (n : Nat) : Swept live s (sweepSlice g s n) := by
  unfold sweepSlice
  by_cases hactive : s.active = true
  · rw [if_pos hactive]
    obtain ⟨h1, _, h3, _⟩ := h.sweepWork (g := g) n
    generalize Mature.sweepWork g n s = work at h1 h3
    obtain ⟨t, done⟩ := work
    cases done with
    | true => exact h1.trans (h1.core.swept_endSweep (h3 rfl))
    | false => exact h1
  · rw [if_neg hactive]
    exact Swept.refl h

theorem Core.swept_sweepForAllocation (fromTop : Bool) (n : Nat) :
    ∀ {s : MatureSpace} (swept : Nat), Core s live →
    Swept live s (sweepForAllocation fromTop n swept s).1 := by
  induction n with
  | zero => exact fun _ h => Swept.refl h
  | succ n ih =>
    intro s swept h
    rw [sweepForAllocation]
    by_cases hgo : s.low < s.high ∧ swept < kAllocatorSweepBlocks
    · rw [if_pos hgo]
      -- The block at one end, and the range without it.
      obtain ⟨index, low, high, hindex, hnext, hend⟩ : ∃ index low high,
          (if fromTop then s.high - 1 else s.low) = index ∧
          (if fromTop then { s with high := s.high - 1 } else { s with low := s.low + 1 }) =
            ({ s with low := low, high := high } : MatureSpace) ∧
          ∀ b, s.low ≤ b → b < s.high → b ≠ index → low ≤ b ∧ b < high := by
        cases fromTop with
        | true => exact ⟨_, s.low, s.high - 1, rfl, rfl, fun b h1 h2 h3 => by
            simp only [if_true] at h3
            omega⟩
        | false => exact ⟨_, s.low + 1, s.high, rfl, rfl, fun b h1 h2 h3 => by
            simp only [Bool.false_eq_true, if_false] at h3
            omega⟩
      dsimp only
      rw [hindex, hnext]
      by_cases hu : blockUnswept s index = true
      · have hu' : blockUnswept { s with low := low, high := high } index = true := hu
        rw [if_pos hu']
        have hswept := h.swept_sweepBlock low high hu
          (fun b hb hne => hend b (h.range b hb).1 (h.range b hb).2 hne)
        split
        · exact hswept
        · exact hswept.trans (ih _ hswept.core)
      · have hu' : ¬ blockUnswept { s with low := low, high := high } index = true := hu
        rw [if_neg hu']
        have hnarrow := h.swept_narrow low high
          (fun b hb => hend b (h.range b hb).1 (h.range b hb).2 (fun heq => hu (heq ▸ hb)))
          (fun hidle => absurd (h.idle hidle) (by omega))
        exact hnarrow.trans (ih _ hnarrow.core)
    · rw [if_neg hgo]
      exact Swept.refl h

theorem Core.swept_sweepBlocksForAllocation (h : Core s live) (fromTop : Bool) :
    Swept live s (sweepBlocksForAllocation s fromTop).1 :=
  Core.swept_sweepForAllocation fromTop _ 0 h

theorem Core.swept_sweepBeforeAcquire (h : Core s live) (holesWillDo : Bool) :
    Swept live s (sweepBeforeAcquire g s holesWillDo) := by
  unfold sweepBeforeAcquire
  by_cases hmay : maySweep g s = true
  · rw [if_pos hmay]
    have hbottom := h.swept_sweepBlocksForAllocation false
    generalize sweepBlocksForAllocation s false = p at hbottom ⊢
    obtain ⟨u, found⟩ := p
    have hfirst : ∃ t, Swept live s t ∧ (if s.freeBlocks.isEmpty then
          if !found && (!holesWillDo || u.recyclableBlocks.isEmpty) then
            (sweepBlocksForAllocation u true).1
          else u
        else s) = t := by
      refine ⟨_, ?_, rfl⟩
      split
      · split
        · exact hbottom.trans (hbottom.core.swept_sweepBlocksForAllocation true)
        · exact hbottom
      · exact Swept.refl h
    obtain ⟨t, hswept, ht⟩ := hfirst
    dsimp only
    rw [ht]
    split
    · exact hswept.trans (hswept.core.swept_completeSweep).1
    · exact hswept
  · rw [if_neg hmay]
    exact Swept.refl h

end Pieces

end Brass.Gc.Mature
