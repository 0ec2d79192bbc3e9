import Brass.Gc.MatureSweep

/-!
# The mature space over whole runs

The allocator's part: a refill hands a region a run of lines that no live object touches,
in a block that is swept, and an object placed there is apart from every live one. With
the sweep's part this gives the invariant of whole runs.
-/

namespace Brass.Gc.Mature

open Option

open Function (update update_of_ne update_self)

open List

variable {b total : Nat} {r : BumpRegion} {o : Obj}

/-- Which blocks the regions and the recyclable list hold: swept ones in use, and none
twice. -/
structure Filed (s : MatureSpace) : Prop where
  small : ∀ b, s.smallRegion.block = some b →
    (s.blocks b).inUse = true ∧ blockUnswept s b = false
  medium : ∀ b, s.mediumRegion.block = some b →
    (s.blocks b).inUse = true ∧ blockUnswept s b = false
  distinct : ∀ b, s.smallRegion.block = some b → s.mediumRegion.block ≠ some b
  filed : ∀ b ∈ s.recyclableBlocks, s.smallRegion.block ≠ some b ∧ s.mediumRegion.block ≠ some b

/-- The rest of a region's hole touches no live object. -/
structure Hole (live : List Obj) (r : BumpRegion) : Prop where
  none : r.block = Option.none → r.limit = 0
  bounds : ∀ b, r.block = some b → blockBase b ≤ r.cursor ∧ r.cursor ≤ r.limit ∧
    r.limit ≤ blockBase b + kBlockBytes ∧ r.cursor % kGranuleBytes = 0
  free : ∀ o ∈ live, o.header + o.total ≤ r.cursor ∨ r.limit ≤ o.header

theorem hole_none (live : List Obj) : Hole live .none :=
  ⟨fun _ => rfl, fun _ h => absurd h (by simp [BumpRegion.none]), fun _ _ => .inr (Nat.zero_le _)⟩

variable {live : List Obj} {s t : MatureSpace} {g : Setting}

theorem Swept.filed (h : Swept live s t) (hf : Filed s) : Filed t := by
  have hstay : ∀ b, (s.blocks b).inUse = true ∧ blockUnswept s b = false →
      (t.blocks b).inUse = true ∧ blockUnswept t b = false := by
    rintro b ⟨h1, h2⟩
    exact ⟨by rw [h.keeps b h1 h2]; exact h1, h.stays h2⟩
  refine { small := ?_, medium := ?_, distinct := ?_, filed := ?_ }
  · intro b hb
    rw [h.small] at hb
    exact hstay b (hf.small b hb)
  · intro b hb
    rw [h.medium] at hb
    exact hstay b (hf.medium b hb)
  · rw [h.small, h.medium]
    exact hf.distinct
  · intro b hb
    rw [h.small, h.medium]
    rcases h.recyclable b hb with hb | hb
    · exact hf.filed b hb
    · -- A region's block is swept, so it is not one that the sweep has just filed.
      constructor
      · intro heq
        rw [(hf.small b heq).2] at hb
        exact absurd hb (by simp)
      · intro heq
        rw [(hf.medium b heq).2] at hb
        exact absurd hb (by simp)

/-! ## Taking a block -/

/-- `t` is `s` with a block that was not in use taken into use, empty and swept. -/
structure TakenAt (s : MatureSpace) (index : Nat) (t : MatureSpace) : Prop where
  inUse : (t.blocks index).inUse = true
  committed : (t.blocks index).committed = true
  epochSelf : (t.blocks index).sweepEpoch = s.epoch
  starts : ∀ g, (t.blocks index).starts g = false
  marks : ∀ g, (t.blocks index).marks g = false
  lineUsed : ∀ l < kLinesPerBlock, (t.blocks index).lineUsed l = false
  lineMark : ∀ l, (t.blocks index).lineMark l = false
  other : ∀ b, b ≠ index → t.blocks b = s.blocks b
  count : ∀ b, b < t.count ↔ b < s.count ∨ b = index
  freeNodup : t.freeBlocks.Nodup
  free : ∀ b, b ∈ t.freeBlocks ↔ b ∈ s.freeBlocks ∧ b ≠ index
  epoch : t.epoch = s.epoch
  marking : t.marking = s.marking
  active : t.active = s.active
  low : t.low = s.low
  high : t.high = s.high
  number : t.unsweptBlocks = s.unsweptBlocks
  recyclable : t.recyclableBlocks = s.recyclableBlocks
  smallRegion : t.smallRegion = s.smallRegion
  mediumRegion : t.mediumRegion = s.mediumRegion

namespace TakenAt

variable {index : Nat}

theorem unswept_self (h : TakenAt s index t) : blockUnswept t index = false := by
  simp [blockUnswept, h.epochSelf, h.epoch]

theorem unswept_eq (h : TakenAt s index t) (hfree : (s.blocks index).inUse = false) (b : Nat) :
    blockUnswept t b = blockUnswept s b := by
  by_cases hb : b = index
  · subst hb
    rw [h.unswept_self]
    simp [blockUnswept, hfree]
  · simp only [blockUnswept, h.other b hb, h.epoch]

theorem live_ne (hc : Core s live) (hfree : (s.blocks index).inUse = false) :
    ∀ o ∈ live, o.block ≠ index := by
  rintro o ho rfl
  rw [hc.inUse o ho] at hfree
  exact absurd hfree (by simp)

theorem core (h : TakenAt s index t) (hc : Core s live)
    (hfree : (s.blocks index).inUse = false) : Core t live := by
  have hne := live_ne hc hfree
  have hun := h.unswept_eq hfree
  refine Core.of_blocks hc.fits hc.apart (fun b => ?_)
    { below := ?_, freeNodup := h.freeNodup, free := ?_
      recyclableNodup := h.recyclable ▸ hc.recyclableNodup, recyclable := ?_, range := ?_
      number := ?_, idle := ?_, marking := ?_ }
  · rw [h.marking]
    by_cases hb : b = index
    · -- No live object is in the block, and nothing is marked in it.
      subst hb
      rw [h.unswept_self]
      refine
        { inUse := fun o ho hob => absurd hob (hne o ho)
          started := fun o ho hob => absurd hob (hne o ho)
          size := fun o ho hob => absurd hob (hne o ho), exact := fun _ g hg => ?_
          used := fun _ o ho hob => absurd hob (hne o ho)
          keep := fun _ o ho hob => absurd hob (hne o ho), markLive := fun g hg => ?_
          markLines := fun o ho hob => absurd hob (hne o ho)
          clean := fun _ _ => ⟨h.marks, h.lineMark⟩
          clear := fun _ => ⟨h.lineUsed, h.marks, h.lineMark⟩, committed := fun _ => h.committed }
      · rw [h.starts] at hg
        exact absurd hg Bool.false_ne_true
      · rw [h.marks] at hg
        exact absurd hg Bool.false_ne_true
    · rw [hun, h.other b hb]
      exact hc.blockOk b
  · intro b hb
    by_cases hbi : b = index
    · exact (h.count b).mpr (.inr hbi)
    · rw [h.other b hbi] at hb
      exact (h.count b).mpr (.inl (hc.below b hb))
  · intro b
    rw [h.free, h.count, hc.free]
    by_cases hbi : b = index
    · subst hbi
      simp [h.inUse]
    · simp [hbi, h.other b hbi]
  · intro b hb
    rw [h.recyclable] at hb
    obtain ⟨h1, h2, h3⟩ := hc.recyclable b hb
    have hbi : b ≠ index := by
      rintro rfl
      rw [hfree] at h1
      exact absurd h1 (by simp)
    rw [hun, h.other b hbi]
    exact ⟨h1, h2, h3⟩
  · intro b hb
    rw [hun] at hb
    rw [h.low, h.high]
    exact hc.range b hb
  · have hset : unsweptSet t = unsweptSet s := by
      ext b
      rw [mem_unsweptSet, mem_unsweptSet, hun, h.count]
      constructor
      · rintro ⟨_, hb⟩
        exact ⟨hc.below b (Core.unswept_inUse hb), hb⟩
      · rintro ⟨hb, hub⟩
        exact ⟨.inl hb, hub⟩
    rw [h.number, hset]
    exact hc.number
  · intro hidle
    rw [h.low, h.high]
    exact hc.idle (h.active ▸ hidle)
  · intro hmarking
    rw [h.active]
    exact hc.marking (h.marking ▸ hmarking)

theorem filed (h : TakenAt s index t) (hf : Filed s) (hfree : (s.blocks index).inUse = false) :
    Filed t := by
  have hstay : ∀ b, (s.blocks b).inUse = true ∧ blockUnswept s b = false →
      (t.blocks b).inUse = true ∧ blockUnswept t b = false := by
    rintro b ⟨h1, h2⟩
    have hbi : b ≠ index := by
      rintro rfl
      rw [hfree] at h1
      exact absurd h1 (by simp)
    rw [h.unswept_eq hfree, h.other b hbi]
    exact ⟨h1, h2⟩
  refine { small := ?_, medium := ?_, distinct := ?_, filed := ?_ }
  · intro b hb
    rw [h.smallRegion] at hb
    exact hstay b (hf.small b hb)
  · intro b hb
    rw [h.mediumRegion] at hb
    exact hstay b (hf.medium b hb)
  · rw [h.smallRegion, h.mediumRegion]
    exact hf.distinct
  · rw [h.smallRegion, h.mediumRegion, h.recyclable]
    exact hf.filed

end TakenAt

theorem Core.takenAt_free (h : Core s live) {index : Nat} {rest : List Nat}
    (hlist : s.freeBlocks = index :: rest) :
    TakenAt s index (takeBlock { s with freeBlocks := rest } index) ∧
      (s.blocks index).inUse = false := by
  have hnodup := h.freeNodup
  rw [hlist, nodup_cons] at hnodup
  obtain ⟨hlt, hfree⟩ := (h.free index).mp (by rw [hlist]; exact mem_cons_self)
  obtain ⟨hused, hmarks, hlineMark⟩ := h.clear index hfree
  have hself : (takeBlock { s with freeBlocks := rest } index).blocks index =
      { s.blocks index with committed := true, inUse := true, sweepEpoch := s.epoch } :=
    update_self ..
  have hswept : blockUnswept s index = false := by simp [blockUnswept, hfree]
  have hstarts : ∀ g, (s.blocks index).starts g = false := by
    intro g
    by_contra hstart
    obtain ⟨o, ho, hb, _⟩ := h.exact index g hswept (by simpa using hstart)
    exact TakenAt.live_ne h hfree o ho hb
  refine ⟨?_, hfree⟩
  exact
    { inUse := by rw [hself], committed := by rw [hself], epochSelf := by rw [hself]
      starts := by rw [hself]; exact hstarts
      marks := by rw [hself]; exact hmarks
      lineUsed := by rw [hself]; exact hused
      lineMark := by rw [hself]; exact hlineMark
      other := fun b hb => update_of_ne hb _ _
      count := fun b => ⟨.inl, fun hb => hb.elim id fun heq => heq ▸ hlt⟩
      freeNodup := hnodup.2
      free := by
        intro b
        show b ∈ rest ↔ _
        rw [hlist, mem_cons]
        constructor
        · exact fun hb => ⟨.inr hb, fun heq => hnodup.1 (heq ▸ hb)⟩
        · rintro ⟨rfl | hb, hne⟩
          · exact absurd rfl hne
          · exact hb
      epoch := rfl, marking := rfl, active := rfl, low := rfl, high := rfl, number := rfl, recyclable := rfl
      smallRegion := rfl, mediumRegion := rfl }

theorem Core.takenAt_fresh (h : Core s live) : TakenAt s s.count
      (takeBlock (setBlock { s with count := s.count + 1 } s.count .fresh) s.count) ∧
      (s.blocks s.count).inUse = false := by
  have hfree : (s.blocks s.count).inUse = false := by
    by_contra hin
    have := h.below s.count (by simpa using hin)
    omega
  have hself : (takeBlock (setBlock { s with count := s.count + 1 } s.count .fresh)
      s.count).blocks s.count =
      { BlockMeta.fresh with committed := true, inUse := true, sweepEpoch := s.epoch } := by
    simp [takeBlock, setBlock]
  refine ⟨?_, hfree⟩
  exact
    { inUse := by rw [hself], committed := by rw [hself], epochSelf := by rw [hself]
      starts := by rw [hself]; exact fun _ => rfl
      marks := by rw [hself]; exact fun _ => rfl
      lineUsed := by rw [hself]; exact fun _ _ => rfl
      lineMark := by rw [hself]; exact fun _ => rfl
      other := by
        intro b hb
        simp [takeBlock, setBlock, update_of_ne hb]
      count := fun b => by
        show b < s.count + 1 ↔ _
        omega
      freeNodup := h.freeNodup
      free := by
        intro b
        show b ∈ s.freeBlocks ↔ _
        refine ⟨fun hb => ⟨hb, ?_⟩, fun hb => hb.1⟩
        rintro rfl
        have := ((h.free s.count).mp hb).1
        omega
      epoch := rfl, marking := rfl, active := rfl, low := rfl, high := rfl, number := rfl, recyclable := rfl
      smallRegion := rfl, mediumRegion := rfl }

/-- What `acquireFreeBlock` leaves: both regions as they were, and a block that is returned
is empty and in no list. -/
structure AcquireOk (live : List Obj) (s : MatureSpace) (r : MatureSpace × Acquired) : Prop where
  core : Core r.1 live
  filed : Filed r.1
  small : r.1.smallRegion = s.smallRegion
  medium : r.1.mediumRegion = s.mediumRegion
  holes : r.2 = .holesFiled → r.1.recyclableBlocks ≠ []
  block : ∀ b, r.2 = .block b → (r.1.blocks b).inUse = true ∧ blockUnswept r.1 b = false ∧
    (∀ l < kLinesPerBlock, (r.1.blocks b).lineUsed l = false) ∧
    s.smallRegion.block ≠ some b ∧ s.mediumRegion.block ≠ some b ∧ b ∉ r.1.recyclableBlocks ∧
    ∀ o ∈ live, o.block ≠ b

theorem TakenAt.acquireOk {index : Nat} (h : TakenAt s index t) (hc : Core s live) (hf : Filed s)
    (hfree : (s.blocks index).inUse = false) : AcquireOk live s (t, .block index) := by
  have hnot : ∀ b, (s.blocks b).inUse = true → b ≠ index := by
    rintro b hb rfl
    rw [hfree] at hb
    exact absurd hb (by simp)
  refine
    { core := h.core hc hfree, filed := h.filed hf hfree, small := h.smallRegion
      medium := h.mediumRegion, holes := fun heq => absurd heq (by simp), block := ?_ }
  intro b hb
  obtain rfl : index = b := by simpa using hb
  refine ⟨h.inUse, h.unswept_self, h.lineUsed, ?_, ?_, ?_, TakenAt.live_ne hc hfree⟩
  · exact fun heq => hnot index (hf.small index heq).1 rfl
  · exact fun heq => hnot index (hf.medium index heq).1 rfl
  · intro hmem
    rw [h.recyclable] at hmem
    exact hnot index (hc.recyclable index hmem).1 rfl

theorem Core.acquireFreeBlock (hc : Core s live) (hf : Filed s) (holesWillDo : Bool) :
    AcquireOk live s (Mature.acquireFreeBlock g s holesWillDo) := by
  have hswept := hc.swept_sweepBeforeAcquire (g := g) holesWillDo
  unfold Mature.acquireFreeBlock
  generalize sweepBeforeAcquire g s holesWillDo = u at hswept
  have hfu := hswept.filed hf
  have hcu := hswept.core
  -- The regions are those before the sweep.
  have hlift : ∀ r, AcquireOk live u r → AcquireOk live s r := by
    intro r h
    refine
      { core := h.core, filed := h.filed, small := h.small.trans hswept.small
        medium := h.medium.trans hswept.medium, holes := h.holes, block := ?_ }
    rw [← hswept.small, ← hswept.medium]
    exact h.block
  refine hlift _ ?_
  dsimp only
  split
  · rename_i hholes
    refine ⟨hcu, hfu, rfl, rfl, ?_, fun b hb => absurd hb (by simp)⟩
    intro _ hnil
    have hnil : u.recyclableBlocks = [] := hnil
    simp [hnil] at hholes
  · split
    · exact ⟨hcu, hfu, rfl, rfl, fun h => absurd h (by simp), fun b hb => absurd hb (by simp)⟩
    · split
      · rename_i index rest hlist
        obtain ⟨htaken, hfree⟩ := hcu.takenAt_free hlist
        exact htaken.acquireOk hcu hfu hfree
      · split
        · exact ⟨hcu, hfu, rfl, rfl, fun h => absurd h (by simp), fun b hb => absurd hb (by simp)⟩
        · obtain ⟨htaken, hfree⟩ := hcu.takenAt_fresh
          exact htaken.acquireOk hcu hfu hfree

/-! ## Refilling a region -/

/-- Lines that no live object of the block touches are apart from every live object. -/
theorem Core.free_of_lines (h : Core s live) {first last : Nat} (hb : blockUnswept s b = false)
    (hlast : last ≤ kLinesPerBlock) (hlt : first < last)
    (hlines : ∀ l, first ≤ l → l < last → (s.blocks b).lineUsed l = false) :
    ∀ o ∈ live, o.header + o.total ≤ blockBase b + first * kLineBytes ∨
      blockBase b + last * kLineBytes ≤ o.header := by
  intro o ho
  have hfits := h.fits o ho
  have hin := hfits.inside
  have hleast := hfits.least
  have hdiv : blockBase o.block ≤ o.header := Nat.div_mul_le_self _ _
  by_cases hob : o.block = b
  · by_contra hcon
    rw [hob] at hdiv hin
    -- The first line that the object shares with the hole.
    have htouch : o.touches (max first ((o.header - blockBase b) / kLineBytes)) = true := by
      unfold Obj.touches linesOf
      rw [hob]
      simp only [decide_eq_true_eq]
      unfold kLineBytes kHeaderBytes kGranuleBytes kBlockBytes at *
      omega
    have hused := h.used o ho (hob ▸ hb) _ htouch
    have hunused := hlines (max first ((o.header - blockBase b) / kLineBytes)) (le_max_left _ _) (by
      unfold kLineBytes at *
      omega)
    rw [hob, hunused] at hused
    exact absurd hused (by simp)
  · unfold blockBase kBlockBytes kLinesPerBlock kLineBytes at *
    omega

theorem nextHole_eq_some {r' : BumpRegion} (h : nextHole s r = some r') :
    ∃ index line stop, r.block = some index ∧ line < stop ∧ stop ≤ kLinesPerBlock ∧
      (∀ l, line ≤ l → l < stop → (s.blocks index).lineUsed l = false) ∧
      r' = { r with
        cursor := blockBase index + line * kLineBytes
        limit := blockBase index + stop * kLineBytes
        nextLine := stop } := by
  unfold nextHole at h
  cases hblock : r.block with
  | none => simp [hblock] at h
  | some index =>
    simp only [hblock] at h
    cases hline : (range' r.nextLine (kLinesPerBlock - r.nextLine)).find?
        (fun l => !(s.blocks index).lineUsed l) with
    | none => simp [hline] at h
    | some line =>
      simp only [hline, some.injEq] at h
      have hunused : (s.blocks index).lineUsed line = false := by
        simpa using find?_some hline
      have hmem := mem_range'_1.mp (mem_of_find?_eq_some hline)
      have hlt : line < kLinesPerBlock := by omega
      cases hstop : (range' (line + 1) (kLinesPerBlock - (line + 1))).find?
          (s.blocks index).lineUsed with
      | none =>
        refine ⟨index, line, kLinesPerBlock, rfl, hlt, le_refl _, ?_, ?_⟩
        · intro l hl hl'
          by_cases heq : l = line
          · exact heq ▸ hunused
          · have hnone := find?_eq_none.mp hstop l (mem_range'_1.mpr (by omega))
            simpa using hnone
        · rw [← h, hstop]
          rfl
      | some stop =>
        obtain ⟨_, as, bs, happ, hbefore⟩ := find?_eq_some_iff_append.mp hstop
        have hsmem := mem_range'_1.mp (mem_of_find?_eq_some hstop)
        refine ⟨index, line, stop, rfl, by omega, by omega, ?_, ?_⟩
        · intro l hl hl'
          by_cases heq : l = line
          · exact heq ▸ hunused
          · -- The lines before the first used one come before it in the search.
            have hsorted : (range' (line + 1) (kLinesPerBlock - (line + 1))).Pairwise (· < ·) :=
              pairwise_lt_range'
            have hl_mem : l ∈ range' (line + 1) (kLinesPerBlock - (line + 1)) :=
              mem_range'_1.mpr (by omega)
            rw [happ] at hl_mem hsorted
            rcases mem_append.mp hl_mem with hl_mem | hl_mem
            · simpa using hbefore l hl_mem
            · rcases mem_cons.mp hl_mem with rfl | hl_mem
              · omega
              · have hgt := (pairwise_cons.mp (pairwise_append.mp hsorted).2.1).1 l hl_mem
                omega
        · rw [← h, hstop]
          rfl

theorem nextHole_isSome (hblock : r.block = some b) (hline : r.nextLine = 0)
    (hfree : ∃ l < kLinesPerBlock, (s.blocks b).lineUsed l = false) :
    (nextHole s r).isSome = true := by
  obtain ⟨l, hl, hunused⟩ := hfree
  unfold nextHole
  simp only [hblock, hline]
  cases hfind : (range' 0 (kLinesPerBlock - 0)).find? (fun l => !(s.blocks b).lineUsed l) with
  | none =>
    have hnone := find?_eq_none.mp hfind l (mem_range'_1.mpr (by omega))
    simp [hunused] at hnone
  | some line => rfl

structure RefillOk (live : List Obj) (w : Which) (r : MatureSpace × Refill) : Prop where
  core : Core r.1 live
  filed : Filed r.1
  small : Hole live r.1.smallRegion
  medium : Hole live r.1.mediumRegion
  /-- After a refill that succeeds the region fits any object it is for. -/
  room : r.2 = .ok → (∃ b, (regionOf r.1 w).block = some b) ∧
    (match w with
     | .small => kLineBytes
     | .medium => kBlockBytes) ≤ (regionOf r.1 w).limit - (regionOf r.1 w).cursor
  done : r.2 ≠ .stuck

theorem Core.refillOk_hole (hc : Core s live) (hf : Filed s) (hm : Hole live s.mediumRegion)
    (h : nextHole s s.smallRegion = some r) :
    RefillOk live .small ({ s with smallRegion := r }, .ok) := by
  obtain ⟨index, line, stop, hblock, hlt, hle, hlines, rfl⟩ := nextHole_eq_some h
  obtain ⟨hin, hswept⟩ := hf.small index hblock
  refine
    { core := { hc with }, filed := ⟨hf.small, hf.medium, hf.distinct, hf.filed⟩
      small := ?_, medium := hm, room := ?_, done := by simp }
  · refine { none := ?_, bounds := ?_, free := hc.free_of_lines hswept hle hlt hlines }
    · intro hnone
      have hnone : s.smallRegion.block = none := hnone
      rw [hblock] at hnone
      exact absurd hnone (by simp)
    · intro b hb
      have hb : s.smallRegion.block = some b := hb
      obtain rfl : index = b := by simpa [hblock] using hb
      dsimp only
      unfold blockBase kBlockBytes kLineBytes kGranuleBytes kLinesPerBlock at *
      omega
  · intro _
    refine ⟨⟨index, hblock⟩, ?_⟩
    show kLineBytes ≤ (blockBase index + stop * kLineBytes) - (blockBase index + line * kLineBytes)
    unfold kLineBytes
    omega

section

variable (n : Nat) (hc : Core s live) (hf : Filed s) (hm : Hole live s.mediumRegion)
include n hc hf hm

theorem Core.refillOk_ready (hblock : s.smallRegion.block = some b)
    (hline : s.smallRegion.nextLine = 0)
    (hfree : ∃ l < kLinesPerBlock, (s.blocks b).lineUsed l = false) :
    RefillOk live .small (refillSmall g (n + 1) s) := by
  obtain ⟨r, hr⟩ := isSome_iff_exists.mp (nextHole_isSome hblock hline hfree)
  rw [refillSmall, hr]
  exact hc.refillOk_hole hf hm hr

theorem Core.refillOk_pop {index : Nat} {rest : List Nat}
    (hlist : s.recyclableBlocks = index :: rest) :
    RefillOk live .small
      (refillSmall g (n + 1) (enterBlock { s with recyclableBlocks := rest } index)) := by
  have hmem : index ∈ s.recyclableBlocks := by
    rw [hlist]
    exact mem_cons_self
  have hrest : ∀ b ∈ rest, b ∈ s.recyclableBlocks := by
    intro b hb
    rw [hlist]
    exact mem_cons_of_mem _ hb
  have hnodup := hc.recyclableNodup
  rw [hlist, nodup_cons] at hnodup
  obtain ⟨hin, hswept, hfree⟩ := hc.recyclable index hmem
  refine Core.refillOk_ready n ?_ ?_ hm (b := index) rfl rfl hfree
  · exact { hc with
      recyclableNodup := hnodup.2
      recyclable := fun b hb => hc.recyclable b (hrest b hb) }
  · refine { small := ?_, medium := hf.medium, distinct := ?_, filed := ?_ }
    · intro b hb
      obtain rfl : index = b := by simpa [enterBlock] using hb
      exact ⟨hin, hswept⟩
    · intro b hb
      obtain rfl : index = b := by simpa [enterBlock] using hb
      exact (hf.filed index hmem).2
    · intro b hb
      refine ⟨?_, (hf.filed b (hrest b hb)).2⟩
      intro heq
      obtain rfl : index = b := by simpa [enterBlock] using heq
      exact hnodup.1 hb

theorem Core.refillOk_filed (hne : s.recyclableBlocks ≠ []) :
    RefillOk live .small (refillSmall g (n + 2) s) := by
  rw [refillSmall]
  cases hhole : nextHole s s.smallRegion with
  | some r => exact hc.refillOk_hole hf hm hhole
  | none =>
    have hnot : ¬ (s.recyclableBlocks.isEmpty && maySweep g s) = true := by simp [hne]
    dsimp only
    rw [if_neg hnot]
    cases hlist : s.recyclableBlocks with
    | nil => exact absurd hlist hne
    | cons index rest => exact hc.refillOk_pop n hf hm hlist

theorem Core.refillOk_small : RefillOk live .small (refillSmall g (n + 3) s) := by
  rw [refillSmall]
  cases hhole : nextHole s s.smallRegion with
  | some r => exact hc.refillOk_hole hf hm hhole
  | none =>
    dsimp only
    have hswept : ∃ u, Swept live s u ∧
        (if s.recyclableBlocks.isEmpty && maySweep g s then (sweepBlocksForAllocation s false).1
          else s) = u := by
      refine ⟨_, ?_, rfl⟩
      split
      · exact hc.swept_sweepBlocksForAllocation false
      · exact Swept.refl hc
    obtain ⟨u, hswept, hu⟩ := hswept
    rw [hu]
    have hcu := hswept.core
    have hfu := hswept.filed hf
    have hmu : Hole live u.mediumRegion := hswept.medium ▸ hm
    cases hlist : u.recyclableBlocks with
    | cons index rest => exact hcu.refillOk_pop (n + 1) hfu hmu hlist
    | nil =>
      dsimp only
      have hacq := hcu.acquireFreeBlock (g := g) hfu true
      generalize Mature.acquireFreeBlock g u true = acq at hacq
      obtain ⟨v, _ | _ | index⟩ := acq
      · have hcv := hacq.core
        have hfv := hacq.filed
        have hmv : Hole live v.mediumRegion := hacq.medium ▸ hmu
        refine
          { core := { hcv with }, filed := ?_, small := hole_none live, medium := hmv
            room := fun h => absurd h (by simp), done := by simp }
        refine { small := ?_, medium := hfv.medium, distinct := ?_, filed := ?_ }
        · exact fun b hb => absurd hb (by simp [BumpRegion.none])
        · exact fun b hb => absurd hb (by simp [BumpRegion.none])
        · exact fun b hb => ⟨by simp [BumpRegion.none], (hfv.filed b hb).2⟩
      · exact hacq.core.refillOk_filed n hacq.filed (hacq.medium ▸ hmu) (hacq.holes rfl)
      · obtain ⟨hin, hsw, hlines, _, hmed, hrec, _⟩ := hacq.block index rfl
        have hcv := hacq.core
        have hfv := hacq.filed
        have hmv : Hole live v.mediumRegion := hacq.medium ▸ hmu
        refine Core.refillOk_ready (n + 1) (s := enterBlock v index) { hcv with } ?_ hmv
          (b := index) rfl rfl ⟨0, by decide, hlines 0 (by decide)⟩
        refine { small := ?_, medium := hfv.medium, distinct := ?_, filed := ?_ }
        · intro b hb
          obtain rfl : index = b := by simpa [enterBlock] using hb
          exact ⟨hin, hsw⟩
        · intro b hb
          obtain rfl : index = b := by simpa [enterBlock] using hb
          show v.mediumRegion.block ≠ _
          rw [hacq.medium]
          exact hmed
        · intro b hb
          refine ⟨?_, (hfv.filed b hb).2⟩
          intro heq
          obtain rfl : index = b := by simpa [enterBlock] using heq
          exact hrec hb

end

theorem Core.refillOk_medium (hc : Core s live) (hf : Filed s) (hs : Hole live s.smallRegion)
    (hm : Hole live s.mediumRegion) : RefillOk live .medium (refillMedium g s) := by
  unfold refillMedium
  have hacq := hc.acquireFreeBlock (g := g) hf false
  generalize Mature.acquireFreeBlock g s false = acq at hacq
  have hsmall : Hole live acq.1.smallRegion := hacq.small ▸ hs
  have hmedium : Hole live acq.1.mediumRegion := hacq.medium ▸ hm
  have hfail : RefillOk live .medium (acq.1, .exhausted) :=
    { core := hacq.core, filed := hacq.filed, small := hsmall, medium := hmedium
      room := fun h => absurd h (by simp), done := by simp }
  obtain ⟨v, _ | _ | index⟩ := acq
  · exact hfail
  · exact hfail
  · obtain ⟨hin, hsw, hlines, hsm, _, hrec, hlive⟩ := hacq.block index rfl
    have hcv := hacq.core
    have hfv := hacq.filed
    refine
      { core := { hcv with }, filed := ?_, small := hsmall, medium := ?_, room := ?_
        done := by simp }
    · refine { small := hfv.small, medium := ?_, distinct := ?_, filed := ?_ }
      · intro b hb
        obtain rfl : index = b := by simpa using hb
        exact ⟨hin, hsw⟩
      · intro b hb heq
        obtain rfl : index = b := by simpa using heq
        have hb : v.smallRegion.block = some index := hb
        rw [hacq.small] at hb
        exact hsm hb
      · intro b hb
        refine ⟨(hfv.filed b hb).1, ?_⟩
        intro heq
        obtain rfl : index = b := by simpa using heq
        exact hrec hb
    · refine { none := fun hnone => absurd hnone (by simp), bounds := ?_, free := ?_ }
      · intro b hb
        obtain rfl : index = b := by simpa using hb
        dsimp only
        unfold blockBase kBlockBytes kGranuleBytes
        omega
      · intro o ho
        have hne := hlive o ho
        have hin := (hcv.fits o ho).inside
        have hdiv : blockBase o.block ≤ o.header := Nat.div_mul_le_self _ _
        dsimp only
        unfold blockBase kBlockBytes at *
        omega
    · intro _
      refine ⟨⟨index, rfl⟩, ?_⟩
      show kBlockBytes ≤ blockBase index + kBlockBytes - blockBase index
      omega

structure Inv (s : MatureSpace) (live : List Obj) : Prop where
  core : Core s live
  filed : Filed s
  small : Hole live s.smallRegion
  medium : Hole live s.mediumRegion

theorem Inv.hole (h : Inv s live) (w : Which) : Hole live (regionOf s w) := by
  cases w with
  | small => exact h.small
  | medium => exact h.medium

theorem RefillOk.inv {w : Which} {r : MatureSpace × Refill} (h : RefillOk live w r) :
    Inv r.1 live :=
  ⟨h.core, h.filed, h.small, h.medium⟩

theorem Inv.refillOk (h : Inv s live) (w : Which) : RefillOk live w (refillRegion g s w) := by
  cases w with
  | small => exact h.core.refillOk_small 0 h.filed h.medium
  | medium => exact h.core.refillOk_medium h.filed h.small h.medium

def roomOf : Which → Nat
  | .small => kLineBytes
  | .medium => kBlockBytes

theorem Inv.makeRoom (h : Inv s live) (w : Which)
    (hsize : fits (regionOf s w) total = true ∨ total ≤ roomOf w) :
    Inv (Mature.makeRoom g total w 2 s).1 live ∧ (Mature.makeRoom g total w 2 s).2 ≠ .stuck ∧
      ((Mature.makeRoom g total w 2 s).2 = .ok →
        fits (regionOf (Mature.makeRoom g total w 2 s).1 w) total = true) := by
  rw [Mature.makeRoom]
  by_cases hfits : fits (regionOf s w) total = true
  · rw [if_pos hfits]
    exact ⟨h, by simp, fun _ => hfits⟩
  · rw [if_neg hfits]
    have hroom := hsize.resolve_left hfits
    have hrefill := h.refillOk (g := g) w
    generalize Mature.refillRegion g s w = r at hrefill
    obtain ⟨t, res⟩ := r
    cases res with
    | ok =>
      obtain ⟨_, hle⟩ := hrefill.room rfl
      have hfits' : fits (regionOf t w) total = true := by
        unfold fits
        simp only [decide_eq_true_eq]
        refine hroom.trans ?_
        cases w with
        | small => exact hle
        | medium => exact hle
      dsimp only
      rw [Mature.makeRoom, if_pos hfits']
      exact ⟨hrefill.inv, by simp, fun _ => hfits'⟩
    | exhausted => exact ⟨hrefill.inv, by simp, fun hok => absurd hok (by simp)⟩
    | stuck => exact absurd rfl hrefill.done

/-! ## Placing an object -/

theorem Obj.header_eq {q : Obj} (ho : o.Fits) (hq : q.Fits) (hb : o.block = q.block)
    (hg : o.granule = q.granule) : o.header = q.header := by
  have h1 := ho.headerAligned
  have h2 := hq.headerAligned
  have h3 : blockBase o.block ≤ o.header := Nat.div_mul_le_self _ _
  have h4 : blockBase q.block ≤ q.header := Nat.div_mul_le_self _ _
  unfold Obj.granule granuleOf at hg
  rw [hb] at hg h3
  unfold blockBase kBlockBytes kGranuleBytes kHeaderBytes at *
  omega

theorem Obj.apart_header {q : Obj} (ho : o.Fits) (hq : q.Fits) (h : o.Apart q) :
    o.header ≠ q.header := by
  have h1 := ho.least
  have h2 := hq.least
  unfold Obj.Apart at h
  unfold kHeaderBytes kGranuleBytes at *
  omega

theorem Hole.fits_obj {index : Nat} (h : Hole live r) (hblock : r.block = some index)
    (hfits : fits r total = true) (haligned : total % kGranuleBytes = 0)
    (hleast : kHeaderBytes + kGranuleBytes ≤ total) :
    (⟨r.cursor, total⟩ : Obj).Fits ∧ (⟨r.cursor, total⟩ : Obj).block = index ∧
      r.cursor + total ≤ r.limit ∧ ∀ o ∈ live, (⟨r.cursor, total⟩ : Obj).Apart o := by
  obtain ⟨h1, h2, h3, h4⟩ := h.bounds index hblock
  have hroom : total ≤ r.limit - r.cursor := by simpa [fits] using hfits
  have hend : r.cursor + total ≤ r.limit := by
    unfold kHeaderBytes kGranuleBytes at hleast
    omega
  have hb : (⟨r.cursor, total⟩ : Obj).block = index := by
    show r.cursor / kBlockBytes = index
    unfold blockBase kBlockBytes kHeaderBytes kGranuleBytes at *
    omega
  refine ⟨⟨h4, haligned, hleast, ?_⟩, hb, hend, ?_⟩
  · rw [hb]
    show r.cursor + total ≤ _
    omega
  · intro o ho
    have hfree := h.free o ho
    unfold Obj.Apart
    dsimp only
    omega

def BlockMeta.placed (m : BlockMeta) (o : Obj) : BlockMeta :=
  { m with
    starts := Function.update m.starts o.granule true
    lineUsed := fun l => m.lineUsed l || o.touches l
    size := Function.update m.size o.granule o.total }

def placed (s : MatureSpace) (o : Obj) : MatureSpace :=
  setBlock s o.block ((s.blocks o.block).placed o)

theorem placed_self (s : MatureSpace) (o : Obj) :
    (placed s o).blocks o.block = (s.blocks o.block).placed o :=
  update_self ..

theorem placed_other (s : MatureSpace) (hb : b ≠ o.block) : (placed s o).blocks b = s.blocks b :=
  update_of_ne hb _ _

theorem placed_same (s : MatureSpace) (o : Obj) (b : Nat) :
    ((placed s o).blocks b).marks = (s.blocks b).marks ∧
      ((placed s o).blocks b).lineMark = (s.blocks b).lineMark ∧
      ((placed s o).blocks b).inUse = (s.blocks b).inUse ∧
      ((placed s o).blocks b).committed = (s.blocks b).committed ∧
      ((placed s o).blocks b).sweepEpoch = (s.blocks b).sweepEpoch := by
  by_cases hb : b = o.block
  · subst hb
    rw [placed_self]
    exact ⟨rfl, rfl, rfl, rfl, rfl⟩
  · rw [placed_other s hb]
    exact ⟨rfl, rfl, rfl, rfl, rfl⟩

theorem unswept_placed (s : MatureSpace) (o : Obj) (b : Nat) :
    blockUnswept (placed s o) b = blockUnswept s b := by
  have hsame := placed_same s o b
  simp only [blockUnswept, hsame.2.2.1, hsame.2.2.2.2]
  rfl

theorem BlockOk.cons {marking unswept : Bool} {m : BlockMeta}
    (h : BlockOk live marking b m unswept) (hne : o.block ≠ b) :
    BlockOk (o :: live) marking b m unswept := by
  have hold : ∀ q ∈ o :: live, q.block = b → q ∈ live := by
    intro q hq hb
    rcases mem_cons.mp hq with rfl | hq
    · exact absurd hb hne
    · exact hq
  have hmem : ∀ g, (∃ q ∈ live, q.block = b ∧ q.granule = g) →
      ∃ q ∈ o :: live, q.block = b ∧ q.granule = g :=
    fun g ⟨q, hq, hqb⟩ => ⟨q, mem_cons_of_mem _ hq, hqb⟩
  exact
    { inUse := fun q hq hb => h.inUse q (hold q hq hb) hb
      started := fun q hq hb => h.started q (hold q hq hb) hb
      size := fun q hq hb => h.size q (hold q hq hb) hb
      exact := fun hu g hg => hmem g (h.exact hu g hg)
      used := fun hu q hq hb => h.used hu q (hold q hq hb) hb
      keep := fun hu q hq hb => h.keep hu q (hold q hq hb) hb
      markLive := fun g hg => hmem g (h.markLive g hg)
      markLines := fun q hq hb => h.markLines q (hold q hq hb) hb
      clean := h.clean, clear := h.clear, committed := h.committed }

theorem Core.placed (hc : Core s live) (hfits : o.Fits) (hin : (s.blocks o.block).inUse = true)
    (hswept : blockUnswept s o.block = false) (hapart : ∀ q ∈ live, o.Apart q)
    (hrec : o.block ∉ s.recyclableBlocks) :
    Core (Mature.placed s o) (o :: live) := by
  have hgran : ∀ q ∈ live, q.block = o.block → q.granule ≠ o.granule := by
    intro q hq hb hg
    exact Obj.apart_header hfits (hc.fits q hq) (hapart q hq)
      (Obj.header_eq (hc.fits q hq) hfits hb hg).symm
  have hsame := placed_same s o
  have hun := unswept_placed s o
  have hset : unsweptSet (Mature.placed s o) = unsweptSet s := by
    ext b
    rw [mem_unsweptSet, mem_unsweptSet, hun]
    rfl
  refine Core.of_blocks ?_ (pairwise_cons.mpr ⟨hapart, hc.apart⟩) (fun b => ?_)
    { below := ?_, freeNodup := hc.freeNodup, free := ?_, recyclableNodup := hc.recyclableNodup
      recyclable := ?_, range := ?_, number := ?_, idle := hc.idle, marking := hc.marking }
  · intro q hq
    rcases mem_cons.mp hq with rfl | hq
    · exact hfits
    · exact hc.fits q hq
  · rw [hun]
    by_cases hb : b = o.block
    · subst hb
      have hold := hc.blockOk o.block
      rw [hswept] at hold ⊢
      rw [placed_self]
      refine
        { inUse := fun _ _ _ => hin, started := fun q hq hqb => ?_, size := fun q hq hqb => ?_
          exact := fun _ g hg => ?_, used := fun _ q hq hqb l hl => ?_
          keep := fun hfalse => absurd hfalse Bool.false_ne_true, markLive := fun g hg => ?_
          markLines := fun q hq hqb hmark l hl => ?_, clean := hold.clean
          clear := fun hout => ?_, committed := hold.committed }
      · show update (s.blocks o.block).starts o.granule true q.granule = true
        rcases mem_cons.mp hq with rfl | hq
        · exact update_self ..
        · rw [update_of_ne (hgran q hq hqb)]
          exact hold.started q hq hqb
      · show update (s.blocks o.block).size o.granule o.total q.granule = q.total
        rcases mem_cons.mp hq with rfl | hq
        · exact update_self ..
        · rw [update_of_ne (hgran q hq hqb)]
          exact hold.size q hq hqb
      · by_cases hgo : g = o.granule
        · exact ⟨o, mem_cons_self, rfl, hgo.symm⟩
        · obtain ⟨q, hq, hqb⟩ := hold.exact rfl g ((update_of_ne hgo _ _).symm.trans hg)
          exact ⟨q, mem_cons_of_mem _ hq, hqb⟩
      · show ((s.blocks o.block).lineUsed l || o.touches l) = true
        rcases mem_cons.mp hq with rfl | hq
        · rw [hl, Bool.or_true]
        · rw [hold.used rfl q hq hqb l hl, Bool.true_or]
      · obtain ⟨q, hq, hqb⟩ := hold.markLive g hg
        exact ⟨q, mem_cons_of_mem _ hq, hqb⟩
      · rcases mem_cons.mp hq with rfl | hq
        · -- No mark is left where a new object starts.
          obtain ⟨q', hq', h1, h2⟩ := hold.markLive _ hmark
          exact absurd h2 (hgran q' hq' h1)
        · exact hold.markLines q hq hqb hmark l hl
      · have hout : (s.blocks o.block).inUse = false := hout
        rw [hin] at hout
        exact absurd hout (by simp)
    · rw [placed_other s hb]
      exact (hc.blockOk b).cons (Ne.symm hb)
  · intro b hb
    rw [(hsame b).2.2.1] at hb
    exact hc.below b hb
  · intro b
    rw [(hsame b).2.2.1]
    exact hc.free b
  · intro b hb
    have hbo : b ≠ o.block := fun heq => hrec (heq ▸ hb)
    rw [hun, placed_other s hbo]
    exact hc.recyclable b hb
  · intro b hb
    rw [hun] at hb
    exact hc.range b hb
  · rw [hset]
    exact hc.number

theorem Hole.cons (h : Hole live r) (ho : o.Fits) (hne : r.block ≠ some o.block) :
    Hole (o :: live) r := by
  refine { none := h.none, bounds := h.bounds, free := ?_ }
  intro q hq
  rcases mem_cons.mp hq with rfl | hq
  · cases hb : r.block with
    | none =>
      have := h.none hb
      omega
    | some b =>
      obtain ⟨h1, h2, h3, _⟩ := h.bounds b hb
      have hin := ho.inside
      have hdiv : blockBase q.block ≤ q.header := Nat.div_mul_le_self _ _
      have hne : b ≠ q.block := fun heq => hne (heq ▸ hb)
      unfold blockBase kBlockBytes at *
      omega
  · exact h.free q hq

theorem Hole.bump (h : Hole live r) (hend : r.cursor + total ≤ r.limit)
    (haligned : total % kGranuleBytes = 0) :
    Hole (⟨r.cursor, total⟩ :: live) { r with cursor := r.cursor + total } := by
  refine { none := h.none, bounds := ?_, free := ?_ }
  · intro b hb
    obtain ⟨h1, h2, h3, h4⟩ := h.bounds b hb
    dsimp only
    unfold kGranuleBytes at *
    omega
  · intro q hq
    rcases mem_cons.mp hq with rfl | hq
    · exact .inl (le_refl _)
    · have := h.free q hq
      dsimp only
      omega

theorem Inv.place (h : Inv s live) {w : Which} {index : Nat}
    (hblock : (regionOf s w).block = some index) (hfits : fits (regionOf s w) total = true)
    (haligned : total % kGranuleBytes = 0) (hleast : kHeaderBytes + kGranuleBytes ≤ total) :
    Inv (Mature.place s w index total) (⟨(regionOf s w).cursor, total⟩ :: live) ∧
      blockUnswept (Mature.place s w index total)
        (⟨(regionOf s w).cursor, total⟩ : Obj).block = false := by
  obtain ⟨hobj, hb, hend, hapart⟩ := (h.hole w).fits_obj hblock hfits haligned hleast
  have hin : (s.blocks index).inUse = true ∧ blockUnswept s index = false ∧
      index ∉ s.recyclableBlocks := by
    cases w with
    | small =>
      obtain ⟨h1, h2⟩ := h.filed.small index hblock
      exact ⟨h1, h2, fun hmem => (h.filed.filed index hmem).1 hblock⟩
    | medium =>
      obtain ⟨h1, h2⟩ := h.filed.medium index hblock
      exact ⟨h1, h2, fun hmem => (h.filed.filed index hmem).2 hblock⟩
  obtain ⟨hin, hswept, hrec⟩ := hin
  subst hb
  have hcore := h.core.placed hobj hin hswept hapart hrec
  have hbump := (h.hole w).bump hend haligned
  have hplace : Mature.place s w (⟨(regionOf s w).cursor, total⟩ : Obj).block total =
      setRegion (placed s ⟨(regionOf s w).cursor, total⟩) w
        { regionOf s w with cursor := (regionOf s w).cursor + total } := rfl
  rw [hplace]
  generalize (⟨(regionOf s w).cursor, total⟩ : Obj) = o at *
  -- The regions' blocks stay in use and swept.
  have hstay : ∀ b, (s.blocks b).inUse = true ∧ blockUnswept s b = false →
      ((placed s o).blocks b).inUse = true ∧ blockUnswept (placed s o) b = false := by
    intro b hb
    rw [unswept_placed, (placed_same s o b).2.2.1]
    exact hb
  have hf := h.filed
  have hunswept := (unswept_placed s o o.block).trans hswept
  cases w with
  | small =>
    refine ⟨⟨{ hcore with }, ?_, hbump, ?_⟩, hunswept⟩
    · exact ⟨fun b hb => hstay b (hf.small b hb), fun b hb => hstay b (hf.medium b hb),
        hf.distinct, hf.filed⟩
    · exact h.medium.cons hobj (hf.distinct o.block hblock)
  | medium =>
    refine ⟨⟨{ hcore with }, ?_, ?_, hbump⟩, hunswept⟩
    · exact ⟨fun b hb => hstay b (hf.small b hb), fun b hb => hstay b (hf.medium b hb),
        hf.distinct, hf.filed⟩
    · exact h.small.cons hobj (fun heq => hf.distinct o.block heq hblock)

/-! ## The operations -/

theorem totalFor_aligned (requested : Nat) :
    totalFor requested % kGranuleBytes = 0 ∧ kHeaderBytes + kGranuleBytes ≤ totalFor requested := by
  unfold totalFor kGranuleBytes kHeaderBytes
  split <;> omega

theorem chooseRegion_size (hmax : total ≤ kMaxMediumObjectBytes) :
    fits (regionOf s (chooseRegion s total)) total = true ∨
      total ≤ roomOf (chooseRegion s total) := by
  unfold chooseRegion
  by_cases hmedium : (decide (kLineBytes < total) && !fits s.smallRegion total) = true
  · rw [if_pos hmedium]
    right
    show total ≤ kBlockBytes
    unfold kMaxMediumObjectBytes at hmax
    unfold kBlockBytes
    omega
  · rw [if_neg hmedium]
    by_cases hfits : fits s.smallRegion total = true
    · exact .inl hfits
    · right
      show total ≤ kLineBytes
      by_contra hlt
      exact hmedium (by simp [hfits, Nat.lt_of_not_le hlt])

/-- An allocation never gets stuck; what it returns is apart from every live object and in
a block that is swept. -/
theorem Inv.matureAllocate (h : Inv s live) (hmax : total ≤ kMaxMediumObjectBytes)
    (haligned : total % kGranuleBytes = 0) (hleast : kHeaderBytes + kGranuleBytes ≤ total) :
    match Mature.matureAllocate g s total with
    | (t, .ok header) => Inv t (⟨header, total⟩ :: live) ∧
        blockUnswept t (⟨header, total⟩ : Obj).block = false
    | (t, .error r) => Inv t live ∧ r = .exhausted := by
  unfold Mature.matureAllocate
  obtain ⟨hinv, hdone, hroom⟩ := h.makeRoom (g := g) (chooseRegion s total) (chooseRegion_size hmax)
  generalize chooseRegion s total = w at hinv hdone hroom
  dsimp only
  generalize Mature.makeRoom g total w 2 s = r at hinv hdone hroom
  obtain ⟨t, res⟩ := r
  cases res with
  | ok =>
    have hfits := hroom rfl
    dsimp only at hfits hinv ⊢
    cases hblock : (regionOf t w).block with
    | some index => exact hinv.place hblock hfits haligned hleast
    | none =>
      -- A region with no block has no room.
      exfalso
      have hlimit := (hinv.hole w).none hblock
      unfold fits at hfits
      rw [hlimit] at hfits
      simp only [decide_eq_true_eq] at hfits
      unfold kHeaderBytes kGranuleBytes at hleast
      omega
  | exhausted => exact ⟨hinv, rfl⟩
  | stuck => exact absurd rfl hdone

theorem Obj.header_of_granule (ho : o.Fits) :
    blockBase o.block + o.granule * kGranuleBytes - kHeaderBytes = o.header := by
  have h1 := ho.headerAligned
  have h2 : blockBase o.block ≤ o.header := Nat.div_mul_le_self _ _
  unfold Obj.granule granuleOf
  unfold blockBase kBlockBytes kGranuleBytes kHeaderBytes at *
  omega

theorem Core.markObject (hc : Core s live) (hmarking : s.marking = true) {index granule : Nat}
    (hin : (s.blocks index).inUse = true) (hstart : (s.blocks index).starts granule = true) :
    Core (Mature.markObject s index granule) live := by
  have hall := hc.swept_of_idle (hc.marking hmarking)
  obtain ⟨o, ho, rfl, rfl⟩ := hc.exact index granule (hall index) hstart
  -- The mark and the lines are the object's.
  have hheader := Obj.header_of_granule (hc.fits o ho)
  have hsize := hc.size o ho
  have hmeta : Mature.markObject s o.block o.granule = setBlock s o.block
      { s.blocks o.block with
        marks := update (s.blocks o.block).marks o.granule true
        lineMark := fun l => (s.blocks o.block).lineMark l || o.touches l } := by
    unfold Mature.markObject Obj.touches
    dsimp only
    rw [hheader, hsize]
  rw [hmeta]
  generalize hm : ({ s.blocks o.block with
    marks := update (s.blocks o.block).marks o.granule true
    lineMark := fun l => (s.blocks o.block).lineMark l || o.touches l } : BlockMeta) = m
  have hself : (setBlock s o.block m).blocks o.block = m := update_self ..
  have hother : ∀ b, b ≠ o.block → (setBlock s o.block m).blocks b = s.blocks b :=
    fun b hb => update_of_ne hb _ _
  have hsame : ∀ b, ((setBlock s o.block m).blocks b).lineUsed = (s.blocks b).lineUsed ∧
      ((setBlock s o.block m).blocks b).inUse = (s.blocks b).inUse ∧
      ((setBlock s o.block m).blocks b).sweepEpoch = (s.blocks b).sweepEpoch := by
    intro b
    by_cases hb : b = o.block
    · rw [hb, hself, ← hm]
      exact ⟨rfl, rfl, rfl⟩
    · rw [hother b hb]
      exact ⟨rfl, rfl, rfl⟩
  have hun : ∀ b, blockUnswept (setBlock s o.block m) b = false := by
    intro b
    simp only [blockUnswept, (hsame b).2.1, (hsame b).2.2]
    exact hall b
  have hset : unsweptSet (setBlock s o.block m) = unsweptSet s := by
    ext b
    rw [mem_unsweptSet, mem_unsweptSet, hun, hall]
    simp
  refine Core.of_blocks hc.fits hc.apart (fun b => ?_)
    { below := ?_, freeNodup := hc.freeNodup, free := ?_, recyclableNodup := hc.recyclableNodup
      recyclable := ?_, range := ?_, number := ?_, idle := hc.idle, marking := hc.marking }
  · have hold := hc.blockOk b
    rw [hall] at hold
    rw [hun]
    by_cases hb : b = o.block
    · subst hb
      rw [hself, ← hm]
      refine
        { hold with
          keep := fun hfalse => absurd hfalse Bool.false_ne_true, markLive := fun g hg => ?_
          markLines := fun q hq hqb hmark l hl => ?_, clean := fun hidle => ?_
          clear := fun hout => ?_ }
      · by_cases hgo : g = o.granule
        · exact ⟨o, ho, rfl, hgo.symm⟩
        · exact hold.markLive g ((update_of_ne hgo _ _).symm.trans hg)
      · show ((s.blocks o.block).lineMark l || o.touches l) = true
        by_cases hg : q.granule = o.granule
        · -- The object itself: one header and one size.
          have heq : q = o := by
            have hsize' := hold.size q hq hqb
            rw [hg, hsize] at hsize'
            have hhead := Obj.header_eq (hc.fits q hq) (hc.fits o ho) hqb hg
            cases q
            cases o
            simp_all
          rw [← heq, hl, Bool.or_true]
        · have hmark : update (s.blocks o.block).marks o.granule true q.granule = true :=
            hmark
          rw [update_of_ne hg] at hmark
          rw [hold.markLines q hq hqb hmark l hl, Bool.true_or]
      · have hidle : s.marking = false := hidle
        rw [hmarking] at hidle
        exact absurd hidle (by simp)
      · have hout : (s.blocks o.block).inUse = false := hout
        rw [hin] at hout
        exact absurd hout (by simp)
    · rw [hother b hb]
      exact hold
  · intro b hb
    rw [(hsame b).2.1] at hb
    exact hc.below b hb
  · intro b
    rw [(hsame b).2.1]
    exact hc.free b
  · intro b hb
    rw [(hsame b).2.1, (hsame b).1]
    obtain ⟨h1, _, h3⟩ := hc.recyclable b hb
    exact ⟨h1, hun b, h3⟩
  · intro b hb
    rw [hun] at hb
    exact absurd hb (by simp)
  · rw [hset]
    exact hc.number

theorem Inv.markObject (h : Inv s live) (hmarking : s.marking = true) {index granule : Nat}
    (hin : (s.blocks index).inUse = true) (hstart : (s.blocks index).starts granule = true) :
    Inv (Mature.markObject s index granule) live := by
  have hcore := h.core.markObject hmarking hin hstart
  have hidle := h.core.marking hmarking
  have huse : ∀ b, ((Mature.markObject s index granule).blocks b).inUse = (s.blocks b).inUse := by
    intro b
    by_cases hb : b = index
    · subst hb
      simp [Mature.markObject, setBlock]
    · simp [Mature.markObject, setBlock, update_of_ne hb]
  refine ⟨hcore, ?_, h.small, h.medium⟩
  refine { small := ?_, medium := ?_, distinct := h.filed.distinct, filed := h.filed.filed }
  · intro b hb
    exact ⟨(huse b).trans (h.filed.small b hb).1, hcore.swept_of_idle hidle b⟩
  · intro b hb
    exact ⟨(huse b).trans (h.filed.medium b hb).1, hcore.swept_of_idle hidle b⟩

theorem Swept.inv (h : Swept live s t) (hi : Inv s live) : Inv t live :=
  ⟨h.core, h.filed hi.filed, h.small ▸ hi.small, h.medium ▸ hi.medium⟩

theorem Inv.startCycle (h : Inv s live) : Inv (Mature.startCycle g s) live := by
  obtain ⟨hswept, hidle⟩ := h.core.swept_completeSweep (g := g)
  have hinv := hswept.inv h
  have hcore := hinv.core
  refine ⟨{ hcore with clean := ?_, marking := fun _ => hidle }, ?_, hinv.small, hinv.medium⟩
  · intro hfalse
    have hfalse : true = false := hfalse
    exact absurd hfalse (by simp)
  · exact ⟨hinv.filed.small, hinv.filed.medium, hinv.filed.distinct, hinv.filed.filed⟩

theorem Core.card_inUse (hc : Core s live) :
    ((Finset.range s.count).filter fun b => (s.blocks b).inUse).card + s.freeBlocks.length =
      s.count := by
  have hfree : (Finset.range s.count).filter (fun b => ¬ (s.blocks b).inUse = true) =
      s.freeBlocks.toFinset := by
    ext b
    simp only [Finset.mem_filter, Finset.mem_range, List.mem_toFinset, hc.free b, Bool.not_eq_true]
  have hsum := Finset.card_filter_add_card_filter_not (s := Finset.range s.count)
    (fun b => (s.blocks b).inUse = true)
  rw [hfree, toFinset_card_of_nodup hc.freeNodup, Finset.card_range] at hsum
  exact hsum

theorem Inv.beginSweep (h : Inv s live) (ht : Mature.beginSweep s = some t) :
    Inv t (live.filter (marked s)) := by
  unfold Mature.beginSweep at ht
  split at ht
  · simp at ht
  rename_i hidle
  have hidle : s.active = false := by simpa using hidle
  have hc := h.core
  have hall := hc.swept_of_idle hidle
  obtain rfl := some.inj ht
  have hsub : ∀ o, o ∈ live.filter (marked s) ↔ o ∈ live ∧ marked s o = true := fun o =>
    mem_filter
  -- A block in use was swept at the epoch before, so that the new one makes it unswept.
  have hun : ∀ b, blockUnswept { s with
      epoch := s.epoch + 1
      marking := false
      active := true
      low := 0
      high := s.count
      unsweptBlocks := (s.count : Int) - s.freeBlocks.length
      releasePlanned := false
      releaseList := []
      smallRegion := .none
      mediumRegion := .none
      recyclableBlocks := [] } b = (s.blocks b).inUse := by
    intro b
    have hb := hall b
    simp only [blockUnswept] at hb ⊢
    cases hin : (s.blocks b).inUse with
    | false => rfl
    | true =>
      have hepoch : (s.blocks b).sweepEpoch = s.epoch := by simpa [hin] using hb
      rw [hepoch]
      simp
  refine ⟨?_, ?_, hole_none _, hole_none _⟩
  · refine
      { fits := fun o ho => hc.fits o ((hsub o).mp ho).1
        apart := hc.apart.filter _
        inUse := fun o ho => hc.inUse o ((hsub o).mp ho).1
        started := fun o ho => hc.started o ((hsub o).mp ho).1
        size := fun o ho => hc.size o ((hsub o).mp ho).1
        exact := ?_, used := ?_
        keep := fun o ho _ => ((hsub o).mp ho).2
        markLive := ?_
        markLines := fun o ho => hc.markLines o ((hsub o).mp ho).1
        clean := ?_, clear := hc.clear, committed := hc.committed, below := hc.below
        freeNodup := hc.freeNodup, free := hc.free, recyclableNodup := nodup_nil
        recyclable := fun b hb => absurd hb (by simp), range := ?_, number := ?_
        idle := fun hfalse => absurd hfalse (by simp)
        marking := fun hfalse => absurd hfalse (by simp) }
    · intro b g hb hstart
      rw [hun] at hb
      obtain ⟨o, ho, hob, _⟩ := hc.exact b g (hall b) hstart
      have huse := hc.inUse o ho
      rw [hob, hb] at huse
      exact absurd huse (by simp)
    · intro o ho hb
      rw [hun, hc.inUse o ((hsub o).mp ho).1] at hb
      exact absurd hb (by simp)
    · intro b g hg
      obtain ⟨o, ho, rfl, rfl⟩ := hc.markLive b g hg
      exact ⟨o, (hsub o).mpr ⟨ho, hg⟩, rfl, rfl⟩
    · intro _ b hb
      rw [hun] at hb
      exact (hc.clear b hb).2
    · intro b hb
      rw [hun] at hb
      exact ⟨Nat.zero_le _, hc.below b hb⟩
    · have hcard := hc.card_inUse
      have hset : ∀ b, b ∈ (Finset.range s.count).filter (fun b => (s.blocks b).inUse) ↔
          b < s.count ∧ (s.blocks b).inUse = true := by
        intro b
        simp
      rw [show unsweptSet _ = (Finset.range s.count).filter (fun b => (s.blocks b).inUse) from by
        ext b
        rw [mem_unsweptSet, hun, hset]]
      dsimp only
      omega
  · exact
      { small := fun b hb => absurd hb (by simp [BumpRegion.none])
        medium := fun b hb => absurd hb (by simp [BumpRegion.none])
        distinct := fun b hb => absurd hb (by simp [BumpRegion.none])
        filed := fun b hb => absurd hb (by simp) }

/-! ## Whole runs -/

theorem Inv.step {w w' : World} {op : Op} (h : Inv w.space w.live)
    (hstep : Mature.step w op = some w') : Inv w'.space w'.live := by
  cases op with
  | allocate g requested =>
    unfold Mature.step at hstep
    dsimp only at hstep
    split at hstep
    · rename_i hmax
      obtain ⟨haligned, hleast⟩ := totalFor_aligned requested
      have halloc := h.matureAllocate (g := g) hmax haligned hleast
      generalize Mature.matureAllocate g w.space (totalFor requested) = r at hstep halloc
      obtain ⟨t, res⟩ := r
      cases res with
      | ok header =>
        obtain rfl := some.inj hstep
        exact halloc.1
      | error e =>
        obtain ⟨hinv, rfl⟩ := halloc
        obtain rfl := some.inj hstep
        exact hinv
    · obtain rfl := some.inj hstep
      exact h
  | startCycle g =>
    obtain rfl := some.inj hstep
    exact h.startCycle
  | mark index granule =>
    unfold Mature.step at hstep
    dsimp only at hstep
    split at hstep
    · rename_i hcond
      simp only [Bool.and_eq_true] at hcond
      obtain rfl := some.inj hstep
      exact h.markObject hcond.1.1 hcond.1.2 hcond.2
    · simp at hstep
  | beginSweep =>
    obtain ⟨t, ht, rfl⟩ := map_eq_some_iff.mp hstep
    exact h.beginSweep ht
  | slice g pieces =>
    obtain rfl := some.inj hstep
    exact (h.core.swept_sweepSlice pieces).inv h
  | completeSweep g =>
    obtain rfl := some.inj hstep
    exact h.core.swept_completeSweep.1.inv h

theorem Inv.run {ops : List Op} : ∀ {w w' : World}, Inv w.space w.live →
    Mature.run w ops = some w' → Inv w'.space w'.live := by
  induction ops with
  | nil =>
    intro w w' h hrun
    obtain rfl := some.inj hrun
    exact h
  | cons op ops ih =>
    intro w w' h hrun
    obtain ⟨u, hstep, hrest⟩ := bind_eq_some_iff.mp hrun
    exact ih (h.step hstep) hrest

theorem inv_empty (reserve : Nat) : Inv (.empty reserve) [] :=
  ⟨core_empty reserve, ⟨fun b hb => absurd hb (by simp [MatureSpace.empty, BumpRegion.none]),
      fun b hb => absurd hb (by simp [MatureSpace.empty, BumpRegion.none]),
      fun b hb => absurd hb (by simp [MatureSpace.empty, BumpRegion.none]),
      fun b hb => absurd hb (by simp [MatureSpace.empty])⟩,
    hole_none _, hole_none _⟩

structure Safe (w : World) : Prop where
  /-- No two live objects share a byte, so no range that an allocation returned overlaps
  an object that was live. -/
  apart : w.live.Pairwise Obj.Apart
  /-- Every live object has its start bit, in a block in use and committed. -/
  started : ∀ o ∈ w.live, (w.space.blocks o.block).starts o.granule = true ∧
    (w.space.blocks o.block).inUse = true ∧ (w.space.blocks o.block).committed = true
  range : ∀ b, blockUnswept w.space b = true → w.space.low ≤ b ∧ b < w.space.high
  number : w.space.unsweptBlocks =
    ((Finset.range w.space.count).filter fun b => blockUnswept w.space b).card
  free : w.space.freeBlocks.Nodup ∧
    ∀ b, b ∈ w.space.freeBlocks ↔ b < w.space.count ∧ (w.space.blocks b).inUse = false
  /-- With the sweep over and no cycle open, no mark is left. -/
  clean : w.space.active = false → w.space.marking = false → ∀ b,
    (∀ g, (w.space.blocks b).marks g = false) ∧ ∀ l, (w.space.blocks b).lineMark l = false

theorem Inv.safe {w : World} (h : Inv w.space w.live) : Safe w where
  apart := h.core.apart
  started o ho := ⟨h.core.started o ho, h.core.inUse o ho, h.core.committed _ (h.core.inUse o ho)⟩
  range := h.core.range
  number := h.core.number
  free := ⟨h.core.freeNodup, h.core.free⟩
  clean hidle hmarking b := h.core.clean hmarking b (h.core.swept_of_idle hidle b)

/-- After every run the space is safe. From there an allocation succeeds or finds the
reservation exhausted; an object it returns joins the live ones, in a block that is swept;
the marked objects are those that a finishing cycle leaves live, and finishing the sweep
ends it. -/
theorem run_mature_safe {reserve : Nat} {ops : List Op} {w : World}
    (h : run (.empty reserve) ops = some w) :
    Safe w ∧
    (∀ g requested, totalFor requested ≤ kMaxMediumObjectBytes →
      (∃ t header, matureAllocate g w.space (totalFor requested) = (t, .ok header) ∧
        step w (.allocate g requested) = some ⟨t, ⟨header, totalFor requested⟩ :: w.live⟩ ∧
        (∀ o ∈ w.live, (⟨header, totalFor requested⟩ : Obj).Apart o) ∧
        blockUnswept t (⟨header, totalFor requested⟩ : Obj).block = false) ∨
      (∃ t, matureAllocate g w.space (totalFor requested) = (t, .error .exhausted) ∧
        step w (.allocate g requested) = some ⟨t, w.live⟩)) ∧
    (∀ w', step w .beginSweep = some w' →
      ∀ o, o ∈ w'.live ↔ o ∈ w.live ∧ marked w.space o = true) ∧
    ∀ g, (completeSweep g w.space).active = false := by
  have hinv : Inv w.space w.live := (inv_empty reserve).run (w := .empty reserve) h
  refine ⟨hinv.safe, ?_, ?_, fun g => (hinv.core.swept_completeSweep (g := g)).2⟩
  · intro g requested hmax
    obtain ⟨haligned, hleast⟩ := totalFor_aligned requested
    have halloc := hinv.matureAllocate (g := g) hmax haligned hleast
    have hstep : step w (.allocate g requested) = _ := if_pos hmax
    rw [hstep]
    generalize matureAllocate g w.space (totalFor requested) = r at halloc
    obtain ⟨t, res⟩ := r
    cases res with
    | ok header =>
      refine .inl ⟨t, header, rfl, rfl, ?_, halloc.2⟩
      exact (List.pairwise_cons.mp halloc.1.core.apart).1
    | error e =>
      obtain ⟨_, rfl⟩ := halloc
      exact .inr ⟨t, rfl, rfl⟩
  · intro w' hstep o
    obtain ⟨t, _, rfl⟩ := Option.map_eq_some_iff.mp hstep
    exact List.mem_filter

def sampleSetting : Setting := ⟨0, 0, false, false⟩

/-- Three objects, of which the second is marked, and an allocation while the sweep is
pending. -/
def sampleOps : List Op :=
  [.allocate sampleSetting 100, .allocate sampleSetting 40, .allocate sampleSetting 3000,
    .startCycle sampleSetting, .mark 0 15, .beginSweep, .allocate sampleSetting 24,
    .completeSweep sampleSetting]

theorem run_mature_safe_sample : ∃ w, run (.empty (256 * kBlockBytes)) sampleOps = some w ∧
    Safe w ∧ w.live = [⟨256, 32⟩, ⟨112, 48⟩] := by
  refine ⟨_, rfl, (@run_mature_safe (256 * kBlockBytes) sampleOps _ rfl).1, ?_⟩
  decide +kernel

end Brass.Gc.Mature
