import Brass.Gc.MarkMinor

/-!
# The finish of a cycle

The finish marks the young generation in place. It pushes an entry for every slot of a marked
object behind a dirty card, so that no slot is excused any more, visits the roots, and drains
the grey entries: then a marked object's slots name marked objects, and every object that the
roots reach is marked.
-/

namespace Brass.Gc.Heap

open List Option

variable {A : Type} {e : Env A Marks} {h h' : HeapState A Marks} {c : Cycle A}
  {excused : Nat → Nat → Prop} {m : Marks} {stackObjects : List Nat}
variable {r : CardRange} {a x : Nat} {o : Obj} {s : Rescans}

theorem covers_field {heap : Nat → Option Obj} {j : Nat} (ho : heap x = some o) :
    Covers heap r (.field x j) ↔ r.object = x ∧ ((r.lo = 0 ∧ r.hi = o.size) ∨
        (kGranuleBytes * j < o.size ∧ r.lo ≤ kGranuleBytes * j ∧ kGranuleBytes * j < r.hi)) := by
  constructor
  · rintro ⟨j', o', heq, ho', hcase⟩
    obtain ⟨rfl, rfl⟩ := Slot.field.inj heq
    obtain rfl := some.inj (ho.symm.trans ho')
    exact ⟨rfl, hcase⟩
  · rintro ⟨rfl, hcase⟩
    exact ⟨j, o, rfl, ho, hcase⟩

/-! ## The dirty cards -/

theorem largeRanges_spec (hw : h.WellFormed e) :
    ∃ ranges s, gatherLargeRanges (e.setup h 0) false (startState h 0 [] h.heap []) =
        .ok (ranges, s) ∧
      (∀ r ∈ ranges, (h.heap r.object).isSome = true) ∧
      ∀ x j o, h.heap x = some o → e.geo.inLarge x = true →
        Behind e.geo h.cards h.regions o.size x j → Covered h.heap ranges (.field x j) := by
  obtain ⟨g, hg, hdone, hcovered⟩ := gatherAll_spec (c := e.setup h 0) false hw.cardsOk hw.fits
  refine ⟨g.out.reverse,
    { startState h 0 [] h.heap [] with cards := g.cards, regions := g.regions }, ?_, ?_, hcovered⟩
  · simp only [gatherLargeRanges, hg]
  · intro r hr
    exact (hdone.ranges r (mem_reverse.mp hr)).2.2

theorem matureCards_spec (hw : h.WellFormed e) (ho : h.heap x = some o)
    (hold : e.geo.isOld x = true) (hsmall : e.geo.inLarge x = false)
    (hcard : h.cards (e.geo.cardOf x) = .dirty) (hregion : h.regions (e.geo.regionOf x) = true) :
    ∃ objects, .starts objects ∈ gatherMatureCards e h ∧ x ∈ objects := by
  obtain ⟨i, card, bit, hi, huse, hlt, hbit, rfl⟩ := e.space.mature_start hw.fits hold hsmall
    (show sizes h.heap x = some o.size by simp [sizes, ho])
  have hbit' := (e.space.start_mature hw.fits hlt hbit).1
  obtain ⟨hcardOf, hregionOf⟩ := granule_card e.geo (i := i) hlt hbit'
  rw [hcardOf] at hcard
  rw [hregionOf] at hregion
  have hne : e.space.starts h.old i card ≠ [] := ne_nil_of_mem hbit
  refine ⟨(e.space.starts h.old i card).map fun bit =>
    e.geo.blockBase i + (card * 64 + bit) * kGranuleBytes, ?_, mem_map.mpr ⟨bit, hbit, rfl⟩⟩
  refine mem_flatMap.mpr ⟨i, mem_range.mpr hi, ?_⟩
  rw [hregion, huse]
  refine mem_filterMap.mpr ⟨card, mem_range.mpr hlt, ?_⟩
  simp only [cardOf_blockBase]
  rw [if_pos ⟨hcard, hne⟩]

theorem matureCards_medium (hm : e.Marking) (hw : h.WellFormed e) {objects : List Nat}
    (hmem : .starts objects ∈ gatherMatureCards e h) (hx : x ∈ objects) (ho : h.heap x = some o) :
    sliced e.layouts o = false := by
  obtain ⟨i, hi, hcards⟩ := mem_flatMap.mp hmem
  split at hcards
  · obtain ⟨card, hcard, hsome⟩ := mem_filterMap.mp hcards
    simp only at hsome
    split at hsome
    · obtain rfl := CardWork.starts.inj (some.inj hsome)
      obtain ⟨bit, hbit, rfl⟩ := mem_map.mp hx
      have hlt := mem_range.mp hcard
      obtain ⟨hbit', hblock, _⟩ := e.space.start_mature hw.fits hlt hbit
      obtain ⟨hold, hsmall⟩ := granule_old e.geo hblock hlt hbit'
      have hmedium := hm.medium hw.fits hold (by
        rw [Bool.eq_false_iff, Ne, Geometry.inLarge_iff]
        omega) (show sizes h.heap _ = some o.size by simp [sizes, ho])
      have h1 : kHeaderBytes = 8 := rfl
      have h2 : kMaxMediumObjectBytes = 8192 := rfl
      have h3 : kSliceBytes = 16384 := rfl
      rw [Bool.eq_false_iff, Ne, sliced_iff]
      omega
    · exact absurd hsome (by simp)
  · exact absurd hcards (by simp)

theorem cutRange_spec (hlo : r.lo ≤ a) (hhi : a < r.hi) :
    ∃ p ∈ cutRange r, p.object = r.object ∧ p.lo ≤ a ∧ a < p.hi := by
  have hK : kCardWorkSliceBytes = 32768 := rfl
  refine ⟨_, mem_map.mpr ⟨(a - r.lo) / kCardWorkSliceBytes, mem_range.mpr ?_, rfl⟩, rfl, ?_, ?_⟩
  · rw [hK]
    omega
  · show r.lo + (a - r.lo) / kCardWorkSliceBytes * kCardWorkSliceBytes ≤ a
    rw [hK]
    omega
  · show a < min r.hi (r.lo + (a - r.lo) / kCardWorkSliceBytes * kCardWorkSliceBytes +
      kCardWorkSliceBytes)
    rw [hK]
    omega

theorem slot_inside {layouts : Nat → Layout} {j : Nat} (hj : j ∈ slotsOf layouts o)
    (hcustom : isCustom (layouts o.layout) = false) : kGranuleBytes * j < o.size := by
  have h8 : kGranuleBytes = 8 := rfl
  have hcount : j < o.count → kGranuleBytes * j < o.size := by
    unfold Obj.count
    rw [h8]
    omega
  unfold slotsOf at hj
  cases hl : layouts o.layout with
  | leaf =>
    rw [hl] at hj
    exact absurd hj (by simp)
  | words =>
    rw [hl] at hj
    exact hcount (mem_range.mp hj)
  | mask bits =>
    rw [hl] at hj
    exact hcount (mem_range.mp (mem_filter.mp hj).1)
  | custom trace range =>
    rw [hl] at hcustom
    exact absurd hcustom (by simp [isCustom])

/-- The pieces have the slots of the ranges, but for those of the object that the last piece
was the whole of. -/
theorem cardPieces_spec (hzero : h.heap 0 = none) (l : List CardRange)
    (hl : ∀ r ∈ l, (h.heap r.object).isSome = true) (done : Nat) :
    ∃ pieces, cardPieces e h done l = .ok pieces ∧
      ∀ x j o, h.heap x = some o → j ∈ slotsOf e.layouts o → Covered h.heap l (.field x j) →
        Covered h.heap pieces (.field x j) ∨ x = done := by
  induction l generalizing done with
  | nil => exact ⟨[], rfl, fun x j o _ _ ⟨r, hr, _⟩ => absurd hr (by simp)⟩
  | cons r l ih =>
    have hrest : ∀ r' ∈ l, (h.heap r'.object).isSome = true := fun r' hr' =>
      hl r' (mem_cons_of_mem _ hr')
    unfold cardPieces
    by_cases hdone : r.object = done
    · rw [if_pos hdone]
      obtain ⟨pieces, hok, hcover⟩ := ih hrest done
      refine ⟨pieces, hok, fun x j o ho hj ⟨r', hr', hc⟩ => ?_⟩
      rcases mem_cons.mp hr' with rfl | hr'
      · exact .inr (((covers_field ho).mp hc).1.symm.trans hdone)
      · exact hcover x j o ho hj ⟨r', hr', hc⟩
    · rw [if_neg hdone]
      obtain ⟨o, ho⟩ := isSome_iff_exists.mp (hl r mem_cons_self)
      -- What the range's own pieces have, and what is done after them.
      have hgo : ∀ (own : List CardRange) (done' : Nat),
          (∀ j ∈ slotsOf e.layouts o, Covers h.heap r (.field r.object j) →
            Covered h.heap own (.field r.object j)) →
          (done' = 0 ∨ ∀ j, Covered h.heap own (.field done' j)) →
          ∃ more, cardPieces e h done' l = .ok more ∧
            ∀ x j o, h.heap x = some o → j ∈ slotsOf e.layouts o →
              Covered h.heap (r :: l) (.field x j) →
              Covered h.heap (own ++ more) (.field x j) ∨ x = done := by
        intro own done' hown hdone'
        obtain ⟨more, hok, hcover⟩ := ih hrest done'
        refine ⟨more, hok, fun x j o' ho' hj ⟨r', hr', hc⟩ => .inl ?_⟩
        have hleft : Covered h.heap own (.field x j) →
            Covered h.heap (own ++ more) (.field x j) := fun ⟨p, hp, hcp⟩ =>
          ⟨p, mem_append_left _ hp, hcp⟩
        rcases mem_cons.mp hr' with rfl | hr'
        · obtain ⟨rfl, _⟩ := (covers_field ho').mp hc
          obtain rfl := some.inj (ho.symm.trans ho')
          exact hleft (hown j hj hc)
        · rcases hcover x j o' ho' hj ⟨r', hr', hc⟩ with ⟨p, hp, hcp⟩ | rfl
          · exact ⟨p, mem_append_right _ hp, hcp⟩
          · rcases hdone' with rfl | hall
            · rw [hzero] at ho'
              exact absurd ho' (by simp)
            · exact hleft (hall j)
      have hwhole : ∀ j, Covered h.heap [⟨r.object, 0, o.size⟩] (.field r.object j) := fun j =>
        ⟨_, mem_singleton.mpr rfl, (covers_field ho).mpr ⟨rfl, .inl ⟨rfl, rfl⟩⟩⟩
      simp only [ho]
      by_cases hscans : scansRanges (e.layouts o.layout) = true
      · simp only [hscans, Bool.not_true, Bool.false_eq_true, if_false]
        by_cases hcustom : (decide (r.lo = 0 ∧ r.hi = o.size) &&
            isCustom (e.layouts o.layout)) = true
        · simp only [hcustom, if_true]
          obtain ⟨more, hok, hcover⟩ := hgo _ 0 (fun j _ _ => hwhole j) (.inl rfl)
          exact ⟨_, by rw [hok], hcover⟩
        · simp only [hcustom, Bool.false_eq_true, if_false]
          have hown : ∀ j ∈ slotsOf e.layouts o, Covers h.heap r (.field r.object j) →
              Covered h.heap (cutRange r) (.field r.object j) := by
            intro j hj hc
            have hin : kGranuleBytes * j < o.size ∧ r.lo ≤ kGranuleBytes * j ∧
                kGranuleBytes * j < r.hi := by
              rcases ((covers_field ho).mp hc).2 with ⟨hlo, hhi⟩ | hin
              · have hnot : isCustom (e.layouts o.layout) = false := by
                  rw [Bool.and_eq_true, decide_eq_true_eq] at hcustom
                  exact Bool.eq_false_iff.mpr fun htrue => hcustom ⟨⟨hlo, hhi⟩, htrue⟩
                have := slot_inside hj hnot
                omega
              · exact hin
            obtain ⟨p, hp, hobject, hlo, hhi⟩ := cutRange_spec hin.2.1 hin.2.2
            exact ⟨p, hp, (covers_field ho).mpr ⟨hobject, .inr ⟨hin.1, hlo, hhi⟩⟩⟩
          obtain ⟨more, hok, hcover⟩ := hgo (cutRange r) 0 hown (.inl rfl)
          exact ⟨_, by rw [hok], hcover⟩
      · simp only [hscans, Bool.not_false, if_true]
        obtain ⟨more, hok, hcover⟩ := hgo _ r.object (fun j _ _ => hwhole j) (.inr hwhole)
        exact ⟨_, by rw [hok], hcover⟩

/-! ## The rescans -/

def sliceEntry (a k : Nat) : Grey := if k = 0 then .rescan a else .slice a k

def Pushed (e : Env A Marks) (h : HeapState A Marks) (s : Rescans) : Prop :=
  ∀ o, h.heap s.lastObject = some o →
    (sliced e.layouts o = false → .rescan s.lastObject ∈ s.grey) ∧
    (sliced e.layouts o = true → ∀ k ≤ s.lastSlice, sliceEntry s.lastObject k ∈ s.grey)

/-- What pushing entries for marked objects changes. -/
structure Pushes (e : Env A Marks) (h : HeapState A Marks) (s s' : Rescans) : Prop where
  kept : ∀ entry ∈ s.grey, entry ∈ s'.grey
  marked : ∀ entry ∈ s'.grey, entry ∈ s.grey ∨ h.marks.marked entry.owner = true
  pushed : Pushed e h s'

theorem Pushes.refl (hs : Pushed e h s) : Pushes e h s s where
  kept _ hentry := hentry
  marked _ hentry := .inl hentry
  pushed := hs

theorem Pushes.trans {s' s'' : Rescans} (hp : Pushes e h s s') (hp' : Pushes e h s' s'') :
    Pushes e h s s'' where
  kept entry hentry := hp'.kept entry (hp.kept entry hentry)
  marked entry hentry := (hp'.marked entry hentry).elim (hp.marked entry) .inr
  pushed := hp'.pushed

theorem Pushed.of_grey {grey : List Grey} (hs : Pushed e h s)
    (hgrey : ∀ entry ∈ s.grey, entry ∈ grey) : Pushed e h { s with grey := grey } :=
  fun o ho => ⟨fun hw => hgrey _ ((hs o ho).1 hw), fun hw k hk => hgrey _ ((hs o ho).2 hw k hk)⟩

/-- The slices of a large object from `i` on, when those before have been pushed. -/
theorem pushSlices_spec (ho : h.heap a = some o) (hsliced : sliced e.layouts o = true)
    (hmarked : h.marks.marked a = true) (n i : Nat) (hs : Pushed e h s)
    (hnext : i = 0 ∨ (s.lastObject = a ∧ i ≤ s.lastSlice + 1)) :
    Pushes e h s ((range' i n).foldl (pushSliceRescan a) s) ∧ ∀ k, i ≤ k → k < i + n →
        sliceEntry a k ∈ ((range' i n).foldl (pushSliceRescan a) s).grey := by
  induction n generalizing i s with
  | zero => exact ⟨.refl hs, fun k h1 h2 => absurd h2 (by omega)⟩
  | succ n ih =>
    -- The first slice has been pushed, or is pushed now.
    have hfirst : Pushes e h s (pushSliceRescan a s i) ∧
        sliceEntry a i ∈ (pushSliceRescan a s i).grey ∧
        (pushSliceRescan a s i).lastObject = a ∧ i + 1 ≤ (pushSliceRescan a s i).lastSlice + 1 := by
      unfold pushSliceRescan
      split
      · next hcase =>
        obtain ⟨rfl, hle⟩ := hcase
        exact ⟨.refl hs, (hs o ho).2 hsliced i hle, rfl, by omega⟩
      · refine ⟨⟨fun entry hentry => mem_cons_of_mem _ hentry, ?_, ?_⟩, mem_cons_self,
          rfl, Nat.le_refl _⟩
        · intro entry hentry
          rcases mem_cons.mp hentry with rfl | hentry
          · refine .inr ?_
            split <;> exact hmarked
          · exact .inl hentry
        · intro o' ho'
          obtain rfl := some.inj (ho.symm.trans ho')
          refine ⟨fun hfalse => absurd (hsliced.symm.trans hfalse) (by simp), fun _ k hk => ?_⟩
          by_cases hki : k = i
          · subst hki
            exact mem_cons_self
          · have hk' : k ≤ i := hk
            rcases hnext with rfl | ⟨hlast, hle⟩
            · omega
            · refine mem_cons_of_mem _ ?_
              have hmem := (hs o (by rw [hlast]; exact ho)).2 hsliced k (by omega)
              rw [hlast] at hmem
              exact hmem
    obtain ⟨hp, hmem, hlast, hle⟩ := hfirst
    obtain ⟨hp', hmem'⟩ := ih (i + 1) hp.pushed (.inr ⟨hlast, hle⟩)
    rw [range'_succ, foldl_cons]
    refine ⟨hp.trans hp', fun k h1 h2 => ?_⟩
    by_cases hki : k = i
    · subst hki
      exact hp'.kept _ hmem
    · exact hmem' k (by omega) (by omega)

theorem pushPiece_spec (ho : h.heap r.object = some o) (hmarked : h.marks.marked r.object = true)
    (hs : Pushed e h s) :
    Pushes e h s (pushPiece e.layouts o r s) ∧ ∀ j, Covers h.heap r (.field r.object j) →
        ∃ entry ∈ (pushPiece e.layouts o r s).grey, entry.Reaches e.layouts o r.object j := by
  unfold pushPiece
  by_cases hsliced : sliced e.layouts o = true
  · by_cases hwhole : r.lo = 0 ∧ r.hi = o.size
    · rw [if_neg (by rw [hsliced, decide_eq_true hwhole]; decide), if_neg (by rw [hsliced]; decide)]
      have hpos := sliceBytesFor_pos o.size
      obtain ⟨hlo, hhi⟩ := hwhole
      have hlo' : r.lo / sliceBytesFor o.size = 0 := by
        rw [hlo, Nat.zero_div]
      obtain ⟨hp, hslices⟩ := pushSlices_spec ho hsliced hmarked
        ((r.hi + (sliceBytesFor o.size - 1)) / sliceBytesFor o.size - 0) 0 hs (.inl rfl)
      simp only [hlo']
      refine ⟨hp, fun j _ => ?_⟩
      by_cases hin : kGranuleBytes * j < o.size
      · refine ⟨_, hslices (kGranuleBytes * j / sliceBytesFor o.size) (Nat.zero_le _) ?_, ?_⟩
        · rw [Nat.zero_add, Nat.sub_zero, Nat.div_lt_iff_lt_mul hpos, hhi]
          have hmod := Nat.mod_lt (o.size + (sliceBytesFor o.size - 1)) hpos
          have hdiv := Nat.div_add_mod (o.size + (sliceBytesFor o.size - 1)) (sliceBytesFor o.size)
          rw [Nat.mul_comm] at hdiv
          omega
        · unfold sliceEntry
          by_cases hfirst : kGranuleBytes * j / sliceBytesFor o.size = 0
          · rw [if_pos hfirst]
            exact ⟨rfl, fun _ => .inl ((Nat.div_eq_zero_iff_lt hpos).mp hfirst)⟩
          · rw [if_neg hfirst]
            refine ⟨rfl, Nat.div_mul_le_self _ _, ?_, hin⟩
            have := Nat.lt_mul_div_succ (kGranuleBytes * j) hpos
            rw [Nat.mul_add, Nat.mul_one, Nat.mul_comm (sliceBytesFor o.size)] at this
            exact this
      · refine ⟨_, hslices 0 (Nat.le_refl _) ?_, rfl, fun _ => .inr (by omega)⟩
        rw [Nat.zero_add, Nat.sub_zero, hhi]
        have hlarge := (sliced_iff.mp hsliced).1
        exact Nat.div_pos (by omega) hpos
    · rw [if_pos (by rw [hsliced, decide_eq_false hwhole]; decide)]
      refine ⟨⟨fun entry hentry => mem_cons_of_mem _ hentry, ?_,
        hs.of_grey fun entry hentry => mem_cons_of_mem _ hentry⟩, fun j hc => ?_⟩
      · intro entry hentry
        rcases mem_cons.mp hentry with rfl | hentry
        · exact .inr hmarked
        · exact .inl hentry
      · have hin := ((covers_field ho).mp hc).2.resolve_left hwhole
        exact ⟨_, mem_cons_self, rfl, hin.2.1, hin.2.2, hin.1⟩
  · have hfalse : sliced e.layouts o = false := by simpa using hsliced
    rw [if_neg (by rw [hfalse, Bool.false_and]; decide), if_pos (by rw [hfalse]; rfl)]
    -- One entry scans all of it.
    have hmem : .rescan r.object ∈
        (if r.object = s.lastObject then s.grey else .rescan r.object :: s.grey) := by
      split
      · next hlast =>
        have := (hs o (by rw [← hlast]; exact ho)).1 hfalse
        rw [← hlast] at this
        exact this
      · exact mem_cons_self
    refine ⟨⟨?_, ?_, ?_⟩, fun j _ => ⟨_, hmem, rfl, fun htrue => absurd htrue hsliced⟩⟩
    · intro entry hentry
      show entry ∈ (if r.object = s.lastObject then s.grey else .rescan r.object :: s.grey)
      split
      · exact hentry
      · exact mem_cons_of_mem _ hentry
    · intro entry hentry
      have hentry' : entry ∈
        (if r.object = s.lastObject then s.grey else .rescan r.object :: s.grey) := hentry
      split at hentry'
      · exact .inl hentry'
      · rcases mem_cons.mp hentry' with rfl | hentry'
        · exact .inr hmarked
        · exact .inl hentry'
    · intro o' ho'
      obtain rfl := some.inj (ho.symm.trans ho')
      exact ⟨fun _ => hmem, fun htrue => absurd htrue hsliced⟩

def WorkHas (heap : Nat → Option Obj) (work : List CardWork) (x j : Nat) : Prop :=
  (∃ objects, .starts objects ∈ work ∧ x ∈ objects) ∨
    ∃ r, .piece r ∈ work ∧ Covers heap r (.field x j)

theorem pushCardRescans_spec (work : List CardWork)
    (hstarts : ∀ objects x o, .starts objects ∈ work → x ∈ objects → h.heap x = some o →
      sliced e.layouts o = false)
    (hmarks : ∀ a, h.marks.marked a = true → (h.heap a).isSome = true) {s : Rescans}
    (hs : Pushed e h s) :
    ∃ s', pushCardRescans e h work s = .ok s' ∧ Pushes e h s s' ∧
      ∀ x o j, h.heap x = some o → h.marks.marked x = true → WorkHas h.heap work x j →
        ∃ entry ∈ s'.grey, entry.Reaches e.layouts o x j := by
  induction work generalizing s with
  | nil =>
    refine ⟨s, rfl, .refl hs, ?_⟩
    rintro x o j _ _ (⟨objects, hmem, _⟩ | ⟨r, hmem, _⟩)
    · exact absurd hmem (by simp)
    · exact absurd hmem (by simp)
  | cons w work ih =>
    have hrest : ∀ objects x o, .starts objects ∈ work → x ∈ objects → h.heap x = some o →
        sliced e.layouts o = false := fun objects x o hmem =>
      hstarts objects x o (mem_cons_of_mem _ hmem)
    -- The work's first item, and then the rest.
    have hgo : ∀ {s₁ : Rescans}, Pushes e h s s₁ →
        (∀ x o j, h.heap x = some o → h.marks.marked x = true → WorkHas h.heap [w] x j →
          ∃ entry ∈ s₁.grey, entry.Reaches e.layouts o x j) →
        ∃ s', pushCardRescans e h work s₁ = .ok s' ∧ Pushes e h s s' ∧
          ∀ x o j, h.heap x = some o → h.marks.marked x = true → WorkHas h.heap (w :: work) x j →
            ∃ entry ∈ s'.grey, entry.Reaches e.layouts o x j := by
      intro s₁ hp hfirst
      obtain ⟨s', hok, hp', hreach⟩ := ih hrest hp.pushed
      refine ⟨s', hok, hp.trans hp', fun x o j ho hmarked hwork => ?_⟩
      have hcases : WorkHas h.heap [w] x j ∨ WorkHas h.heap work x j := by
        rcases hwork with ⟨objects, hmem, hx⟩ | ⟨r, hmem, hc⟩
        · rcases mem_cons.mp hmem with rfl | hmem
          · exact .inl (.inl ⟨objects, mem_cons_self, hx⟩)
          · exact .inr (.inl ⟨objects, hmem, hx⟩)
        · rcases mem_cons.mp hmem with rfl | hmem
          · exact .inl (.inr ⟨r, mem_cons_self, hc⟩)
          · exact .inr (.inr ⟨r, hmem, hc⟩)
      rcases hcases with hw | hw
      · obtain ⟨entry, hentry, hr⟩ := hfirst x o j ho hmarked hw
        exact ⟨entry, hp'.kept entry hentry, hr⟩
      · exact hreach x o j ho hmarked hw
    cases w with
    | starts objects =>
      refine hgo ⟨fun entry hentry => mem_append_right _ hentry, ?_,
        hs.of_grey fun entry hentry => mem_append_right _ hentry⟩ ?_
      · intro entry hentry
        rcases mem_append.mp hentry with hnew | hwas
        · obtain ⟨a, ha, rfl⟩ := mem_map.mp (mem_reverse.mp hnew)
          exact .inr (mem_filter.mp ha).2
        · exact .inl hwas
      · rintro x o j ho hmarked (⟨objects', hmem, hx⟩ | ⟨r, hmem, _⟩)
        · obtain rfl := CardWork.starts.inj (mem_singleton.mp hmem)
          have hfalse := hstarts objects' x o mem_cons_self hx ho
          refine ⟨.rescan x, mem_append_left _ (mem_reverse.mpr
            (mem_map.mpr ⟨x, mem_filter.mpr ⟨hx, hmarked⟩, rfl⟩)), rfl, fun htrue => ?_⟩
          rw [hfalse] at htrue
          exact absurd htrue (by simp)
        · exact absurd (mem_singleton.mp hmem) (by simp)
    | piece r =>
      unfold pushCardRescans
      have hown : ∀ {x j : Nat}, WorkHas h.heap [.piece r] x j → Covers h.heap r (.field x j) := by
        rintro x j (⟨objects, hmem, _⟩ | ⟨r', hmem, hc⟩)
        · exact absurd (mem_singleton.mp hmem) (by simp)
        · obtain rfl := CardWork.piece.inj (mem_singleton.mp hmem)
          exact hc
      by_cases hmarked : h.marks.marked r.object = true
      · rw [if_neg (by rw [hmarked]; decide)]
        obtain ⟨o, ho⟩ := isSome_iff_exists.mp (hmarks _ hmarked)
        simp only [ho]
        obtain ⟨hp, hreach⟩ := pushPiece_spec ho hmarked hs
        refine hgo hp fun x o' j ho' _ hwork => ?_
        obtain ⟨rfl, _⟩ := (covers_field ho').mp (hown hwork)
        obtain rfl := some.inj (ho.symm.trans ho')
        exact hreach j (hown hwork)
      · rw [if_pos (by simpa using hmarked)]
        refine hgo (.refl hs) fun x o' j ho' hx hwork => ?_
        obtain ⟨rfl, _⟩ := (covers_field ho').mp (hown hwork)
        exact absurd hx hmarked

/-! ## Marking in place -/

theorem inWords_of_inside {g : Geometry} {lo hi size : Nat} (hbase : g.base ≤ lo) (hlo : lo ≤ x)
    (hsize : kGranuleBytes ≤ size) (hhi : x + size ≤ hi) : inWords g lo hi x = true := by
  have h8 : kGranuleBytes = 8 := rfl
  unfold inWords youngWord
  rw [h8] at hsize ⊢
  rw [Bool.and_eq_true, Bool.and_eq_true, decide_eq_true_eq, decide_eq_true_eq, decide_eq_true_eq]
  omega

theorem youngWords_of_object (hw : h.WellFormed e) (hb : h.ResidentsBelow e)
    (ho : h.heap x = some o) (hyoung : e.geo.isYoung x = true) : youngWords e.geo h x = true := by
  have hsize := (hw.sized x o ho).1
  have h1 : e.geo.edenLo = e.geo.base := rfl
  have h2 := e.geo.edenHi_le h.fromSurvivor
  have h3 := e.geo.edenHi_le (!h.fromSurvivor)
  have h4 : e.geo.edenHi = e.geo.base + e.geo.edenBytes := rfl
  unfold youngWords
  rw [Bool.or_eq_true, Bool.or_eq_true]
  rcases hw.lies x o ho with hl | hl | ⟨hin, _, hmem⟩ | ⟨hold, _⟩
  · exact .inl (.inl (inWords_of_inside (by omega) (by omega) hsize hl.2))
  · exact .inl (.inr (inWords_of_inside (by omega) (by omega) hsize hl.2))
  · exact .inr (inWords_of_inside (by omega) (Geometry.inSurvivor_iff.mp hin).1 hsize
      (hb _ hmem hin))
  · rw [Geometry.not_young_of_old hold] at hyoung
    exact absurd hyoung (by simp)

/-- The marks with which the young generation is marked in place. -/
def inPlaceMarks (g : Geometry) (h : HeapState A Marks) (grey : List Grey) : Marks :=
  { h.marks with young := fun a => h.marks.young a && !youngWords g h a, grey := grey }

/-- The dirty cards' entries are pushed: no slot is excused any more. -/
theorem CycleInv.inPlace (hm : e.Marking) (hi : CycleInv e (fun _ _ => False) c) :
    ∃ work cards rescans, collectDirtyCards e c.state = .ok (work, cards) ∧
      pushCardRescans e c.state work ⟨c.state.marks.grey, 0, 0⟩ = .ok rescans ∧
      MarkInv e c.state true (fun _ _ => False) (inPlaceMarks e.geo c.state rescans.grey) := by
  have hw := hi.wellFormed
  have hzero : c.state.heap 0 = none := by
    cases hz : c.state.heap 0 with
    | none => rfl
    | some o =>
      have := (Geometry.contains_iff.mp (hw.contains hz)).1
      have := e.geo.base_pos
      omega
  obtain ⟨ranges, s, hranges, hsome, hcovered⟩ := largeRanges_spec hw
  obtain ⟨pieces, hpieces, hcover⟩ := cardPieces_spec (e := e) hzero ranges hsome 0
  have hwork : collectDirtyCards e c.state =
      .ok (gatherMatureCards e c.state ++ pieces.map .piece, s.cards) := by
    simp only [collectDirtyCards, hranges, hpieces]
  have hstarts : ∀ objects x o,
      .starts objects ∈ gatherMatureCards e c.state ++ pieces.map .piece → x ∈ objects →
      c.state.heap x = some o → sliced e.layouts o = false := by
    intro objects x o hmem hx ho
    rcases mem_append.mp hmem with hmem | hmem
    · exact matureCards_medium hm hw hmem hx ho
    · obtain ⟨p, _, habs⟩ := mem_map.mp hmem
      exact absurd habs (by simp)
  obtain ⟨rescans, hrescans, hpushes, hreach⟩ := pushCardRescans_spec
    (gatherMatureCards e c.state ++ pieces.map .piece) hstarts
    (fun a ha => (hi.marks.objects a ha).2) (s := ⟨c.state.marks.grey, 0, 0⟩)
    (fun o ho => absurd (hzero.symm.trans ho) (by simp))
  -- A slot behind a dirty card is reached by an entry.
  have hbehind : ∀ {x i : Nat} {o : Obj}, c.state.heap x = some o → e.geo.isOld x = true →
      c.state.marks.marked x = true → i ∈ slotsOf e.layouts o →
      Behind e.geo c.state.cards c.state.regions o.size x i →
      ∃ entry ∈ rescans.grey, entry.Reaches e.layouts o x i := by
    intro x i o ho hold hmarked hslot hb
    refine hreach x o i ho hmarked ?_
    by_cases hlarge : e.geo.inLarge x = true
    · refine .inr ?_
      rcases hcover x i o ho hslot (hcovered x i o ho hlarge hb) with ⟨p, hp, hc⟩ | rfl
      · exact ⟨p, mem_append_right _ (mem_map.mpr ⟨p, hp, rfl⟩), hc⟩
      · exact absurd (hzero.symm.trans ho) (by simp)
    · rcases hb with ⟨hcard, hregion⟩ | ⟨habs, _⟩
      · obtain ⟨objects, hmem, hx⟩ :=
          matureCards_spec hw ho hold (by simpa using hlarge) hcard hregion
        exact .inl ⟨objects, mem_append_left _ hmem, hx⟩
      · exact absurd habs hlarge
  refine ⟨_, _, rescans, hwork, hrescans, ?_⟩
  refine { objects := hi.marks.objects, entries := ?_, slots := ?_, lines := ?_ }
  · intro entry hentry
    rcases hpushes.marked entry hentry with hwas | hmarked
    · obtain ⟨hold, hsome⟩ := hi.marks.entries entry hwas
      exact ⟨tracked_old hold, hsome⟩
    · obtain ⟨hold, hsome⟩ := hi.marks.objects _ hmarked
      exact ⟨tracked_old hold, hsome⟩
  · intro x o i ho hx hmarked hslot hrefers _
    have hold : e.geo.isOld x = true := by
      refine (Geometry.contains_iff_or.mp hx).resolve_left fun hyoung => ?_
      rw [isMarked_young hyoung] at hmarked
      simp only [inPlaceMarks, youngWords_of_object hw hi.residents ho hyoung, Bool.not_true,
        Bool.and_false] at hmarked
      exact absurd hmarked (by simp)
    rw [isMarked_old hold] at hmarked
    by_cases hb : Behind e.geo c.state.cards c.state.regions o.size x i
    · exact .inr (.inr (hbehind ho hold hmarked hslot hb))
    · have htarget : e.geo.isOld (addressOf (o.words i)) = true := refers_old hrefers fun hyoung =>
        hb (hi.remembered x o i ho hold hslot hrefers hyoung)
      rcases hi.marks.slots x o i ho hold (by rw [isMarked_old hold]; exact hmarked) hslot hrefers
        htarget with hmark | hexc | ⟨entry, hentry, hr⟩
      · refine .inl ?_
        rw [isMarked_old htarget] at hmark ⊢
        exact hmark
      · obtain ⟨o', ho', hb'⟩ := hexc.resolve_right id
        obtain rfl := some.inj (ho.symm.trans ho')
        exact absurd hb' hb
      · exact .inr (.inr ⟨entry, hpushes.kept entry hentry, hr⟩)
  · intro x o ho hold hsmall hmarked
    exact (hi.marks.lines x o ho hold hsmall hmarked).imp_left (hpushes.kept _)

/-- With fuel for the grey work the finish ends. Every object that the roots and the stacks
reach is marked and left by the reclaiming, and so are the lines of the mature ones. -/
theorem CycleInv.finish (hm : e.Marking) (hi : CycleInv e (fun _ _ => False) c)
    (hnames : c.state.Names stackObjects) :
    ∃ bound, ∀ pick fuel, bound ≤ fuel →
      ∃ h', finishCycle e pick fuel stackObjects c.state = .ok h' ∧
        ∀ a, c.state.Reach e stackObjects a →
          isMarked e.geo h'.marks a = true ∧ h'.heap a = c.state.heap a ∧
          ∀ o, c.state.heap a = some o → e.geo.isOld a = true → e.geo.inLarge a = false →
            ∀ l, firstLine e.geo a ≤ l → l ≤ lastLine e.geo a o.size → h'.marks.line l = true := by
  obtain ⟨work, cards, rescans, hwork, hrescans, hinv⟩ := hi.inPlace hm
  obtain ⟨m₁, hroots, hclaims, hmarkRoots, hmarkStacks⟩ := markRoots_spec true
    hi.wellFormed hnames (inPlaceMarks e.geo c.state rescans.grey)
  refine ⟨greyWork e c.state.heap m₁, fun pick fuel hfuel => ?_⟩
  obtain ⟨m₂, hdrain, hinv₂, hempty, hmono⟩ := drainGrey_spec hi.wellFormed hm.scansOutside pick fuel
    (hinv.claims hclaims) hfuel
  have hfinish : finishCycle e pick fuel stackObjects c.state =
      .ok { c.state with heap := reclaimInPlace e.geo c.state m₂, cards := cards, marks := m₂ } := by
    simp only [finishCycle, hwork, hrescans]
    rw [show markRoots e c.state true stackObjects { c.state.marks with
        young := fun a => c.state.marks.young a && !youngWords e.geo c.state a
        grey := rescans.grey } = .ok m₁ from hroots]
    simp only [hdrain]
  refine ⟨_, hfinish, fun a hreach => ?_⟩
  have hmarked : isMarked e.geo m₂ a = true := by
    induction hreach with
    | root hmem hrefers =>
      exact hmono _ (hmarkRoots _ hmem hrefers (Bool.and_eq_true _ _ ▸ hrefers).2)
    | stack hmem =>
      exact hmono _ (hmarkStacks _ hmem (hnames.contains hi.wellFormed hmem))
    | slot hreach hobject hslot hrefers ih =>
      have hin := (Bool.and_eq_true _ _ ▸ hrefers).2
      rcases hinv₂.slots _ _ _ hobject (hi.wellFormed.contains hobject) ih hslot hrefers hin with
        hmark | hf | ⟨entry, hentry, _⟩
      · exact hmark
      · exact hf.elim
      · rw [hempty] at hentry
        exact absurd hentry (by simp)
  refine ⟨hmarked, ?_, ?_⟩
  · show reclaimInPlace e.geo c.state m₂ a = c.state.heap a
    unfold reclaimInPlace
    unfold isMarked at hmarked
    by_cases hyoung : e.geo.isYoung a = true
    · rw [if_pos hyoung] at hmarked ⊢
      rw [if_neg (by rw [hmarked, Bool.not_true, Bool.and_false]; decide)]
    · rw [if_neg hyoung] at hmarked ⊢
      rw [if_pos hmarked]
  · intro o ho hold hsmall
    rw [isMarked_old hold] at hmarked
    refine (hinv₂.lines a o ho hold hsmall hmarked).resolve_left fun hgrey => ?_
    rw [hempty] at hgrey
    exact absurd hgrey (by simp)

section Sample

theorem cycle_base_pos : 0 < 4096 := by omega

theorem cycle_raw_reference : ((1 : Nat) == 1) = true := rfl

def cycleGeometry : Geometry where
  base := 4096
  edenBytes := 1024
  survivorBytes := 512
  matureBlocks := 0
  largeRegions := 1
  referenceTag := fun tag => tag == 1
  rawTag := 1
  base_pos := cycle_base_pos
  raw_reference := cycle_raw_reference
  addressable := by
    show 4096 + 1024 + 2 * 512 + (0 + 1) * 32768 ≤ 2 ^ 48
    omega

theorem cycle_old : cycleGeometry.isOld a = true ↔ 6144 ≤ a ∧ a < 38912 :=
  Geometry.isOld_iff

theorem cycle_large : cycleGeometry.inLarge a = true ↔ 6144 ≤ a ∧ a < 38912 :=
  Geometry.inLarge_iff

/-- An old generation with one large object, and no room left. -/
def oneLarge : OldSpace Unit cycleGeometry where
  allocate _ _ := none
  noteLargeAllocated s _ := s
  blockCount _ := 0
  inUse _ _ := false
  starts _ _ _ := []
  largeFrontier _ := 1
  pageHead _ p := if p = 0 then some 0 else none
  runPages _ _ := 1
  Fits _ sizes := ∀ a, cycleGeometry.isOld a = true → sizes a = if a = 6152 then some 16 else none
  fits_congr h heq a ha := (heq a ha).trans (h a ha)
  allocate_fits _ _ _ h := absurd h (by simp)
  allocate_apart _ _ _ h := absurd h (by simp)
  allocate_head _ _ _ h := absurd h (by simp)
  mature_start _ hold hsmall _ := by
    rw [cycle_large.mpr (cycle_old.mp hold)] at hsmall
    exact absurd hsmall (by simp)
  start_mature _ _ h := absurd h (by simp)
  blocks_le _ := Nat.le_refl _
  large_run h hlarge hsize := by
    rw [h _ (Geometry.old_of_large hlarge)] at hsize
    split at hsize
    · next heq =>
      obtain rfl := Option.some.inj hsize
      refine ⟨0, heq, by decide, fun p _ hp => ?_⟩
      rw [if_pos (by omega)]
    · exact absurd hsize (by simp)
  page_run _ h := by
    split at h
    · obtain rfl := Option.some.inj h
      omega
    · exact absurd h (by simp)
  frontier_le _ := by decide

def cycleEnv : Env Unit Marks where
  geo := cycleGeometry
  layouts := fun id => if id = 0 then .words else .leaf
  space := oneLarge
  marker := cycleMarker
  tenureAge := 3
  shade := true

/-- A root names the large object, and a slot of it names an object in eden. -/
def cycleHeap : HeapState Unit Marks where
  heap := fun a =>
    if a = 6152 then some ⟨16, 0, 0, 0, false, false, false, fun i =>
      if i = 0 then 2 ^ 48 + 4104 else 5⟩
    else if a = 4104 then some ⟨8, 1, 0, 0, false, false, false, fun _ => 9⟩
    else none
  old := ()
  cards := fun k => if k = 0 then .dirty else .clean
  regions := fun r => r == 0
  roots := [.slot (2 ^ 48 + 6152)]
  marks := .clear
  edenEnd := 4112
  survivorTop := fun which => cycleGeometry.survivorLo which
  fromSurvivor := false
  residents := []
  pinned := []

theorem cycle_cases (h : cycleHeap.heap a = some o) :
    (a = 6152 ∧ o = ⟨16, 0, 0, 0, false, false, false, fun i =>
      if i = 0 then 2 ^ 48 + 4104 else 5⟩) ∨
    (a = 4104 ∧ o = ⟨8, 1, 0, 0, false, false, false, fun _ => 9⟩) := by
  simp only [cycleHeap] at h
  split at h
  · next heq => exact .inl ⟨heq, (some.inj h).symm⟩
  · split at h
    · next heq => exact .inr ⟨heq, (some.inj h).symm⟩
    · exact absurd h (by simp)

theorem cycle_layout (id : Nat) (trace : Nat → (Nat → Nat) → List Nat)
    (range : Option (Nat → (Nat → Nat) → Nat → Nat → List Nat)) :
    cycleEnv.layouts id ≠ .custom trace range := by
  simp only [cycleEnv]
  split <;> simp

theorem cycle_marking : cycleEnv.Marking where
  marker := rfl
  shade := rfl
  scansOutside id trace range h := absurd h (cycle_layout id trace _)
  medium _ hold hsmall := by
    have hlarge : cycleEnv.geo.inLarge _ = true := cycle_large.mpr (cycle_old.mp hold)
    rw [hsmall] at hlarge
    exact absurd hlarge (by simp)

theorem cycle_wellFormed : cycleHeap.WellFormed cycleEnv := by
  refine
    { lawful := ?_, closed := ?_, rootsClosed := ?_, sized := ?_, plain := ?_
      lies := ?_, apart := ?_, fits := ?_, cardRegion := ?_, cardLive := ?_, edenEnd := by decide
      survivorTop := by decide, residents := .nil
      residentIn := fun r hr => absurd hr (by simp [cycleHeap])
      toTop := fun _ => rfl, unpinned := rfl }
  · intro id
    exact
      { stable := fun trace range h => absurd h (cycle_layout id trace range)
        covers := fun trace range h => absurd h (cycle_layout id trace _)
        within := fun trace range h => absurd h (cycle_layout id trace _) }
  · intro a o ho i hi hrefers
    rcases cycle_cases ho with ⟨rfl, rfl⟩ | ⟨rfl, rfl⟩
    · by_cases hi0 : i = 0
      · subst hi0
        rfl
      · simp only [if_neg hi0] at hrefers
        exact absurd hrefers (by decide)
    · exact absurd hi (by simp [slotsOf, cycleEnv])
  · intro r hr _
    rw [mem_singleton.mp hr]
    rfl
  · intro a o ho
    rcases cycle_cases ho with ⟨rfl, rfl⟩ | ⟨rfl, rfl⟩ <;> decide
  · intro a o ho
    rcases cycle_cases ho with ⟨rfl, rfl⟩ | ⟨rfl, rfl⟩ <;> exact ⟨rfl, rfl⟩
  · intro a o ho
    rcases cycle_cases ho with ⟨rfl, rfl⟩ | ⟨rfl, rfl⟩
    · exact .inr (.inr (.inr ⟨cycle_old.mpr (by omega), by decide⟩))
    · exact .inl (by decide)
  · intro x y o o' ho ho' hne
    rcases cycle_cases ho with ⟨rfl, rfl⟩ | ⟨rfl, rfl⟩ <;>
      rcases cycle_cases ho' with ⟨rfl, rfl⟩ | ⟨rfl, rfl⟩
    · exact absurd rfl hne
    · exact .inr (by decide)
    · exact .inl (by decide)
    · exact absurd rfl hne
  · intro a ha
    have hold := cycle_old.mp ha
    unfold sizes
    simp only [cycleHeap]
    split
    · rfl
    · rw [if_neg (by omega)]
      rfl
  · intro a _ hdirty
    have hcard : cycleGeometry.cardOf a = 0 := by
      by_contra hne
      exact absurd (hdirty.symm.trans (if_neg hne)) (by simp)
    show (cycleGeometry.regionOf a == 0) = true
    rw [← cardOf_div, hcard]
    rfl
  · intro a _ _ head hhead
    have hhead' : (if (a - cycleGeometry.largeLo) / kPageBytes = 0 then some 0 else none) =
      some head := hhead
    split at hhead'
    · obtain rfl := some.inj hhead'
      rfl
    · exact absurd hhead' (by simp)

theorem cycle_remembers : cycleHeap.Remembers cycleEnv := by
  intro x o i ho hold _ _ _
  rcases cycle_cases ho with ⟨rfl, rfl⟩ | ⟨rfl, rfl⟩
  · exact .inl ⟨rfl, rfl⟩
  · exact absurd (cycle_old.mp hold) (by omega)

end Sample

end Brass.Gc.Heap
