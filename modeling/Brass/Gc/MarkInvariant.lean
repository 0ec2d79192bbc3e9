import Brass.Gc.MarkCycle

/-!
# The invariant of the marker

A marked object's slot names a marked object, or a grey entry will still visit it, or it is
excused: while the mutator runs, a slot that lies behind a dirty card is. Scanning an entry
keeps this, and marks what the entry's slots name.
-/

namespace Brass.Gc.Heap

open Grey Geometry

open Function (update update_of_ne update_self)

open List

variable {A : Type} {e : Env A Marks} {h : HeapState A Marks} {inPlace : Bool}
  {excused excused' : Nat → Nat → Prop} {m m' m'' : Marks}
variable {layouts : Nat → Layout} {o : Obj} {a hi i x : Nat} {entry : Grey} {g : Geometry}

def isMarked (g : Geometry) (m : Marks) (a : Nat) : Bool :=
  if g.isYoung a then m.young a else m.marked a

def tracked (g : Geometry) (inPlace : Bool) (a : Nat) : Bool :=
  if inPlace then g.contains a else g.isOld a

/-- Whether an entry will visit slot `i` of the object `o` at `x`. The entry of a large
object is for its first slice and for the slices that its scan pushes. -/
def Grey.Reaches (layouts : Nat → Layout) (o : Obj) (x i : Nat) : Grey → Prop
  | .object a => a = x
  | .slice a k => a = x ∧ k * sliceBytesFor o.size ≤ kGranuleBytes * i ∧
      kGranuleBytes * i < k * sliceBytesFor o.size + sliceBytesFor o.size ∧
      kGranuleBytes * i < o.size
  | .rescan a => a = x ∧ (sliced layouts o = true →
      kGranuleBytes * i < sliceBytesFor o.size ∨ o.size ≤ kGranuleBytes * i)
  | .range r => r.object = x ∧ r.lo ≤ kGranuleBytes * i ∧ kGranuleBytes * i < r.hi ∧
      kGranuleBytes * i < o.size

theorem Grey.Reaches.owner (h : entry.Reaches layouts o x i) : entry.owner = x := by
  cases entry with
  | object a => exact h
  | slice a k => exact h.1
  | rescan a => exact h.1
  | range r => exact h.1

theorem Grey.Reaches.congr {o' : Obj} (h : entry.Reaches layouts o x i)
    (hsize : o'.size = o.size) (hlayout : o'.layout = o.layout) :
    entry.Reaches layouts o' x i := by
  unfold Grey.Reaches sliced at h ⊢
  rw [hsize, hlayout]
  exact h

def Pending (layouts : Nat → Layout) (m : Marks) (o : Obj) (x i : Nat) : Prop :=
  ∃ entry ∈ m.grey, entry.Reaches layouts o x i

/-- What the slice of a custom layout that starts at offset 0 visits besides: whatever the
full trace visits outside the payload. -/
def Layout.ScansOutside (l : Layout) : Prop :=
  ∀ trace range, l = .custom trace (some range) → ∀ size words hi i, i ∈ trace size words →
    size ≤ kGranuleBytes * i → 0 < hi → i ∈ range size words 0 hi

structure MarkInv (e : Env A Marks) (h : HeapState A Marks) (inPlace : Bool)
    (excused : Nat → Nat → Prop) (m : Marks) : Prop where
  objects : ∀ a, m.marked a = true → e.geo.isOld a = true ∧ (h.heap a).isSome = true
  entries : ∀ entry ∈ m.grey, tracked e.geo inPlace entry.owner = true ∧
    (h.heap entry.owner).isSome = true
  slots : ∀ x o i, h.heap x = some o → tracked e.geo inPlace x = true →
    isMarked e.geo m x = true → i ∈ slotsOf e.layouts o → e.geo.refers (o.words i) = true →
    tracked e.geo inPlace (addressOf (o.words i)) = true →
    isMarked e.geo m (addressOf (o.words i)) = true ∨ excused x i ∨ Pending e.layouts m o x i
  lines : ∀ x o, h.heap x = some o → e.geo.isOld x = true → e.geo.inLarge x = false →
    m.marked x = true → .object x ∈ m.grey ∨
      ∀ l, firstLine e.geo x ≤ l → l ≤ lastLine e.geo x o.size → m.line l = true

theorem isMarked_old (h : g.isOld a = true) : isMarked g m a = m.marked a := by
  simp only [isMarked, not_young_of_old h, Bool.false_eq_true, if_false]

theorem isMarked_young (h : g.isYoung a = true) : isMarked g m a = m.young a := by
  simp only [isMarked, h, if_true]

theorem tracked_old (h : g.isOld a = true) : tracked g inPlace a = true := by
  cases inPlace with
  | false => exact h
  | true => exact contains_iff_or.mpr (.inr h)

/-! ## Slices -/

theorem sliceBytesFor_eq (size : Nat) : sliceBytesFor size =
    max 16384 ((((size + 65534) / 65535) + 7) / 8 * 8) := rfl

theorem sliceBytesFor_pos (size : Nat) : 0 < sliceBytesFor size := by
  rw [sliceBytesFor_eq]
  omega

theorem sliced_iff :
    sliced layouts o = true ↔ kSliceBytes < o.size ∧ sliceable (layouts o.layout) = true := by
  rw [sliced, Bool.and_eq_true, decide_eq_true_eq]

/-- A slot of a sliceable layout whose bytes are in a range is visited by the range's scan,
and so is what lies outside the payload by the range at offset 0. -/
theorem mem_rangeSlotsOf {lo : Nat} (hlawful : (layouts o.layout).Lawful g)
    (hi' : i ∈ slotsOf layouts o) (hsize : kGranuleBytes * i < o.size)
    (hlo : lo ≤ kGranuleBytes * i) (hhi : kGranuleBytes * i < hi) :
    i ∈ rangeSlotsOf layouts o lo hi := by
  have h8 : kGranuleBytes = 8 := rfl
  have hrange : i < o.count → i ∈ range' (lo / kGranuleBytes)
      (min o.count ((hi + kGranuleBytes - 1) / kGranuleBytes) - lo / kGranuleBytes) := by
    intro hcount
    rw [h8] at hlo hhi ⊢
    rw [mem_range'_1]
    omega
  unfold slotsOf at hi'
  unfold rangeSlotsOf
  cases hl : layouts o.layout with
  | leaf =>
    rw [hl] at hi'
    exact absurd hi' (by simp)
  | words =>
    rw [hl] at hi'
    exact hrange (mem_range.mp hi')
  | mask bits =>
    rw [hl] at hi'
    obtain ⟨hmem, hbit⟩ := mem_filter.mp hi'
    exact mem_filter.mpr ⟨hrange (mem_range.mp hmem), hbit⟩
  | custom trace range =>
    rw [hl] at hi'
    cases range with
    | none => exact hi'
    | some range => exact hlawful.covers trace range hl _ _ _ _ _ hi' hsize hlo hhi

theorem mem_rangeSlotsOf_outside (hscan : (layouts o.layout).ScansOutside)
    (hi' : i ∈ slotsOf layouts o) (hsize : o.size ≤ kGranuleBytes * i) (hhi : 0 < hi) :
    i ∈ rangeSlotsOf layouts o 0 hi := by
  have h8 : kGranuleBytes = 8 := rfl
  have hcount : ¬ i < o.count := by
    unfold Obj.count
    rw [h8] at hsize ⊢
    omega
  unfold slotsOf at hi'
  unfold rangeSlotsOf
  cases hl : layouts o.layout with
  | leaf =>
    rw [hl] at hi'
    exact absurd hi' (by simp)
  | words =>
    rw [hl] at hi'
    exact absurd (mem_range.mp hi') hcount
  | mask bits =>
    rw [hl] at hi'
    exact absurd (mem_range.mp (mem_filter.mp hi').1) hcount
  | custom trace range =>
    rw [hl] at hi'
    cases range with
    | none => exact hi'
    | some range => exact hscan trace range hl _ _ _ _ hi' hsize hhi

theorem rangeSlotsOf_subset {lo : Nat} (hlawful : (layouts o.layout).Lawful g)
    (hi' : i ∈ rangeSlotsOf layouts o lo hi) :
    i ∈ slotsOf layouts o := by
  have hrange : i ∈ range' (lo / kGranuleBytes)
      (min o.count ((hi + kGranuleBytes - 1) / kGranuleBytes) - lo / kGranuleBytes) →
      i ∈ range o.count := by
    intro hmem
    rw [mem_range'_1] at hmem
    rw [mem_range]
    omega
  unfold rangeSlotsOf at hi'
  unfold slotsOf
  cases hl : layouts o.layout with
  | leaf =>
    rw [hl] at hi'
    exact hi'
  | words =>
    rw [hl] at hi'
    exact hrange hi'
  | mask bits =>
    rw [hl] at hi'
    obtain ⟨hmem, hbit⟩ := mem_filter.mp hi'
    exact mem_filter.mpr ⟨hrange hmem, hbit⟩
  | custom trace range =>
    rw [hl] at hi'
    cases range with
    | none => exact hi'
    | some range => exact hlawful.within trace range hl _ _ _ _ _ hi'

theorem Grey.slots_subset (hlawful : (layouts o.layout).Lawful g) (hi : i ∈ entry.slots layouts o) :
    i ∈ slotsOf layouts o := by
  cases entry with
  | object a =>
    simp only [slots] at hi
    split at hi
    · exact rangeSlotsOf_subset hlawful hi
    · exact hi
  | slice a k => exact rangeSlotsOf_subset hlawful hi
  | rescan a =>
    simp only [slots] at hi
    split at hi
    · exact rangeSlotsOf_subset hlawful hi
    · exact hi
  | range r => exact rangeSlotsOf_subset hlawful hi

def sliceCount (o : Obj) : Nat :=
  (o.size + sliceBytesFor o.size - 1) / sliceBytesFor o.size

theorem Grey.Reaches.visited (hr : entry.Reaches layouts o x i)
    (hlawful : (layouts o.layout).Lawful g) (hscan : (layouts o.layout).ScansOutside)
    (hi : i ∈ slotsOf layouts o) :
    i ∈ entry.slots layouts o ∨
      ∃ k, entry = .object x ∧ sliced layouts o = true ∧ 1 ≤ k ∧ k < sliceCount o ∧
        Grey.Reaches layouts o x i (.slice x k) := by
  have hpos := sliceBytesFor_pos o.size
  cases entry with
  | object a =>
    obtain rfl : a = x := hr
    simp only [slots]
    by_cases hs : sliced layouts o = true
    · rw [if_pos hs]
      by_cases hout : o.size ≤ kGranuleBytes * i
      · exact .inl (mem_rangeSlotsOf_outside hscan hi hout hpos)
      · by_cases hfirst : kGranuleBytes * i < sliceBytesFor o.size
        · exact .inl (mem_rangeSlotsOf hlawful hi (by omega) (Nat.zero_le _) hfirst)
        · refine .inr ⟨kGranuleBytes * i / sliceBytesFor o.size, trivial, hs, ?_, ?_, rfl, ?_, ?_,
            by omega⟩
          · exact (Nat.one_le_div_iff hpos).mpr (by omega)
          · rw [sliceCount, Nat.div_lt_iff_lt_mul hpos]
            have := Nat.div_add_mod (o.size + sliceBytesFor o.size - 1) (sliceBytesFor o.size)
            have hmod := Nat.mod_lt (o.size + sliceBytesFor o.size - 1) hpos
            rw [Nat.mul_comm] at this
            omega
          · exact Nat.div_mul_le_self _ _
          · have := Nat.lt_mul_div_succ (kGranuleBytes * i) hpos
            rw [Nat.mul_add, Nat.mul_one] at this
            rw [Nat.mul_comm (kGranuleBytes * i / _)]
            exact this
    · rw [if_neg hs]
      exact .inl hi
  | slice a k =>
    obtain ⟨-, hlo, hhi, hsize⟩ := hr
    exact .inl (mem_rangeSlotsOf hlawful hi hsize hlo (by omega))
  | rescan a =>
    simp only [slots]
    by_cases hs : sliced layouts o = true
    · rw [if_pos hs]
      have hlarge := (sliced_iff.mp hs).1
      have hkpos : kSliceBytes = 16384 := rfl
      rcases hr.2 hs with hfirst | hout
      · by_cases hout : o.size ≤ kGranuleBytes * i
        · exact .inl (mem_rangeSlotsOf_outside hscan hi hout (by omega))
        · exact .inl (mem_rangeSlotsOf hlawful hi (by omega) (Nat.zero_le _) (by omega))
      · exact .inl (mem_rangeSlotsOf_outside hscan hi hout (by omega))
    · rw [if_neg hs]
      exact .inl hi
  | range r =>
    obtain ⟨-, hlo, hhi, hsize⟩ := hr
    exact .inl (mem_rangeSlotsOf hlawful hi hsize hlo hhi)

/-! ## Claims -/

/-- What an object is worth as grey work: its own entry and those of its slices. -/
def greyWeight (layouts : Nat → Layout) (heap : Nat → Option Obj) (a : Nat) : Nat :=
  ((heap a).map fun o => if sliced layouts o then sliceCount o else 0).getD 0 + 1

def Grey.weight (layouts : Nat → Layout) (heap : Nat → Option Obj) : Grey → Nat
  | .object a => greyWeight layouts heap a
  | _ => 1

/-- The grey work that is left, with what the objects not marked yet are worth. -/
def greyWork (e : Env A Marks) (heap : Nat → Option Obj) (m : Marks) : Nat :=
  (m.grey.map (Grey.weight e.layouts heap)).sum +
    ∑ a ∈ Finset.range e.geo.heapHi, if isMarked e.geo m a then 0 else greyWeight e.layouts heap a

/-- What visiting some words changes: objects of the heap are claimed, and become grey. -/
structure Claims (e : Env A Marks) (h : HeapState A Marks) (inPlace : Bool) (m m' : Marks) :
    Prop where
  marked : ∀ a, m.marked a = true → m'.marked a = true
  young : ∀ a, m.young a = true → m'.young a = true
  line : m'.line = m.line
  kept : ∀ entry ∈ m.grey, entry ∈ m'.grey
  claimed : ∀ a, m'.marked a = true → m.marked a = true ∨
    (e.geo.isOld a = true ∧ (h.heap a).isSome = true ∧ .object a ∈ m'.grey)
  claimedYoung : ∀ a, m'.young a = true → m.young a = true ∨ .object a ∈ m'.grey
  entries : ∀ entry ∈ m'.grey, entry ∈ m.grey ∨
    (tracked e.geo inPlace entry.owner = true ∧ (h.heap entry.owner).isSome = true)
  work : greyWork e h.heap m' ≤ greyWork e h.heap m

namespace Claims

theorem refl (m : Marks) : Claims e h inPlace m m where
  marked _ ha := ha
  young _ ha := ha
  line := rfl
  kept _ hentry := hentry
  claimed _ ha := .inl ha
  claimedYoung _ ha := .inl ha
  entries _ hentry := .inl hentry
  work := Nat.le_refl _

theorem trans (hc : Claims e h inPlace m m') (hc' : Claims e h inPlace m' m'') :
    Claims e h inPlace m m'' where
  marked a ha := hc'.marked a (hc.marked a ha)
  young a ha := hc'.young a (hc.young a ha)
  line := hc'.line.trans hc.line
  kept entry hentry := hc'.kept entry (hc.kept entry hentry)
  claimed a ha := by
    rcases hc'.claimed a ha with ha | hnew
    · rcases hc.claimed a ha with ha | ⟨hold, hsome, hgrey⟩
      · exact .inl ha
      · exact .inr ⟨hold, hsome, hc'.kept _ hgrey⟩
    · exact .inr hnew
  claimedYoung a ha := by
    rcases hc'.claimedYoung a ha with ha | hnew
    · rcases hc.claimedYoung a ha with ha | hgrey
      · exact .inl ha
      · exact .inr (hc'.kept _ hgrey)
    · exact .inr hnew
  entries entry hentry := by
    rcases hc'.entries entry hentry with hentry | hsome
    · exact hc.entries entry hentry
    · exact .inr hsome
  work := Nat.le_trans hc'.work hc.work

theorem isMarked (hc : Claims e h inPlace m m') (ha : isMarked e.geo m a = true) :
    Heap.isMarked e.geo m' a = true := by
  unfold Heap.isMarked at ha ⊢
  split
  · next hyoung =>
    rw [if_pos hyoung] at ha
    exact hc.young a ha
  · next hyoung =>
    rw [if_neg hyoung] at ha
    exact hc.marked a ha

theorem pending (hc : Claims e h inPlace m m') (hp : Pending e.layouts m o x i) :
    Pending e.layouts m' o x i := by
  obtain ⟨entry, hentry, hr⟩ := hp
  exact ⟨entry, hc.kept entry hentry, hr⟩

end Claims

/-- Claiming objects keeps the invariant: a claimed object is grey. -/
theorem MarkInv.claims (hi : MarkInv e h inPlace excused m) (hc : Claims e h inPlace m m') :
    MarkInv e h inPlace excused m' where
  objects a ha := by
    rcases hc.claimed a ha with ha | ⟨hold, hsome, _⟩
    · exact hi.objects a ha
    · exact ⟨hold, hsome⟩
  entries entry hentry := by
    rcases hc.entries entry hentry with hentry | hsome
    · exact hi.entries entry hentry
    · exact hsome
  slots x o i ho hx hmarked hslot hrefers htarget := by
    by_cases hwas : isMarked e.geo m x = true
    · rcases hi.slots x o i ho hx hwas hslot hrefers htarget with hm | hexc | hp
      · exact .inl (hc.isMarked hm)
      · exact .inr (.inl hexc)
      · exact .inr (.inr (hc.pending hp))
    · refine .inr (.inr ⟨.object x, ?_, rfl⟩)
      unfold isMarked at hmarked hwas
      by_cases hyoung : e.geo.isYoung x = true
      · rw [if_pos hyoung] at hmarked hwas
        exact (hc.claimedYoung x hmarked).resolve_left hwas
      · rw [if_neg hyoung] at hmarked hwas
        exact ((hc.claimed x hmarked).resolve_left hwas).2.2
  lines x o ho hold hsmall hmarked := by
    rcases hc.claimed x hmarked with hwas | ⟨_, _, hgrey⟩
    · rcases hi.lines x o ho hold hsmall hwas with hgrey | hlines
      · exact .inl (hc.kept _ hgrey)
      · refine .inr fun l hfirst hlast => ?_
        rw [hc.line]
        exact hlines l hfirst hlast
    · exact .inl hgrey

theorem sum_mark {f : Nat → Nat} {p q : Nat → Bool} (ha : a < hi) (hp : p a = false)
    (hq : q a = true) (hsame : ∀ b, b ≠ a → q b = p b) :
    (∑ b ∈ Finset.range hi, if q b then 0 else f b) + f a =
      ∑ b ∈ Finset.range hi, if p b then 0 else f b := by
  have hmem : a ∈ Finset.range hi := Finset.mem_range.mpr ha
  rw [← Finset.sum_erase_add _ _ hmem, ← Finset.sum_erase_add (a := a) _ _ hmem, hp, hq]
  simp only [if_true, Nat.add_zero, Bool.false_eq_true, if_false]
  congr 1
  apply Finset.sum_congr rfl
  intro b hb
  rw [hsame b (Finset.ne_of_mem_erase hb)]

theorem shade_claims (hold : e.geo.isOld a = true) (hsome : (h.heap a).isSome = true) :
    Claims e h inPlace m (m.shade a) := by
  unfold Marks.shade
  by_cases ha : m.marked a = true
  · rw [if_pos ha]
    exact .refl m
  · rw [if_neg ha]
    refine
      { marked := ?_, young := fun _ hb => hb, line := rfl
        kept := fun entry hentry => mem_cons_of_mem _ hentry, claimed := ?_
        claimedYoung := fun _ hb => .inl hb, entries := ?_, work := ?_ }
    · intro b hb
      by_cases hba : b = a
      · subst hba
        exact update_self _ _ _
      · exact (update_of_ne hba _ _).trans hb
    · intro b hb
      by_cases hba : b = a
      · subst hba
        exact .inr ⟨hold, hsome, mem_cons_self⟩
      · exact .inl ((update_of_ne hba _ _).symm.trans hb)
    · intro entry hentry
      rcases mem_cons.mp hentry with rfl | hentry
      · exact .inr ⟨tracked_old hold, hsome⟩
      · exact .inl hentry
    · have hyoung := not_young_of_old hold
      have hsum := sum_mark (f := greyWeight e.layouts h.heap) (p := isMarked e.geo m)
        (q := isMarked e.geo { m with
          marked := update m.marked a true, grey := .object a :: m.grey })
        (isOld_iff.mp hold).2 (by rw [isMarked_old hold]; simpa using ha)
        (by rw [isMarked_old hold]; exact update_self _ _ _) (by
          intro b hb
          simp only [isMarked, update_of_ne hb])
      unfold greyWork
      simp only [map_cons, sum_cons, weight]
      omega

theorem shadeYoung_claims (hyoung : e.geo.isYoung a = true)
    (htracked : tracked e.geo inPlace a = true) (hsome : (h.heap a).isSome = true) :
    Claims e h inPlace m (m.shadeYoung a) := by
  unfold Marks.shadeYoung
  by_cases ha : m.young a = true
  · rw [if_pos ha]
    exact .refl m
  · rw [if_neg ha]
    refine
      { marked := fun _ hb => hb, young := ?_, line := rfl
        kept := fun entry hentry => mem_cons_of_mem _ hentry
        claimed := fun _ hb => .inl hb, claimedYoung := ?_, entries := ?_, work := ?_ }
    · intro b hb
      by_cases hba : b = a
      · subst hba
        exact update_self _ _ _
      · exact (update_of_ne hba _ _).trans hb
    · intro b hb
      by_cases hba : b = a
      · subst hba
        exact .inr mem_cons_self
      · exact .inl ((update_of_ne hba _ _).symm.trans hb)
    · intro entry hentry
      rcases mem_cons.mp hentry with rfl | hentry
      · exact .inr ⟨htracked, hsome⟩
      · exact .inl hentry
    · have hlt : a < e.geo.heapHi :=
        (contains_iff.mp (contains_iff_or.mpr (.inl hyoung))).2
      have hsum := sum_mark (f := greyWeight e.layouts h.heap) (p := isMarked e.geo m)
        (q := isMarked e.geo { m with
          young := update m.young a true, grey := .object a :: m.grey })
        hlt (by rw [isMarked_young hyoung]; simpa using ha)
        (by rw [isMarked_young hyoung]; exact update_self _ _ _) (by
          intro b hb
          simp only [isMarked, update_of_ne hb])
      unfold greyWork
      simp only [map_cons, sum_cons, weight]
      omega

/-! ## Visiting and scanning -/

theorem HeapState.WellFormed.blockInUse (hw : h.WellFormed e) (hsome : (h.heap a).isSome = true)
    (hold : e.geo.isOld a = true) (hsmall : e.geo.inLarge a = false) :
    (a - e.geo.matureLo) / kBlockBytes < e.space.blockCount h.old ∧
      e.space.inUse h.old ((a - e.geo.matureLo) / kBlockBytes) = true := by
  obtain ⟨o, ho⟩ := Option.isSome_iff_exists.mp hsome
  obtain ⟨i, card, bit, hi, huse, hcard, hbit, rfl⟩ := e.space.mature_start hw.fits hold hsmall
    (show sizes h.heap a = some o.size by simp [sizes, ho])
  have hlt := (e.space.start_mature hw.fits hcard hbit).1
  have hindex : (e.geo.blockBase i + (card * 64 + bit) * kGranuleBytes - e.geo.matureLo) /
      kBlockBytes = i := by
    have h8 : kGranuleBytes = 8 := rfl
    have hblock : kBlockBytes = 32768 := rfl
    have h64 : kCardsPerBlock = 64 := rfl
    rw [blockBase_eq, h8, hblock]
    omega
  rw [hindex]
  exact ⟨hi, huse⟩

theorem markVisit_spec (inPlace : Bool) (hw : h.WellFormed e) (m : Marks) {w : Nat}
    (hclosed : e.geo.refers w = true → (h.heap (addressOf w)).isSome = true) :
    ∃ m', markVisit e h.old inPlace w m = .ok m' ∧ Claims e h inPlace m m' ∧
      (e.geo.refers w = true → tracked e.geo inPlace (addressOf w) = true →
        isMarked e.geo m' (addressOf w) = true) := by
  unfold markVisit
  by_cases hrange : tracked e.geo inPlace (addressOf w) = true ∧ e.geo.isReferenceTag w = true
  · obtain ⟨htracked, htag⟩ := hrange
    have hin : e.geo.contains (addressOf w) = true := by
      cases inPlace with
      | true => exact htracked
      | false => exact contains_iff_or.mpr (.inr htracked)
    have hsome : (h.heap (addressOf w)).isSome = true := by
      apply hclosed
      unfold refers
      rw [htag, hin]
      rfl
    have hpass : (!(if inPlace then e.geo.contains (addressOf w) else e.geo.isOld (addressOf w)) ||
        !e.geo.isReferenceTag w) = false := by
      rw [htag]
      unfold tracked at htracked
      rw [htracked]
      rfl
    simp only [hpass, Bool.false_eq_true, if_false]
    by_cases hyoung : e.geo.isYoung (addressOf w) = true
    · rw [if_pos hyoung]
      refine ⟨_, rfl, shadeYoung_claims hyoung htracked hsome, fun _ _ => ?_⟩
      rw [isMarked_young hyoung]
      unfold Marks.shadeYoung
      split
      · assumption
      · exact update_self _ _ _
    · have hold : e.geo.isOld (addressOf w) = true :=
        (contains_iff_or.mp hin).resolve_left hyoung
      have hmark : isMarked e.geo (m.shade (addressOf w)) (addressOf w) = true := by
        rw [isMarked_old hold]
        exact cycleMarker.marked_shade m _
      rw [if_neg hyoung]
      by_cases hlarge : e.geo.inLarge (addressOf w) = true
      · rw [if_pos hlarge]
        exact ⟨_, rfl, shade_claims hold hsome, fun _ _ => hmark⟩
      · rw [if_neg hlarge, if_pos (hw.blockInUse hsome hold (by simpa using hlarge))]
        exact ⟨_, rfl, shade_claims hold hsome, fun _ _ => hmark⟩
  · have hpass : (!(if inPlace then e.geo.contains (addressOf w) else e.geo.isOld (addressOf w)) ||
        !e.geo.isReferenceTag w) = true := by
      rw [← Bool.not_and, Bool.not_eq_true', Bool.eq_false_iff]
      intro hboth
      exact hrange (Bool.and_eq_true _ _ ▸ hboth)
    simp only [hpass, if_true]
    refine ⟨m, rfl, .refl m, fun hrefers htracked => ?_⟩
    exact absurd ⟨htracked, (Bool.and_eq_true _ _ ▸ hrefers).1⟩ hrange

theorem markWords_spec (inPlace : Bool) (hw : h.WellFormed e) (l : List Nat) (m : Marks)
    (hclosed : ∀ w ∈ l, e.geo.refers w = true → (h.heap (addressOf w)).isSome = true) :
    ∃ m', markWords e h.old inPlace l m = .ok m' ∧ Claims e h inPlace m m' ∧
      ∀ w ∈ l, e.geo.refers w = true → tracked e.geo inPlace (addressOf w) = true →
        isMarked e.geo m' (addressOf w) = true := by
  induction l generalizing m with
  | nil => exact ⟨m, rfl, .refl m, fun w hmem => absurd hmem (by simp)⟩
  | cons w l ih =>
    obtain ⟨m₁, hvisit, hc, hmark⟩ := markVisit_spec inPlace hw m (hclosed w mem_cons_self)
    obtain ⟨m₂, hrest, hc', hmarks⟩ := ih m₁ fun w' hw' => hclosed w' (mem_cons_of_mem _ hw')
    refine ⟨m₂, ?_, hc.trans hc', ?_⟩
    · simp only [markWords, hvisit]
      exact hrest
    · intro w' hmem hrefers htracked
      rcases mem_cons.mp hmem with rfl | hmem
      · exact hc'.isMarked (hmark hrefers htracked)
      · exact hmarks w' hmem hrefers htracked

theorem isMarked_congr (hmarked : m'.marked = m.marked) (hyoung : m'.young = m.young) (a : Nat) :
    isMarked g m' a = isMarked g m a := by
  simp only [isMarked, hmarked, hyoung]

structure Entered (e : Env A Marks) (h : HeapState A Marks) (entry : Grey) (o : Obj)
    (m m' : Marks) : Prop where
  marked : m'.marked = m.marked
  young : m'.young = m.young
  line : ∀ l, m.line l = true → m'.line l = true
  lines : entry = .object entry.owner → e.geo.isOld entry.owner = true →
    e.geo.inLarge entry.owner = false →
    ∀ l, firstLine e.geo entry.owner ≤ l → l ≤ lastLine e.geo entry.owner o.size → m'.line l = true
  kept : ∀ other ∈ m.grey, other = entry ∨ other ∈ m'.grey
  entries : ∀ other ∈ m'.grey, other ∈ m.grey ∨ other.owner = entry.owner
  slices : entry = .object entry.owner → sliced e.layouts o = true →
    ∀ k, 1 ≤ k → k < sliceCount o → .slice entry.owner k ∈ m'.grey
  work : greyWork e h.heap m' < greyWork e h.heap m

theorem account_line {l : Nat} (hl : m.line l = true) : (account g a o m).line l = true := by
  unfold account
  split
  · simp only [hl, Bool.true_or]
  · exact hl

theorem account_grey (g : Geometry) (a : Nat) (o : Obj) (m : Marks) :
    (account g a o m).grey = m.grey ∧ (account g a o m).marked = m.marked ∧
      (account g a o m).young = m.young := by
  unfold account
  split <;> exact ⟨rfl, rfl, rfl⟩

theorem account_lines {l : Nat} (hold : g.isOld a = true) (hsmall : g.inLarge a = false)
    (hfirst : firstLine g a ≤ l) (hlast : l ≤ lastLine g a o.size) :
    (account g a o m).line l = true := by
  unfold account
  rw [if_pos (by rw [hold, hsmall]; rfl)]
  simp only [hfirst, hlast, and_self, decide_true, Bool.or_true]

theorem greyWork_lt {heap : Nat → Option Obj} (hmarked : m'.marked = m.marked)
    (hyoung : m'.young = m.young)
    (hlt : (m'.grey.map (weight e.layouts heap)).sum < (m.grey.map (weight e.layouts heap)).sum) :
    greyWork e heap m' < greyWork e heap m := by
  unfold greyWork
  simp only [isMarked_congr hmarked hyoung]
  omega

theorem enter_spec {k : Nat} (hk : m.grey[k]? = some entry) (ho : h.heap entry.owner = some o) :
    Entered e h entry o m (entry.enter e o { m with grey := m.grey.eraseIdx k }) := by
  obtain ⟨hlt, hget⟩ := List.getElem?_eq_some_iff.mp hk
  have hperm : (entry :: m.grey.eraseIdx k).Perm m.grey := by
    rw [← hget]
    exact getElem_cons_eraseIdx_perm hlt
  have hsum := (hperm.map (weight e.layouts h.heap)).sum_eq
  rw [map_cons, sum_cons] at hsum
  have hmem : ∀ other ∈ m.grey, other = entry ∨ other ∈ m.grey.eraseIdx k := fun other hother =>
    mem_cons.mp (hperm.mem_iff.mpr hother)
  have hsub : ∀ other ∈ m.grey.eraseIdx k, other ∈ m.grey := fun other hother =>
    hperm.mem_iff.mp (mem_cons_of_mem _ hother)
  have hplain : (∀ a, entry ≠ .object a) → weight e.layouts h.heap entry = 1 →
      Entered e h entry o m { m with grey := m.grey.eraseIdx k } := by
    intro hne hweight
    exact
      { marked := rfl, young := rfl, line := fun _ hl => hl
        lines := fun heq => absurd heq (hne _), kept := hmem
        entries := fun other hother => .inl (hsub other hother)
        slices := fun heq => absurd heq (hne _)
        work := greyWork_lt rfl rfl (by
          show ((m.grey.eraseIdx k).map _).sum < _
          omega) }
  cases entry with
  | slice a i => exact hplain (by simp) rfl
  | rescan a => exact hplain (by simp) rfl
  | range r => exact hplain (by simp) rfl
  | object a =>
    obtain ⟨hgrey, hmarked, hyoung⟩ := account_grey e.geo a o { m with grey := m.grey.eraseIdx k }
    have hweight : weight e.layouts h.heap (.object a) =
        (if sliced e.layouts o then sliceCount o else 0) + 1 := by
      have ho' : h.heap a = some o := ho
      simp only [weight, greyWeight, ho', Option.map_some, Option.getD_some]
    rw [hweight] at hsum
    simp only [enter]
    by_cases hs : sliced e.layouts o = true
    · rw [if_pos hs] at hsum ⊢
      have hslices : ∀ other, other ∈ (range' 1 (sliceCount o - 1)).map (slice a) ↔
          ∃ j, 1 ≤ j ∧ j < sliceCount o ∧ other = .slice a j := by
        intro other
        rw [mem_map]
        constructor
        · rintro ⟨j, hj, rfl⟩
          rw [mem_range'_1] at hj
          exact ⟨j, hj.1, by omega, rfl⟩
        · rintro ⟨j, h1, h2, rfl⟩
          exact ⟨j, by rw [mem_range'_1]; omega, rfl⟩
      have hones : (((range' 1 (sliceCount o - 1)).map (slice a)).map
          (weight e.layouts h.heap)).sum = sliceCount o - 1 := by
        rw [map_map, show weight e.layouts h.heap ∘ slice a = fun _ => 1 from rfl]
        simp
      refine
        { marked := hmarked, young := hyoung, line := fun l hl => account_line hl
          lines := fun _ hold hsmall l hfirst hlast => account_lines hold hsmall hfirst hlast
          kept := ?_, entries := ?_, slices := ?_, work := greyWork_lt hmarked hyoung ?_ }
      · intro other hother
        rcases hmem other hother with heq | hother
        · exact .inl heq
        · refine .inr (mem_append_right _ ?_)
          rw [hgrey]
          exact hother
      · intro other hother
        rcases mem_append.mp hother with hnew | hwas
        · obtain ⟨j, _, _, rfl⟩ := (hslices other).mp hnew
          exact .inr rfl
        · rw [hgrey] at hwas
          exact .inl (hsub other hwas)
      · intro _ _ j h1 h2
        exact mem_append_left _ ((hslices _).mpr ⟨j, h1, h2, rfl⟩)
      · show (((range' 1 (sliceCount o - 1)).map (slice a) ++
          (account e.geo a o { m with grey := m.grey.eraseIdx k }).grey).map _).sum < _
        rw [map_append, sum_append, hones, hgrey]
        show sliceCount o - 1 + ((m.grey.eraseIdx k).map _).sum < _
        omega
    · rw [if_neg hs] at hsum ⊢
      refine
        { marked := hmarked, young := hyoung, line := fun l hl => account_line hl
          lines := fun _ hold hsmall l hfirst hlast => account_lines hold hsmall hfirst hlast
          kept := ?_, entries := ?_, slices := fun _ h' => absurd h' hs
          work := greyWork_lt hmarked hyoung ?_ }
      · rw [hgrey]
        exact hmem
      · rw [hgrey]
        exact fun other hother => .inl (hsub other hother)
      · rw [hgrey]
        show ((m.grey.eraseIdx k).map _).sum < _
        omega

/-- While an entry is scanned, the slots that its scan visits are excused. -/
theorem Entered.inv (he : Entered e h entry o m m') (hw : h.WellFormed e)
    (hscan : ∀ id, (e.layouts id).ScansOutside) (ho : h.heap entry.owner = some o)
    (htracked : tracked e.geo inPlace entry.owner = true) (hi : MarkInv e h inPlace excused m) :
    MarkInv e h inPlace (fun x i => excused x i ∨ (x = entry.owner ∧ i ∈ entry.slots e.layouts o))
      m' where
  objects a ha := by
    rw [he.marked] at ha
    exact hi.objects a ha
  entries other hother := by
    rcases he.entries other hother with hwas | howner
    · exact hi.entries other hwas
    · rw [howner, ho]
      exact ⟨htracked, rfl⟩
  slots x ox i hox hx hmarked hslot hrefers htarget := by
    rw [isMarked_congr he.marked he.young] at hmarked ⊢
    rcases hi.slots x ox i hox hx hmarked hslot hrefers htarget with hm | hexc | ⟨other, hother, hr⟩
    · exact .inl hm
    · exact .inr (.inl (.inl hexc))
    · rcases he.kept other hother with rfl | hkept
      · obtain rfl := hr.owner
        obtain rfl := Option.some.inj (ho.symm.trans hox)
        rcases hr.visited (hw.lawful o.layout) (hscan o.layout) hslot with
          hvisit | ⟨k, heq, hs, hle, hlt, hreach⟩
        · exact .inr (.inl (.inr ⟨rfl, hvisit⟩))
        · exact .inr (.inr ⟨_, he.slices heq hs k hle hlt, hreach⟩)
      · exact .inr (.inr ⟨other, hkept, hr⟩)
  lines x ox hox hold hsmall hmarked := by
    rw [he.marked] at hmarked
    rcases hi.lines x ox hox hold hsmall hmarked with hgrey | hlines
    · rcases he.kept _ hgrey with heq | hkept
      · obtain rfl : x = entry.owner := by rw [← heq]; rfl
        obtain rfl := Option.some.inj (ho.symm.trans hox)
        exact .inr (he.lines heq.symm hold hsmall)
      · exact .inl hkept
    · exact .inr fun l hfirst hlast => he.line l (hlines l hfirst hlast)

section

variable (hw : h.WellFormed e) (hscan : ∀ id, (e.layouts id).ScansOutside)
include hw hscan

theorem scanEntry_spec
    (hi : MarkInv e h inPlace excused m) {k : Nat} (hk : m.grey[k]? = some entry) :
    ∃ m', scanEntry e h inPlace entry { m with grey := m.grey.eraseIdx k } = .ok m' ∧
      MarkInv e h inPlace excused m' ∧ greyWork e h.heap m' < greyWork e h.heap m ∧
      ∀ a, isMarked e.geo m a = true → isMarked e.geo m' a = true := by
  obtain ⟨htracked, hsome⟩ := hi.entries entry (mem_of_getElem? hk)
  obtain ⟨o, ho⟩ := Option.isSome_iff_exists.mp hsome
  have he := enter_spec (e := e) hk ho
  obtain ⟨m', hok, hc, hmarks⟩ := markWords_spec inPlace hw ((entry.slots e.layouts o).map o.words)
    (entry.enter e o { m with grey := m.grey.eraseIdx k }) (by
      intro w hword hrefers
      obtain ⟨i, hmem, rfl⟩ := mem_map.mp hword
      exact hw.closed _ o ho i (slots_subset (hw.lawful o.layout) hmem) hrefers)
  have hinv := (he.inv hw hscan ho htracked hi).claims hc
  refine ⟨m', ?_, { hinv with slots := ?_ }, Nat.lt_of_le_of_lt hc.work he.work, ?_⟩
  · simp only [scanEntry, ho]
    exact hok
  · intro x ox i hox hx hmarked hslot hrefers htarget
    rcases hinv.slots x ox i hox hx hmarked hslot hrefers htarget with
      hm | (hexc | ⟨rfl, hvisit⟩) | hp
    · exact .inl hm
    · exact .inr (.inl hexc)
    · obtain rfl := Option.some.inj (ho.symm.trans hox)
      exact .inl (hmarks _ (mem_map.mpr ⟨i, hvisit, rfl⟩) hrefers htarget)
    · exact .inr (.inr hp)
  · intro a ha
    apply hc.isMarked
    rw [isMarked_congr he.marked he.young]
    exact ha

theorem markStep_spec (hi : MarkInv e h inPlace excused m) (k : Nat) :
    ∃ m', markStep e h inPlace k m = .ok m' ∧ MarkInv e h inPlace excused m' ∧
      (k < m.grey.length → greyWork e h.heap m' < greyWork e h.heap m) ∧
      ∀ a, isMarked e.geo m a = true → isMarked e.geo m' a = true := by
  unfold markStep
  cases hk : m.grey[k]? with
  | none =>
    refine ⟨m, rfl, hi, fun hlt => ?_, fun _ ha => ha⟩
    rw [getElem?_eq_getElem hlt] at hk
    exact absurd hk (by simp)
  | some entry =>
    obtain ⟨m', hok, hinv, hlt, hmono⟩ := scanEntry_spec hw hscan hi hk
    exact ⟨m', hok, hinv, fun _ => hlt, hmono⟩

theorem runSlice_spec (schedule : List Nat) (hi : MarkInv e h false excused m) :
    ∃ m', runSlice e h schedule m = .ok m' ∧ MarkInv e h false excused m' := by
  induction schedule generalizing m with
  | nil => exact ⟨m, rfl, hi⟩
  | cons k schedule ih =>
    obtain ⟨m₁, hok, hinv, _⟩ := markStep_spec hw hscan hi k
    obtain ⟨m', hrest, hinv'⟩ := ih hinv
    refine ⟨m', ?_, hinv'⟩
    simp only [runSlice, hok]
    exact hrest

theorem drainGrey_spec (pick : Nat → Nat) (fuel : Nat) (hi : MarkInv e h true excused m)
    (hfuel : greyWork e h.heap m ≤ fuel) :
    ∃ m', drainGrey e h pick fuel m = .ok m' ∧ MarkInv e h true excused m' ∧ m'.grey = [] ∧
      ∀ a, isMarked e.geo m a = true → isMarked e.geo m' a = true := by
  induction fuel generalizing m with
  | zero =>
    have hgrey : m.grey = [] := by
      cases hl : m.grey with
      | nil => rfl
      | cons entry rest =>
        unfold greyWork at hfuel
        rw [hl, map_cons, sum_cons] at hfuel
        cases entry <;> simp only [weight, greyWeight] at hfuel <;> omega
    exact ⟨m, by simp only [drainGrey, hgrey, isEmpty_nil, if_true], hi, hgrey, fun _ ha => ha⟩
  | succ fuel ih =>
    unfold drainGrey
    cases hl : m.grey with
    | nil =>
      rw [if_pos (by rw [isEmpty_nil])]
      exact ⟨m, rfl, hi, hl, fun _ ha => ha⟩
    | cons entry rest =>
      rw [if_neg (by simp)]
      have hlen : pick fuel % (entry :: rest).length < m.grey.length := by
        rw [hl]
        exact Nat.mod_lt _ (Nat.succ_pos _)
      obtain ⟨m₁, hok, hinv, hlt, hmono⟩ := markStep_spec hw hscan hi (pick fuel % (entry :: rest).length)
      have hless := hlt hlen
      obtain ⟨m', hrest, hinv', hempty, hmono'⟩ := ih hinv (by omega)
      refine ⟨m', ?_, hinv', hempty, fun a ha => hmono' a (hmono a ha)⟩
      simp only [hok]
      exact hrest

end

/-! ## The roots -/

theorem HeapState.Names.contains {stackObjects : List Nat} (hw : h.WellFormed e)
    (hn : h.Names stackObjects) (ha : a ∈ stackObjects) : e.geo.contains a = true := by
  obtain ⟨o, ho⟩ := Option.isSome_iff_exists.mp (hn.objects a ha)
  exact hw.contains ho

theorem refers_raw (hin : g.contains a = true) :
    g.refers (retarget (g.rawTag * 2 ^ kTagShift) a) = true ∧
      addressOf (retarget (g.rawTag * 2 ^ kTagShift) a) = a := by
  have hlt := lt_of_contains hin
  have haddr := addressOf_retarget (w := g.rawTag * 2 ^ kTagShift) hlt
  refine ⟨?_, haddr⟩
  unfold refers isReferenceTag
  rw [haddr, hin, tagOf_retarget hlt, tagOf, Nat.mul_div_cancel _ (Nat.two_pow_pos _),
    g.raw_reference]
  rfl

theorem markRoots_spec (inPlace : Bool) {stackObjects : List Nat} (hw : h.WellFormed e)
    (hn : h.Names stackObjects) (m : Marks) :
    ∃ m', markRoots e h inPlace stackObjects m = .ok m' ∧ Claims e h inPlace m m' ∧
      (∀ r ∈ h.roots, e.geo.refers (r.word e.geo) = true →
        tracked e.geo inPlace (addressOf (r.word e.geo)) = true →
        isMarked e.geo m' (addressOf (r.word e.geo)) = true) ∧
      ∀ a ∈ stackObjects, tracked e.geo inPlace a = true → isMarked e.geo m' a = true := by
  obtain ⟨m', hok, hc, hmarks⟩ := markWords_spec inPlace hw
    (rootWords e.geo h.roots stackObjects) m (by
      intro w hmem hrefers
      rcases mem_append.mp hmem with hmem | hmem
      · obtain ⟨r, hr, rfl⟩ := mem_map.mp hmem
        exact hw.rootsClosed r hr hrefers
      · obtain ⟨a, ha, rfl⟩ := mem_map.mp hmem
        rw [(refers_raw (hn.contains hw ha)).2]
        exact hn.objects a ha)
  refine ⟨m', ?_, hc, ?_, ?_⟩
  · simp only [markRoots, hok, hw.unpinned, scanPinned]
  · intro r hr
    exact hmarks _ (mem_append_left _ (mem_map.mpr ⟨r, hr, rfl⟩))
  · intro a ha
    have hraw := refers_raw (hn.contains hw ha)
    have hmark := hmarks _ (mem_append_right _ (mem_map.mpr ⟨a, ha, rfl⟩)) hraw.1
    rw [hraw.2] at hmark
    exact hmark

end Brass.Gc.Heap
