import Brass.Gc.MinorLarge

/-!
# The heap between collections

What holds of a heap before a minor collection, and that the collection starts from it with
the invariant of an evacuation: the to-space's fragments lie between the residents, the
objects that the stacks name are pinned and grey, and the slots to visit are the roots and
those behind a dirty card.
-/

namespace Brass.Gc.Heap

open List

variable {A M : Type} {e : Env A M} {h : HeapState A M}
variable {a : Nat} {o : Obj}

/-- Where the object `o` at `a` lies: in eden, in the survivor space that is collected next,
in place in the other one, or in the old generation. -/
def Lies (g : Geometry) (h : HeapState A M) (a : Nat) (o : Obj) : Prop :=
  (g.edenLo + kHeaderBytes ≤ a ∧ a + o.size ≤ h.edenEnd) ∨
  (g.survivorLo h.fromSurvivor + kHeaderBytes ≤ a ∧
    a + o.size ≤ h.survivorTop h.fromSurvivor) ∨
  (g.inSurvivor (!h.fromSurvivor) a = true ∧ o.resident = true ∧ (a, o.size) ∈ h.residents) ∨
  (g.isOld a = true ∧ g.matureLo + kHeaderBytes ≤ a)

structure HeapState.WellFormed (e : Env A M) (h : HeapState A M) : Prop where
  lawful : ∀ id, (e.layouts id).Lawful e.geo
  closed : ∀ a o, h.heap a = some o → ∀ i ∈ slotsOf e.layouts o,
    e.geo.refers (o.words i) = true → (h.heap (addressOf (o.words i))).isSome = true
  rootsClosed : ∀ r ∈ h.roots, e.geo.refers (r.word e.geo) = true →
    (h.heap (addressOf (r.word e.geo))).isSome = true
  sized : ∀ a o, h.heap a = some o → kGranuleBytes ≤ o.size ∧ o.size % kGranuleBytes = 0
  plain : ∀ a o, h.heap a = some o → o.forwarded = false ∧ o.pinned = false
  lies : ∀ a o, h.heap a = some o → Lies e.geo h a o
  apart : ∀ x y o o', h.heap x = some o → h.heap y = some o' → x ≠ y → Apart x o.size y o'.size
  fits : e.space.Fits h.old (sizes h.heap)
  cardRegion : ∀ a, e.geo.inLarge a = true → h.cards (e.geo.cardOf a) = .dirty →
    h.regions (e.geo.regionOf a) = true
  cardLive : ∀ a, e.geo.inLarge a = true → h.cards (e.geo.cardOf a) ≠ .clean → ∀ head,
    e.space.pageHead h.old ((a - e.geo.largeLo) / kPageBytes) = some head →
    (h.heap (e.geo.largeObjectAt head)).isSome = true
  edenEnd : h.edenEnd ≤ e.geo.edenHi
  survivorTop : h.survivorTop h.fromSurvivor ≤ e.geo.survivorHi h.fromSurvivor
  residents : h.residents.Pairwise fun r r' => r.1 + r.2 + kHeaderBytes ≤ r'.1
  residentIn : ∀ r ∈ h.residents, e.geo.inSurvivor (!h.fromSurvivor) r.1 = true →
    e.geo.survivorLo (!h.fromSurvivor) + kHeaderBytes ≤ r.1 ∧
    r.1 + r.2 ≤ e.geo.survivorHi (!h.fromSurvivor)
  toTop : (∀ r ∈ h.residents, e.geo.inSurvivor (!h.fromSurvivor) r.1 = false) →
    h.survivorTop (!h.fromSurvivor) = e.geo.survivorLo (!h.fromSurvivor)
  unpinned : h.pinned = []

/-- The remembered-set property: a slot of an old object that names a young one lies behind a
dirty card whose region's byte is set. -/
def HeapState.Remembers (e : Env A M) (h : HeapState A M) : Prop :=
  ∀ x o i, h.heap x = some o → e.geo.isOld x = true → i ∈ slotsOf e.layouts o →
    e.geo.refers (o.words i) = true → e.geo.isYoung (addressOf (o.words i)) = true →
    Behind e.geo h.cards h.regions o.size x i

/-- What the stacks name: objects, in ascending order. -/
structure HeapState.Names (h : HeapState A M) (stackObjects : List Nat) : Prop where
  ascending : stackObjects.Pairwise (· < ·)
  objects : ∀ a ∈ stackObjects, (h.heap a).isSome = true

/-! ## The to-space -/

structure Fragmented (g : Geometry) (which : Bool) (l : List (Nat × Nat)) (at_ : Nat)
    (frags : List YoungFragment) (end_ : Nat) : Prop where
  le : at_ ≤ end_
  empty : (∀ r ∈ l, g.inSurvivor which r.1 = false) → end_ = at_
  nonempty : (∃ r ∈ l, g.inSurvivor which r.1 = true) → at_ < end_
  within : ∀ f ∈ frags, at_ ≤ f.lo ∧ f.lo ≤ f.hi ∧ f.hi ≤ end_
  ascending : frags.Pairwise fun f f' => f.hi ≤ f'.lo
  below : ∀ r ∈ l, g.inSurvivor which r.1 = true → r.1 + r.2 ≤ end_
  top : ∀ hi, at_ ≤ hi → (∀ r ∈ l, g.inSurvivor which r.1 = true → r.1 + r.2 ≤ hi) → end_ ≤ hi
  avoids : ∀ r ∈ l, g.inSurvivor which r.1 = true → ∀ f ∈ frags,
    r.1 + r.2 ≤ f.lo ∨ f.hi + kHeaderBytes ≤ r.1

/-- A resident of the space, with what is free before it. -/
theorem Fragmented.cons {g : Geometry} {which : Bool} {l : List (Nat × Nat)}
    {at_ r size end_ : Nat} {frags frags' : List YoungFragment}
    (hrest : Fragmented g which l (r + size) frags end_) (hr : g.inSurvivor which r = true)
    (hat : at_ + kHeaderBytes ≤ r) (hafter : ∀ r' ∈ l, r + size + kHeaderBytes ≤ r'.1)
    (hfrags : frags' = frags ∨ frags' = ⟨at_, r - kHeaderBytes⟩ :: frags) :
    Fragmented g which ((r, size) :: l) at_ frags' end_ := by
  have hle := hrest.le
  have h8 : kHeaderBytes = 8 := rfl
  have hmem : ∀ f ∈ frags', f = ⟨at_, r - kHeaderBytes⟩ ∨ f ∈ frags := by
    intro f hf
    rcases hfrags with rfl | rfl
    · exact .inr hf
    · exact mem_cons.mp hf
  refine
    { le := by omega, empty := ?_, nonempty := fun _ => by omega, within := ?_, ascending := ?_
      below := ?_, top := ?_, avoids := ?_ }
  · intro hnone
    have := hnone (r, size) mem_cons_self
    simp only [hr] at this
    exact absurd this (by simp)
  · intro f hf
    rcases hmem f hf with rfl | hf
    · simp only
      omega
    · have := hrest.within f hf
      omega
  · rcases hfrags with rfl | rfl
    · exact hrest.ascending
    · refine pairwise_cons.mpr ⟨fun f hf => ?_, hrest.ascending⟩
      have := (hrest.within f hf).1
      simp only
      omega
  · intro r' hr' hin
    rcases mem_cons.mp hr' with rfl | hr'
    · exact hle
    · exact hrest.below r' hr' hin
  · intro hi _ hall
    exact hrest.top hi (hall (r, size) mem_cons_self hr)
      fun r' hr' => hall r' (mem_cons_of_mem _ hr')
  · intro r' hr' hin f hf
    rcases mem_cons.mp hr' with rfl | hr' <;> rcases hmem f hf with rfl | hf
    · simp only
      omega
    · exact .inl (hrest.within f hf).1
    · have := hafter r' hr'
      simp only
      omega
    · exact hrest.avoids r' hr' hin f hf

theorem Fragmented.skip {g : Geometry} {which : Bool} {l : List (Nat × Nat)} {at_ end_ : Nat}
    {r : Nat × Nat} {frags : List YoungFragment} (hrest : Fragmented g which l at_ frags end_)
    (hr : g.inSurvivor which r.1 = false) : Fragmented g which (r :: l) at_ frags end_ where
  le := hrest.le
  empty hnone := hrest.empty fun r' hr' => hnone r' (mem_cons_of_mem _ hr')
  nonempty := by
    rintro ⟨r', hr', hin⟩
    rcases mem_cons.mp hr' with rfl | hr'
    · exact absurd (hin.symm.trans hr) (by simp)
    · exact hrest.nonempty ⟨r', hr', hin⟩
  within := hrest.within
  ascending := hrest.ascending
  below := by
    intro r' hr' hin
    rcases mem_cons.mp hr' with rfl | hr'
    · exact absurd (hin.symm.trans hr) (by simp)
    · exact hrest.below r' hr' hin
  top hi hat hall := hrest.top hi hat fun r' hr' => hall r' (mem_cons_of_mem _ hr')
  avoids := by
    intro r' hr' hin
    rcases mem_cons.mp hr' with rfl | hr'
    · exact absurd (hin.symm.trans hr) (by simp)
    · exact hrest.avoids r' hr' hin

theorem toFragments_spec (g : Geometry) (which : Bool) (l : List (Nat × Nat)) (at_ : Nat)
    (hl : l.Pairwise fun r r' => r.1 + r.2 + kHeaderBytes ≤ r'.1)
    (hin : ∀ r ∈ l, g.inSurvivor which r.1 = true → at_ + kHeaderBytes ≤ r.1) :
    Fragmented g which l at_ (toFragments g which l at_).1 (toFragments g which l at_).2 := by
  induction l generalizing at_ with
  | nil =>
    exact
      { le := Nat.le_refl _, empty := fun _ => rfl
        nonempty := fun ⟨r, hr, _⟩ => absurd hr (by simp)
        within := fun f hf => absurd hf (by simp [toFragments]), ascending := .nil
        below := fun r hr => absurd hr (by simp), top := fun _ hat _ => hat
        avoids := fun r hr => absurd hr (by simp) }
  | cons r l ih =>
    obtain ⟨r, size⟩ := r
    obtain ⟨hafter, hl'⟩ := pairwise_cons.mp hl
    unfold toFragments
    by_cases hr : g.inSurvivor which r = true
    · have hrest := ih (r + size) hl' fun r' hr' _ => hafter r' hr'
      have hat := hin (r, size) mem_cons_self hr
      simp only [hr, if_true]
      split
      · exact hrest.cons hr hat hafter (.inr rfl)
      · exact hrest.cons hr hat hafter (.inl rfl)
    · have hrest := ih at_ hl' fun r' hr' => hin r' (mem_cons_of_mem _ hr')
      simp only [hr, Bool.false_eq_true, if_false]
      exact hrest.skip (by simpa using hr)

structure Prepared (e : Env A M) (h : HeapState A M) (frags : List YoungFragment) (span : Nat) :
    Prop where
  nonempty : frags ≠ []
  spanLe : span ≤ e.geo.survivorBytes
  within : ∀ f ∈ frags, e.geo.survivorLo (!h.fromSurvivor) ≤ f.lo ∧
    f.hi ≤ e.geo.survivorHi (!h.fromSurvivor) ∧ f.lo ≤ f.hi
  ascending : frags.Pairwise fun f f' => f.hi ≤ f'.lo
  residents : ∀ r ∈ h.residents, e.geo.inSurvivor (!h.fromSurvivor) r.1 = true →
    r.1 + r.2 ≤ e.geo.survivorLo (!h.fromSurvivor) + span ∧
    ∀ f ∈ frags, r.1 + r.2 ≤ f.lo ∨ f.hi + kHeaderBytes ≤ r.1

theorem setupToSpace_spec (hw : h.WellFormed e) :
    ∃ frags span, setupToSpace e.geo h (!h.fromSurvivor) = .ok (frags, span) ∧
      Prepared e h frags span := by
  have hfrag := toFragments_spec e.geo (!h.fromSurvivor) h.residents
    (e.geo.survivorLo (!h.fromSurvivor)) hw.residents fun r hr hin => (hw.residentIn r hr hin).1
  have hhi := e.geo.survivorHi_eq (!h.fromSurvivor)
  have hend : (toFragments e.geo (!h.fromSurvivor) h.residents
      (e.geo.survivorLo (!h.fromSurvivor))).2 ≤ e.geo.survivorHi (!h.fromSurvivor) := by
    exact hfrag.top _ (by omega) fun r hr hin => (hw.residentIn r hr hin).2
  have hheld : ¬ ((toFragments e.geo (!h.fromSurvivor) h.residents
      (e.geo.survivorLo (!h.fromSurvivor))).2 = e.geo.survivorLo (!h.fromSurvivor) ∧
      h.survivorTop (!h.fromSurvivor) ≠ e.geo.survivorLo (!h.fromSurvivor)) := by
    rintro ⟨heq, hne⟩
    refine hne (hw.toTop fun r hr => ?_)
    by_contra hin
    have := hfrag.nonempty ⟨r, hr, by simpa using hin⟩
    omega
  have hlast : ∀ f, f ∈ [(⟨(toFragments e.geo (!h.fromSurvivor) h.residents
      (e.geo.survivorLo (!h.fromSurvivor))).2, e.geo.survivorHi (!h.fromSurvivor)⟩ :
      YoungFragment)] → f.lo = (toFragments e.geo (!h.fromSurvivor) h.residents
        (e.geo.survivorLo (!h.fromSurvivor))).2 ∧ f.hi = e.geo.survivorHi (!h.fromSurvivor) := by
    intro f hf
    rw [mem_singleton.mp hf]
    exact ⟨rfl, rfl⟩
  have hle := hfrag.le
  unfold setupToSpace
  simp only
  rw [if_neg hheld]
  refine ⟨_, _, rfl, ?_, by omega, ?_, ?_, ?_⟩
  · split
    · simp
    · next hcase => exact fun hnil => hcase (.inr (by simp [hnil]))
  · intro f hf
    have hmem : f ∈ (toFragments e.geo (!h.fromSurvivor) h.residents
        (e.geo.survivorLo (!h.fromSurvivor))).1 → _ := hfrag.within f
    split at hf
    · rcases mem_append.mp hf with hf | hf
      · have := hmem hf
        omega
      · have := hlast f hf
        omega
    · have := hmem hf
      omega
  · split
    · refine pairwise_append.mpr ⟨hfrag.ascending, pairwise_singleton _ _, ?_⟩
      intro f hf f' hf'
      have h1 := hfrag.within f hf
      have h2 := hlast f' hf'
      omega
    · exact hfrag.ascending
  · intro r hr hin
    have hbelow := hfrag.below r hr hin
    refine ⟨by omega, fun f hf => ?_⟩
    have hmem : f ∈ (toFragments e.geo (!h.fromSurvivor) h.residents
        (e.geo.survivorLo (!h.fromSurvivor))).1 → _ := hfrag.avoids r hr hin f
    split at hf
    · rcases mem_append.mp hf with hf | hf
      · exact hmem hf
      · have := hlast f hf
        omega
    · exact hmem hf

/-! ## Pinning -/

section Pin

variable {c : Setup A M}
variable {heap : Nat → Option Obj} {pinned : List Nat}

theorem pins_congr {heap' : Nat → Option Obj} (heq : heap a = heap' a) :
    pins c heap a = pins c heap' a := by
  simp only [pins, heq, inFrom]

theorem pinStackObjects_spec (l : List Nat) (hl : l.Nodup) (heap : Nat → Option Obj) :
    (pinStackObjects c l heap).2 = l.filter (pins c heap) ∧
    ∀ a, (pinStackObjects c l heap).1 a =
      if a ∈ l.filter (pins c heap) then (heap a).map Obj.pin else heap a := by
  induction l generalizing heap with
  | nil => exact ⟨rfl, fun a => by simp [pinStackObjects]⟩
  | cons b l ih =>
    obtain ⟨hnotin, hnodup⟩ := nodup_cons.mp hl
    unfold pinStackObjects
    by_cases hpin : pins c heap b = true
    · obtain ⟨hlist, hheap⟩ := ih hnodup (Function.update heap b ((heap b).map Obj.pin))
      have hsame : l.filter (pins c (Function.update heap b ((heap b).map Obj.pin))) =
          l.filter (pins c heap) := by
        apply filter_congr
        intro a ha
        have hne : a ≠ b := fun heq => hnotin (heq ▸ ha)
        exact pins_congr (Function.update_of_ne hne _ _)
      rw [hsame] at hlist hheap
      simp only [hpin, if_true, filter_cons_of_pos]
      refine ⟨by rw [hlist], fun a => ?_⟩
      rw [hheap a]
      by_cases hab : a = b
      · subst hab
        have hout : a ∉ l.filter (pins c heap) := fun hmem => hnotin (mem_filter.mp hmem).1
        rw [if_neg hout, if_pos mem_cons_self, Function.update_self]
      · rw [Function.update_of_ne hab]
        simp only [mem_cons, hab, false_or]
    · obtain ⟨hlist, hheap⟩ := ih hnodup heap
      simp only [hpin, Bool.false_eq_true, if_false, not_false_eq_true, filter_cons_of_neg]
      exact ⟨hlist, hheap⟩

def pinHeap (heap : Nat → Option Obj) (pinned : List Nat) (a : Nat) : Option Obj :=
  if a ∈ pinned then (heap a).map Obj.pin else heap a

theorem pinHeap_some (ho : pinHeap heap pinned a = some o) :
    ∃ o₀, heap a = some o₀ ∧ o.size = o₀.size ∧
      o.layout = o₀.layout ∧ o.hostBits = o₀.hostBits ∧ o.words = o₀.words ∧
      o.forwarded = o₀.forwarded ∧ o.resident = o₀.resident ∧
      (a ∈ pinned ∧ o.pinned = true ∨ a ∉ pinned ∧ o.pinned = o₀.pinned) := by
  unfold pinHeap at ho
  split at ho
  · next hin =>
    obtain ⟨o₀, ho₀, rfl⟩ := Option.map_eq_some_iff.mp ho
    exact ⟨o₀, ho₀, rfl, rfl, rfl, rfl, rfl, rfl, .inl ⟨hin, rfl⟩⟩
  · next hout => exact ⟨o, ho, rfl, rfl, rfl, rfl, rfl, rfl, .inr ⟨hout, rfl⟩⟩

theorem pinHeap_isSome : (pinHeap heap pinned a).isSome = (heap a).isSome := by
  unfold pinHeap
  split
  · exact Option.isSome_map
  · rfl

theorem pinHeap_of_some {o₀ : Obj} (pinned : List Nat) (ho₀ : heap a = some o₀) :
    ∃ o, pinHeap heap pinned a = some o := by
  apply Option.isSome_iff_exists.mp
  rw [pinHeap_isSome, ho₀]
  rfl

theorem sizes_pinHeap : sizes (pinHeap heap pinned) = sizes heap := by
  funext a
  unfold sizes pinHeap
  split
  · cases heap a <;> rfl
  · rfl

theorem inFrom_pinHeap : inFrom c (pinHeap heap pinned) a = inFrom c heap a := by
  apply inFrom_congr
  unfold pinHeap
  split
  · cases heap a <;> rfl
  · rfl

theorem slotsOf_congr {layouts : Nat → Layout} {o' : Obj} (hlayout : o.layout = o'.layout)
    (hsize : o.size = o'.size) (hwords : o.words = o'.words) :
    slotsOf layouts o = slotsOf layouts o' := by
  simp only [slotsOf, Obj.count, hlayout, hsize, hwords]

end Pin

/-! ## The start of an evacuation -/

section Start

variable {stackObjects : List Nat} {span : Nat} {frags : List YoungFragment}

def pinnedOf (e : Env A M) (h : HeapState A M) (span : Nat) (stackObjects : List Nat) : List Nat :=
  stackObjects.filter (pins (e.setup h span) h.heap)

def startHeap (e : Env A M) (h : HeapState A M) (span : Nat) (stackObjects : List Nat) :
    Nat → Option Obj := pinHeap h.heap (pinnedOf e h span stackObjects)

theorem HeapState.Names.pinStackObjects_eq (hn : h.Names stackObjects) :
    pinStackObjects (e.setup h span) stackObjects h.heap =
      (startHeap e h span stackObjects, pinnedOf e h span stackObjects) := by
  obtain ⟨hlist, hheap⟩ := pinStackObjects_spec (c := e.setup h span) stackObjects
    (hn.ascending.imp fun hlt => Nat.ne_of_lt hlt) h.heap
  exact Prod.ext (funext hheap) hlist

theorem mem_pinnedOf (hw : h.WellFormed e) : a ∈ pinnedOf e h span stackObjects ↔
    a ∈ stackObjects ∧ e.geo.isYoung a = true ∧ inFrom (e.setup h span) h.heap a = true ∧
      (h.heap a).isSome = true := by
  unfold pinnedOf pins
  rw [mem_filter, Bool.and_eq_true, Bool.and_eq_true, and_assoc]
  refine and_congr_right fun _ => and_congr_right fun _ => and_congr_right fun _ => ?_
  cases ha : h.heap a with
  | none => simp
  | some o =>
    obtain ⟨hf, hp⟩ := hw.plain a o ha
    simp [hf, hp]

theorem moves_start (hw : h.WellFormed e) :
    Moves (e.setup h span) (startHeap e h span stackObjects) a ↔
      (h.heap a).isSome = true ∧ inFrom (e.setup h span) h.heap a = true ∧
      a ∉ pinnedOf e h span stackObjects := by
  constructor
  · rintro ⟨o, ho, hfrom, hpin⟩
    obtain ⟨o₀, ho₀, _, _, _, _, _, _, ⟨_, htrue⟩ | ⟨hout, _⟩⟩ := pinHeap_some ho
    · rw [hpin] at htrue
      exact absurd htrue (by simp)
    · exact ⟨by rw [ho₀]; rfl, inFrom_pinHeap ▸ hfrom, hout⟩
  · rintro ⟨hsome, hfrom, hout⟩
    obtain ⟨o, ho⟩ := Option.isSome_iff_exists.mp hsome
    refine ⟨o, ?_, inFrom_pinHeap.trans hfrom, (hw.plain a o ho).2⟩
    rw [startHeap, pinHeap, if_neg hout]
    exact ho

theorem HeapState.WellFormed.bounds (hw : h.WellFormed e) (ho : h.heap a = some o) :
    (e.geo.base + kHeaderBytes ≤ a ∧ a + o.size ≤ e.geo.matureLo) ∨
    (e.geo.isOld a = true ∧ e.geo.matureLo + kHeaderBytes ≤ a) := by
  have h1 := hw.edenEnd
  have h2 := hw.survivorTop
  have h3 := e.geo.survivorHi_le h.fromSurvivor
  have h4 := e.geo.survivorHi_le (!h.fromSurvivor)
  have h5 := e.geo.edenHi_le h.fromSurvivor
  have h6 := e.geo.edenHi_le (!h.fromSurvivor)
  have h7 : e.geo.edenHi = e.geo.edenLo + e.geo.edenBytes := rfl
  have h8 : e.geo.edenLo = e.geo.base := rfl
  have h9 := e.geo.survivorHi_eq h.fromSurvivor
  rcases hw.lies a o ho with hl | hl | ⟨hin, _, hmem⟩ | hl
  · exact .inl (by omega)
  · exact .inl (by omega)
  · have := hw.residentIn _ hmem hin
    simp only at this
    exact .inl (by omega)
  · exact .inr hl

theorem HeapState.WellFormed.contains (hw : h.WellFormed e) (ho : h.heap a = some o) :
    e.geo.contains a = true := by
  have h8 : kGranuleBytes = 8 := rfl
  have hsize := (hw.sized a o ho).1
  have h1 := e.geo.matureLo_le_largeLo
  have h2 := e.geo.largeLo_le_heapHi
  rcases hw.bounds ho with hb | ⟨hold, _⟩
  · rw [Geometry.contains_iff]
    omega
  · exact Geometry.contains_iff_or.mpr (.inr hold)

section

variable (hw : h.WellFormed e) (hp : Prepared e h frags span)
include hw hp

theorem HeapState.WellFormed.collected (ho : h.heap a = some o) (hyoung : e.geo.isYoung a = true) :
    inFrom (e.setup h span) h.heap a = true := by
  have hsize := (hw.sized a o ho).1
  have h8 : kGranuleBytes = 8 := rfl
  have hh : kHeaderBytes = 8 := rfl
  rw [inFrom_iff]
  rcases hw.lies a o ho with hl | hl | ⟨hin, hres, hmem⟩ | ⟨hold, _⟩
  · refine .inl ?_
    simp only [Env.setup]
    omega
  · refine .inr (.inl ?_)
    simp only [Env.setup]
    omega
  · refine .inr (.inr ⟨?_, ?_⟩)
    · have h1 := (hp.residents _ hmem hin).1
      have h2 := (hw.residentIn _ hmem hin).1
      simp only [Env.setup] at h1 h2 ⊢
      omega
    · rw [ho]
      exact hres
  · rw [Geometry.not_young_of_old hold] at hyoung
    exact absurd hyoung (by simp)

theorem base_start : Base (e.setup h span) (startHeap e h span stackObjects) h.roots where
  lawful := hw.lawful
  closed := by
    intro a o ho i hi hrefers
    obtain ⟨o₀, ho₀, hsize, hlayout, _, hwords, _⟩ := pinHeap_some ho
    rw [slotsOf_congr hlayout hsize hwords] at hi
    rw [hwords] at hrefers ⊢
    exact pinHeap_isSome.trans (hw.closed a o₀ ho₀ i hi hrefers)
  rootsClosed := by
    intro r hr hrefers
    exact pinHeap_isSome.trans (hw.rootsClosed r hr hrefers)
  sized := by
    intro a o ho
    obtain ⟨o₀, ho₀, hsize, _⟩ := pinHeap_some ho
    rw [hsize]
    exact hw.sized a o₀ ho₀
  unforwarded := by
    intro a o ho
    obtain ⟨o₀, ho₀, _, _, _, _, hfwd, _⟩ := pinHeap_some ho
    rw [hfwd]
    exact (hw.plain a o₀ ho₀).1
  inHeap := by
    intro a o ho
    obtain ⟨o₀, ho₀, _⟩ := pinHeap_some ho
    exact hw.contains ho₀
  collected := by
    intro a o ho hyoung
    obtain ⟨o₀, ho₀, _⟩ := pinHeap_some ho
    exact inFrom_pinHeap.trans (hw.collected hp ho₀ hyoung)
  youngEnd := by
    intro a o ho hyoung
    obtain ⟨o₀, ho₀, hsize, _⟩ := pinHeap_some ho
    rw [hsize]
    rcases hw.bounds ho₀ with hb | ⟨hold, _⟩
    · exact hb.2
    · have : e.geo.isYoung a = true := hyoung
      rw [Geometry.not_young_of_old hold] at this
      exact absurd this (by simp)
  edenTop := hw.edenEnd
  fromTop := hw.survivorTop
  span := hp.spanLe

theorem HeapState.WellFormed.avoids {f : YoungFragment} (hf : f ∈ frags) : Avoids h.heap f := by
  intro x o ho
  have hh : kHeaderBytes = 8 := rfl
  obtain ⟨hlo, hhi, _⟩ := hp.within f hf
  have h1 := hw.edenEnd
  have h2 := hw.survivorTop
  have h3 := e.geo.edenHi_le (!h.fromSurvivor)
  have h4 := e.geo.survivors_apart h.fromSurvivor
  have h5 := e.geo.survivorHi_le (!h.fromSurvivor)
  rcases hw.lies x o ho with hl | hl | ⟨hin, _, hmem⟩ | hl
  · exact .inl (by omega)
  · rcases h4 with h4 | h4
    · exact .inl (by omega)
    · exact .inr (by omega)
  · exact (hp.residents _ hmem hin).2 f hf
  · exact .inr (by omega)

end

/-- The slots that an evacuation starts from: the roots, and those that lie behind a dirty
card. -/
def startSlots (e : Env A M) (h : HeapState A M) (u : Slot) : Prop :=
  (∃ k, u = .root k) ∨ ∃ x j o, u = .field x j ∧ e.geo.isOld x = true ∧ h.heap x = some o ∧
    Behind e.geo h.cards h.regions o.size x j

/-- The slots behind a dirty card, whose referents a marking cycle has shaded. -/
def rescanned (e : Env A M) (h : HeapState A M) (x j : Nat) : Prop :=
  ∃ o, h.heap x = some o ∧ Behind e.geo h.cards h.regions o.size x j

theorem not_forwards_start (hw : h.WellFormed e) (a x : Nat) :
    ¬ Forwards (startHeap e h span stackObjects) a x := by
  rintro ⟨o, ho, hfwd, _⟩
  obtain ⟨o₀, ho₀, _, _, _, _, heq, _⟩ := pinHeap_some ho
  rw [heq, (hw.plain a o₀ ho₀).1] at hfwd
  exact absurd hfwd (by simp)

theorem shape_start (hw : h.WellFormed e) (hp : Prepared e h frags span) :
    Shape (e.setup h span) (startHeap e h span stackObjects) h.roots
      (startState h (e.geo.survivorLo (!h.fromSurvivor)) frags
        (startHeap e h span stackObjects) (pinnedOf e h span stackObjects)) := by
  have hno : ∀ {a x : Nat}, ¬ Forwards (startHeap e h span stackObjects) a x :=
    not_forwards_start hw _ _
  refine
    { placed := ?_, flags := ?_, left := ?_, domain := ?_, copy := ?_, injective := ?_
      promoted := ?_, inHeap := ?_, apart := ?_, toSpace := ?_, fits := ?_, gray := ?_, roots := ?_ }
  · intro a x o ho hplace
    cases hplace with
    | stays _ _ =>
      exact ⟨o, ho,
        { size := rfl, layout := rfl, hostBits := rfl
          forwarded := (base_start hw hp).unforwarded a o ho
          slots := fun _ _ => .inl rfl, other := fun _ _ => rfl }⟩
    | moved _ hf => exact absurd hf hno
  · intro a o ho _
    exact ⟨o, ho, rfl, rfl⟩
  · intro a o ho _
    exact .inl ho
  · intro x o ho
    exact .inl (by rw [show startHeap e h span stackObjects x = some o from ho]; rfl)
  · intro a x _ hf
    exact absurd hf hno
  · intro a a' x _ _ hf
    exact absurd hf hno
  · intro a x _ hf
    exact absurd hf hno
  · exact (base_start hw hp).inHeap
  · intro x y o o' ho ho' hne
    obtain ⟨o₀, ho₀, hsize, _⟩ := pinHeap_some ho
    obtain ⟨o₁, ho₁, hsize', _⟩ := pinHeap_some ho'
    rw [hsize, hsize']
    exact hw.apart x y o₀ o₁ ho₀ ho₁ hne
  · obtain ⟨f, rest, rfl⟩ := exists_cons_of_ne_nil hp.nonempty
    refine { avoids := ?_, within := hp.within, ascending := hp.ascending, copied := ?_, bounds := ?_ }
    · intro f' hf' x o ho
      obtain ⟨o₀, ho₀, hsize, _⟩ := pinHeap_some ho
      rw [hsize]
      exact hw.avoids hp hf' x o₀ ho₀
    · exact fun f' hf' => (hp.within f' hf').1
    · exact ⟨Nat.le_refl _, Nat.le_add_right _ _⟩
  · exact e.space.fits_congr hw.fits fun a _ => congrFun sizes_pinHeap a
  · intro x hx
    have hx' := mem_reverse.mp hx
    obtain ⟨_, _, _, hsome⟩ := (mem_pinnedOf hw).mp hx'
    exact ⟨x, .stays (pinHeap_isSome.trans hsome) fun hm => ((moves_start hw).mp hm).2.2 hx'⟩
  · exact forall₂_same.mpr fun r _ => ⟨rfl, .inl rfl⟩

theorem stays_start (hw : h.WellFormed e) (hp : Prepared e h frags span) {x : Nat}
    (ho : h.heap x = some o)
    (hstays : ¬ Moves (e.setup h span) (startHeap e h span stackObjects) x) :
    e.geo.isOld x = true ∨ x ∈ pinnedOf e h span stackObjects := by
  rcases Geometry.contains_iff_or.mp (hw.contains ho) with hyoung | hold
  · refine .inr ?_
    by_contra hout
    exact hstays ((moves_start hw).mpr ⟨by rw [ho]; rfl, hw.collected hp ho hyoung, hout⟩)
  · exact .inl hold

theorem inv_start (hw : h.WellFormed e) (hr : h.Remembers e) (hp : Prepared e h frags span) :
    Inv (e.setup h span) (startHeap e h span stackObjects) h.roots (rescanned e h) (startSlots e h)
      (startState h (e.geo.survivorLo (!h.fromSurvivor)) frags
        (startHeap e h span stackObjects) (pinnedOf e h span stackObjects)) := by
  refine
    { toShape := shape_start hw hp
      toCardsOk := ⟨hw.cardRegion, fun a ha hcard head hhead => ?_⟩, slots := ?_ }
  · exact pinHeap_isSome.trans (hw.cardLive a ha hcard head hhead)
  intro u hu
  cases u with
  | root k => exact .inr (.inr (.inl ⟨k, rfl⟩))
  | local_ w => exact hu.elim
  | field x i =>
    obtain ⟨a, o, hplace, ho, hi⟩ := hu
    obtain ⟨hsome, hstays⟩ : a = x ∧ ¬ Moves (e.setup h span) (startHeap e h span stackObjects) x := by
      cases hplace with
      | stays _ hstays => exact ⟨rfl, hstays⟩
      | moved _ hf => exact absurd hf (not_forwards_start hw _ _)
    obtain ⟨o₀, ho₀, hsize, hlayout, _, hwords, _⟩ := pinHeap_some ho
    rcases stays_start hw hp ho₀ hstays with hold | hpin
    · by_cases hbehind : Behind e.geo h.cards h.regions o₀.size x i
      · exact .inr (.inr (.inr ⟨x, i, o₀, rfl, hold, ho₀, hbehind⟩))
      · -- What the slot names is old: it stays, and need not be remembered.
        have hread : readSlot (e.setup h span) (startState h (e.geo.survivorLo (!h.fromSurvivor))
            frags (startHeap e h span stackObjects) (pinnedOf e h span stackObjects))
            (.field x i) = o₀.words i := by
          have heq : startHeap e h span stackObjects x = some o := ho
          simp only [readSlot, startState, heq, Option.map_some, Option.getD_some, hwords]
        rw [show slotsOf (e.setup h span).layouts o = slotsOf e.layouts o₀ from
          slotsOf_congr hlayout hsize hwords] at hi
        have hnotYoung : e.geo.refers (o₀.words i) = true →
            e.geo.isYoung (addressOf (o₀.words i)) = false := by
          intro hrefers
          by_contra hyoung
          exact hbehind (hr x o₀ i ho₀ hold hi hrefers (by simpa using hyoung))
        refine .inl { target := ?_, remembered := ?_, shaded := ?_ }
        · rw [hread]
          intro hrefers hm
          have hyoung : e.geo.isYoung (addressOf (o₀.words i)) = true :=
            hm.young (base_start hw hp)
          rw [hnotYoung hrefers] at hyoung
          exact absurd hyoung (by simp)
        · rw [hread]
          intro x' i' o' _ _ _ hrefers hyoung
          have hyoung' : e.geo.isYoung (addressOf (o₀.words i)) = true := hyoung
          rw [hnotYoung hrefers] at hyoung'
          exact absurd hyoung' (by simp)
        · rintro x' i' heq _ ⟨o', ho', hb⟩
          obtain ⟨rfl, rfl⟩ := Slot.field.inj heq
          obtain rfl := Option.some.inj (ho₀.symm.trans ho')
          exact absurd hb hbehind
    · exact .inr (.inl ⟨x, mem_reverse.mpr hpin, rfl⟩)

/-! ## The evacuation -/

/-- An evacuation visits every slot that it has to, and shades nothing but old objects. -/
theorem evacuate_spec (hw : h.WellFormed e) (hr : h.Remembers e) (hn : h.Names stackObjects)
    (hp : Prepared e h frags span) :
    Ends (evacuate (e.setup h span) stackObjects
        (startState h (e.geo.survivorLo (!h.fromSurvivor)) frags
          (startHeap e h span stackObjects) (pinnedOf e h span stackObjects))) fun s' =>
      Inv (e.setup h span) (startHeap e h span stackObjects) h.roots (rescanned e h)
        (fun _ => False) s' ∧ s'.gray = [] ∧
      Shades (e.setup h span) s'.heap h.marks s'.marks := by
  have hb : Base (e.setup h span) (startHeap e h span stackObjects) h.roots := base_start hw hp
  have hstart : Inv (e.setup h span) (startHeap e h span stackObjects) h.roots (rescanned e h)
      (startSlots e h) _ := inv_start hw hr hp
  unfold evacuate visitRoots
  have hroots := visitSlots_spec hb ((range (startState h
      (e.geo.survivorLo (!h.fromSurvivor)) frags (startHeap e h span stackObjects)
      (pinnedOf e h span stackObjects)).roots.length).map .root ++
    stackObjects.map fun a =>
      .local_ (retarget ((e.setup h span).geo.rawTag * 2 ^ kTagShift) a)) hstart (by
    intro slot hslot
    rcases mem_append.mp hslot with hslot | hslot
    · obtain ⟨k, hk, rfl⟩ := mem_map.mp hslot
      exact .inl ⟨k, rfl, mem_range.mp hk⟩
    · obtain ⟨a, ha, rfl⟩ := mem_map.mp hslot
      obtain ⟨o, ho⟩ := Option.isSome_iff_exists.mp (hn.objects a ha)
      refine .inr ⟨_, rfl, ?_⟩
      rw [addressOf_retarget (Geometry.lt_of_contains (hw.contains ho))]
      refine ⟨pinHeap_isSome.trans (hn.objects a ha), fun hm => ?_⟩
      obtain ⟨hsome, hfrom, hout⟩ := (moves_start hw).mp hm
      exact hout ((mem_pinnedOf hw).mpr ⟨ha, hm.young hb, hfrom, hsome⟩))
  revert hroots
  cases visitSlots (e.setup h span) _ _ with
  | error f => exact id
  | ok s₁ =>
    rintro ⟨hinv, hg⟩
    have hcards := scanDirtyCards_spec (W := fun _ => False) hb (s := s₁) (hinv.restrict (by
      rintro u hlive ⟨⟨k, rfl⟩ | ⟨x, j, o, rfl, hold, ho, hbehind⟩, hnot⟩
      · have hk : k < s₁.roots.length := hlive
        rw [← hinv.roots.length_eq] at hk
        exact absurd rfl (hnot (.root k)
          (mem_append_left _ (mem_map.mpr ⟨k, mem_range.mpr hk, rfl⟩)))
      · obtain ⟨o', ho'⟩ := pinHeap_of_some (pinnedOf e h span stackObjects) ho
        obtain ⟨o₀, ho₀, hsize, _⟩ := pinHeap_some ho'
        obtain rfl := Option.some.inj (ho.symm.trans ho₀)
        obtain ⟨o₁, ho₁, hsize₁, _⟩ := hg.kept x o' ho'
        refine .inr ⟨x, j, o₁, rfl, hold, ho₁, ?_⟩
        rw [hsize₁, hsize]
        exact hg.behind hbehind))
    simp only
    revert hcards
    cases scanDirtyCards (e.setup h span) s₁ with
    | error f => exact id
    | ok s₂ =>
      rintro ⟨hinv₂, hkeeps⟩
      refine (drain_spec hb _ hinv₂ ?_).mono fun s' hs' =>
        ⟨hs'.1, hs'.2.2, ((hg.toKeeps.trans hkeeps).trans hs'.2.1.toKeeps).shaded⟩
      unfold potential drainFuel
      have hcount := countP_le_length (p := unforwarded s₂.heap)
        (l := fromAddresses (e.setup h span))
      simp only [fromAddresses, length_append, length_range'] at hcount ⊢
      omega

end Start

end Brass.Gc.Heap
