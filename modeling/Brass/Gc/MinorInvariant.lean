import Brass.Gc.MinorCollect
import Mathlib.Tactic

/-!
# The invariant of an evacuation

Everything is said against the heap `H` as the evacuation starts, with the stacks' objects
pinned. An object of `H` that is collected and not pinned `Moves`: it is left as it was, or
forwarded to its one copy. Each other object stays. The slots that matter are those of the
objects at their present places and the roots, and each of them is settled, or belongs to
an object that is still grey, or is in a set `W` of slots whose visit is under way.
-/

namespace Brass.Gc.Heap

variable {A M : Type}

def Geometry.refers (g : Geometry) (w : Nat) : Bool :=
  g.isReferenceTag w && g.contains (addressOf w)

/-- Collected and not pinned. -/
def Moves (c : Setup A M) (H : Nat → Option Obj) (a : Nat) : Prop :=
  ∃ o, H a = some o ∧ inFrom c H a = true ∧ o.pinned = false

def Forwards (heap : Nat → Option Obj) (a b : Nat) : Prop :=
  ∃ o, heap a = some o ∧ o.forwarded = true ∧ o.words 0 = b

inductive Place (c : Setup A M) (H heap : Nat → Option Obj) : Nat → Nat → Prop where
  | stays {a : Nat} (hsome : (H a).isSome = true) (hstays : ¬ Moves c H a) : Place c H heap a a
  | moved {a x : Nat} (hmoves : Moves c H a) (hforwards : Forwards heap a x) :
      Place c H heap a x

/-- A word as the evacuation started and now: the same, or redirected to the copy. -/
def MovedWord (c : Setup A M) (H heap : Nat → Option Obj) (w w' : Nat) : Prop :=
  w' = w ∨ (c.geo.refers w = true ∧ Moves c H (addressOf w) ∧
    ∃ b, Forwards heap (addressOf w) b ∧ w' = retarget w b)

/-- An object as the evacuation started and at its present place. -/
structure Rewrites (c : Setup A M) (H heap : Nat → Option Obj) (o o' : Obj) : Prop where
  size : o'.size = o.size
  layout : o'.layout = o.layout
  hostBits : o'.hostBits = o.hostBits
  forwarded : o'.forwarded = false
  slots : ∀ i ∈ slotsOf c.layouts o, MovedWord c H heap (o.words i) (o'.words i)
  other : ∀ i, i ∉ slotsOf c.layouts o → o'.words i = o.words i

/-- Whether the card behind which slot `i` of the old object `x` is rescanned is dirty, with
its region's byte set. -/
def Behind (g : Geometry) (cards : Nat → Card) (regions : Nat → Bool) (size x i : Nat) : Prop :=
  (cards (g.cardOf x) = .dirty ∧ regions (g.regionOf x) = true) ∨
  (g.inLarge x = true ∧ kGranuleBytes * i < size ∧
    cards (g.cardOf (x + kGranuleBytes * i)) ≠ .clean ∧
    regions (g.regionOf (x + kGranuleBytes * i)) = true)

def sizes (heap : Nat → Option Obj) (a : Nat) : Option Nat := (heap a).map (·.size)

/-- What holds of the heap as the evacuation starts. -/
structure Base (c : Setup A M) (H : Nat → Option Obj) (R : List Root) : Prop where
  lawful : ∀ id, (c.layouts id).Lawful c.geo
  closed : ∀ a o, H a = some o → ∀ i ∈ slotsOf c.layouts o, c.geo.refers (o.words i) = true →
    (H (addressOf (o.words i))).isSome = true
  rootsClosed : ∀ r ∈ R, c.geo.refers (r.word c.geo) = true →
    (H (addressOf (r.word c.geo))).isSome = true
  sized : ∀ a o, H a = some o → kGranuleBytes ≤ o.size ∧ o.size % kGranuleBytes = 0
  unforwarded : ∀ a o, H a = some o → o.forwarded = false
  inHeap : ∀ a o, H a = some o → c.geo.contains a = true
  collected : ∀ a o, H a = some o → c.geo.isYoung a = true → inFrom c H a = true
  youngEnd : ∀ a o, H a = some o → c.geo.isYoung a = true → a + o.size ≤ c.geo.matureLo
  edenTop : c.edenTop ≤ c.geo.edenHi
  fromTop : c.fromTop ≤ c.geo.survivorHi c.fromSpace
  span : c.toResidentSpan ≤ c.geo.survivorBytes

/-- What is true of a slot that has been visited, or needs no visit. -/
structure Settled (c : Setup A M) (H : Nat → Option Obj) (want : Nat → Nat → Prop)
    (s : State A M) (slot : Slot) : Prop where
  target : c.geo.refers (readSlot c s slot) = true → ¬ Moves c H (addressOf (readSlot c s slot))
  remembered : ∀ x i o, slot = .field x i → s.heap x = some o → c.geo.isOld x = true →
    c.geo.refers (readSlot c s slot) = true →
    c.geo.isYoung (addressOf (readSlot c s slot)) = true →
    Behind c.geo s.cards s.regions o.size x i
  shaded : ∀ x i, slot = .field x i → c.shade = true → want x i → c.geo.isOld x = true →
    c.geo.refers (readSlot c s slot) = true →
    c.geo.isYoung (addressOf (readSlot c s slot)) = false →
    c.marker.Marked s.marks (addressOf (readSlot c s slot))

/-- The slots of the objects at their present places, and the roots. -/
def Live (c : Setup A M) (H : Nat → Option Obj) (s : State A M) : Slot → Prop
  | .root k => k < s.roots.length
  | .field x i => ∃ a o, Place c H s.heap a x ∧ s.heap x = some o ∧ i ∈ slotsOf c.layouts o
  | .local_ _ => False

def Slot.OwnedBy (x : Nat) : Slot → Prop
  | .field y _ => y = x
  | _ => False

def Root.isRaw : Root → Bool
  | .slot _ => false
  | .address _ => true

/-- A root as the evacuation started and now. -/
def MovedRoot (c : Setup A M) (H heap : Nat → Option Obj) (r r' : Root) : Prop :=
  r'.isRaw = r.isRaw ∧ MovedWord c H heap (r.word c.geo) (r'.word c.geo)

/-- Whether the bytes of a free range are those of no object. -/
def Avoids (heap : Nat → Option Obj) (f : YoungFragment) : Prop :=
  ∀ x o, heap x = some o → x + o.size ≤ f.lo ∨ f.hi + kHeaderBytes ≤ x

/-- The free part of the to-space: ascending ranges that no object touches, above the copies
made so far. -/
structure ToSpace (c : Setup A M) (heap : Nat → Option Obj) (frags : List YoungFragment)
    (copiedHi : Nat) : Prop where
  avoids : ∀ f ∈ frags, Avoids heap f
  within : ∀ f ∈ frags, c.geo.survivorLo (!c.fromSpace) ≤ f.lo ∧
    f.hi ≤ c.geo.survivorHi (!c.fromSpace) ∧ f.lo ≤ f.hi
  ascending : frags.Pairwise fun f f' => f.hi ≤ f'.lo
  copied : ∀ f ∈ frags, copiedHi ≤ f.lo
  bounds : c.geo.survivorLo (!c.fromSpace) ≤ copiedHi ∧ copiedHi ≤ c.geo.survivorHi (!c.fromSpace)

/-- Where the objects are: what holds between the steps of an evacuation whatever slots have
been visited. -/
structure Shape (c : Setup A M) (H : Nat → Option Obj) (R : List Root) (s : State A M) :
    Prop where
  placed : ∀ a x o, H a = some o → Place c H s.heap a x →
    ∃ o', s.heap x = some o' ∧ Rewrites c H s.heap o o'
  flags : ∀ a o, H a = some o → ¬ Moves c H a → ∃ o', s.heap a = some o' ∧
    o'.pinned = o.pinned ∧ o'.resident = o.resident
  left : ∀ a o, H a = some o → Moves c H a → s.heap a = some o ∨
    ∃ b, s.heap a = some (o.forwardedTo b)
  domain : ∀ x o, s.heap x = some o → (H x).isSome = true ∨
    ∃ a, Moves c H a ∧ Forwards s.heap a x
  copy : ∀ a x, Moves c H a → Forwards s.heap a x → H x = none ∧
    ∃ o, s.heap x = some o ∧ o.pinned = false ∧ o.resident = false ∧
      ((c.geo.isOld x = true ∧ c.geo.matureLo + kHeaderBytes ≤ x) ∨
        (c.geo.survivorLo (!c.fromSpace) + kHeaderBytes ≤ x ∧ x + o.size ≤ s.toCopiedHi))
  injective : ∀ a a' x, Moves c H a → Moves c H a' → Forwards s.heap a x →
    Forwards s.heap a' x → a = a'
  promoted : ∀ a x, Moves c H a → Forwards s.heap a x → c.shade = true →
    c.geo.isOld x = true → c.marker.Marked s.marks x
  inHeap : ∀ x o, s.heap x = some o → c.geo.contains x = true
  apart : ∀ x y o o', s.heap x = some o → s.heap y = some o' → x ≠ y → Apart x o.size y o'.size
  toSpace : ToSpace c s.heap (⟨s.toCursor, s.toLimit⟩ :: s.toFrags) s.toCopiedHi
  fits : c.space.Fits s.old (sizes s.heap)
  gray : ∀ x ∈ s.gray, ∃ a, Place c H s.heap a x
  roots : List.Forall₂ (MovedRoot c H s.heap) R s.roots

/-- The large objects' cards: a dirty one has its region's byte set, and one that is not
clean is no card of a dead object. -/
structure CardsOk (c : Setup A M) (s : State A M) : Prop where
  region : ∀ a, c.geo.inLarge a = true → s.cards (c.geo.cardOf a) = .dirty →
    s.regions (c.geo.regionOf a) = true
  live : ∀ a, c.geo.inLarge a = true → s.cards (c.geo.cardOf a) ≠ .clean → ∀ head,
    c.space.pageHead s.old ((a - c.geo.largeLo) / kPageBytes) = some head →
    (s.heap (c.geo.largeObjectAt head)).isSome = true

/-- What holds between the steps of an evacuation, but for the slots of `W`. -/
structure Inv (c : Setup A M) (H : Nat → Option Obj) (R : List Root)
    (want : Nat → Nat → Prop) (W : Slot → Prop) (s : State A M) : Prop
    extends Shape c H R s, CardsOk c s where
  slots : ∀ slot, Live c H s slot → Settled c H want s slot ∨
    (∃ x ∈ s.gray, slot.OwnedBy x) ∨ W slot

/-! ## The spaces -/

namespace Geometry

variable {g : Geometry} {a : Nat}

theorem base_le_matureLo : g.base ≤ g.matureLo := by
  unfold matureLo
  omega

theorem matureLo_le_largeLo : g.matureLo ≤ g.largeLo := Nat.le_add_right _ _

theorem largeLo_le_heapHi : g.largeLo ≤ g.heapHi := Nat.le_add_right _ _

theorem heapHi_le : g.heapHi ≤ 2 ^ kTagShift := by
  have := g.addressable
  rw [Nat.add_mul] at this
  unfold heapHi largeLo matureLo
  omega

theorem isYoung_iff : g.isYoung a = true ↔ g.base ≤ a ∧ a < g.matureLo := decide_eq_true_iff

theorem isOld_iff : g.isOld a = true ↔ g.matureLo ≤ a ∧ a < g.heapHi := decide_eq_true_iff

theorem inLarge_iff : g.inLarge a = true ↔ g.largeLo ≤ a ∧ a < g.heapHi := decide_eq_true_iff

theorem inEden_iff : g.inEden a = true ↔ g.edenLo ≤ a ∧ a < g.edenHi := decide_eq_true_iff

theorem inSurvivor_iff {which : Bool} : g.inSurvivor which a = true ↔
    g.survivorLo which ≤ a ∧ a < g.survivorHi which := decide_eq_true_iff

theorem contains_iff : g.contains a = true ↔ g.base ≤ a ∧ a < g.heapHi := decide_eq_true_iff

theorem contains_iff_or : g.contains a = true ↔ g.isYoung a = true ∨ g.isOld a = true := by
  have h1 := g.base_le_matureLo
  have h2 := g.matureLo_le_largeLo
  have h3 := g.largeLo_le_heapHi
  rw [contains_iff, isYoung_iff, isOld_iff]
  omega

theorem not_young_of_old (h : g.isOld a = true) : g.isYoung a = false := by
  rw [Bool.eq_false_iff, Ne, isYoung_iff]
  rw [isOld_iff] at h
  omega

theorem lt_of_contains (h : g.contains a = true) : a < 2 ^ kTagShift :=
  Nat.lt_of_lt_of_le (contains_iff.mp h).2 heapHi_le

theorem survivorHi_le (which : Bool) : g.survivorHi which ≤ g.matureLo := by
  unfold survivorHi survivorLo edenHi matureLo
  split <;> omega

theorem edenHi_le (which : Bool) : g.edenHi ≤ g.survivorLo which := Nat.le_add_right _ _

theorem survivorHi_eq (which : Bool) :
    g.survivorHi which = g.survivorLo which + g.survivorBytes := rfl

theorem survivors_apart (which : Bool) : g.survivorHi which ≤ g.survivorLo (!which) ∨
    g.survivorHi (!which) ≤ g.survivorLo which := by
  cases which <;> simp [survivorHi, survivorLo]

end Geometry

section Basic

variable {c : Setup A M} {H : Nat → Option Obj} {R : List Root} {want : Nat → Nat → Prop}
  {W : Slot → Prop} {s s' : State A M}

theorem inFrom_iff {heap : Nat → Option Obj} {a : Nat} : inFrom c heap a = true ↔
    (c.geo.edenLo ≤ a ∧ a < c.edenTop) ∨
    (c.geo.survivorLo c.fromSpace ≤ a ∧ a < c.fromTop) ∨
    ((c.geo.survivorLo (!c.fromSpace) ≤ a ∧
      a < c.geo.survivorLo (!c.fromSpace) + c.toResidentSpan) ∧
      (heap a).any (·.resident) = true) := by
  simp only [inFrom, Bool.or_eq_true, Bool.and_eq_true, decide_eq_true_eq, or_assoc]

theorem inFrom_young (hb : Base c H R) {heap : Nat → Option Obj} {a : Nat}
    (h : inFrom c heap a = true) : c.geo.isYoung a = true := by
  have h1 := hb.edenTop
  have h2 := hb.fromTop
  have h3 := hb.span
  have h4 := c.geo.survivorHi_le c.fromSpace
  have h5 := c.geo.survivorHi_le (!c.fromSpace)
  have h6 := c.geo.edenHi_le c.fromSpace
  have h7 := c.geo.edenHi_le (!c.fromSpace)
  have h8 : c.geo.edenHi = c.geo.edenLo + c.geo.edenBytes := rfl
  have h9 : c.geo.edenLo = c.geo.base := rfl
  have h10 := c.geo.survivorHi_eq (!c.fromSpace)
  rw [inFrom_iff] at h
  rw [Geometry.isYoung_iff]
  omega

theorem Moves.young (hb : Base c H R) {a : Nat} (h : Moves c H a) : c.geo.isYoung a = true := by
  obtain ⟨o, _, hfrom, _⟩ := h
  exact inFrom_young hb hfrom

theorem inFrom_congr {heap heap' : Nat → Option Obj} {a : Nat}
    (h : (heap a).any (·.resident) = (heap' a).any (·.resident)) :
    inFrom c heap a = inFrom c heap' a := by
  simp only [inFrom, h]

theorem Root.word_set {g : Geometry} (r : Root) {a : Nat} (h : a < 2 ^ kTagShift) :
    (r.set (retarget (r.word g) a)).word g = retarget (r.word g) a := by
  cases r with
  | slot w => rfl
  | address b =>
    have hb : addressOf b < 2 ^ kTagShift := Nat.mod_lt _ (Nat.two_pow_pos _)
    have ha : addressOf a = a := Nat.mod_eq_of_lt h
    simp only [Root.set, Root.word]
    rw [addressOf_retarget h, ha, retarget, retarget, tagOf_retarget hb]

theorem MovedWord.redirected {heap : Nat → Option Obj} {w w' : Nat}
    (hin : ∀ a b, Moves c H a → Forwards heap a b → c.geo.contains b = true)
    (h : MovedWord c H heap w w') : Redirected c.geo w w' := by
  rcases h with rfl | ⟨hrefers, hmoves, b, hb, rfl⟩
  · exact .inl rfl
  · have hbin := hin _ _ hmoves hb
    have hlt := Geometry.lt_of_contains hbin
    refine .inr ⟨tagOf_retarget hlt, (Bool.and_eq_true _ _ ▸ hrefers).2, ?_⟩
    rw [addressOf_retarget hlt]
    exact hbin

theorem Rewrites.slotsOf_eq {heap : Nat → Option Obj} {o o' : Obj} (hb : Base c H R)
    (hin : ∀ a b, Moves c H a → Forwards heap a b → c.geo.contains b = true)
    (h : Rewrites c H heap o o') : slotsOf c.layouts o' = slotsOf c.layouts o := by
  have hslots := h.slots
  have hother := h.other
  unfold slotsOf Obj.count at *
  rw [h.layout, h.size]
  cases hl : c.layouts o.layout with
  | leaf => rfl
  | mask bits => rfl
  | words => rfl
  | custom trace range =>
    simp only [hl] at hslots hother ⊢
    refine (hb.lawful o.layout).stable trace range hl _ _ _ hother ?_
    intro i hi
    exact (hslots i hi).redirected hin

namespace Shape

variable (h : Shape c H R s)

include h

theorem forward_some {a x : Nat} (hm : Moves c H a) (hf : Forwards s.heap a x) :
    (s.heap x).isSome = true := by
  obtain ⟨_, o, ho, _⟩ := h.copy a x hm hf
  rw [ho]
  rfl

theorem forward_contains (a x : Nat) (hm : Moves c H a) (hf : Forwards s.heap a x) :
    c.geo.contains x = true := by
  obtain ⟨_, o, ho, _⟩ := h.copy a x hm hf
  exact h.inHeap x o ho

theorem place_some {a x : Nat} (hp : Place c H s.heap a x) : ∃ o o', H a = some o ∧
    s.heap x = some o' ∧ Rewrites c H s.heap o o' := by
  have hsome : (H a).isSome = true := by
    cases hp with
    | stays hsome _ => exact hsome
    | moved hm _ =>
      obtain ⟨o, ho, _⟩ := hm
      rw [ho]
      rfl
  obtain ⟨o, ho⟩ := Option.isSome_iff_exists.mp hsome
  obtain ⟨o', ho', hr⟩ := h.placed a x o ho hp
  exact ⟨o, o', ho, ho', hr⟩

theorem live_field (hb : Base c H R) {x i : Nat} (hl : Live c H s (.field x i)) :
    ∃ a o o', Place c H s.heap a x ∧ H a = some o ∧ s.heap x = some o' ∧
      Rewrites c H s.heap o o' ∧ i ∈ slotsOf c.layouts o ∧ slotsOf c.layouts o' = slotsOf c.layouts o := by
  obtain ⟨a, o', hp, ho', hi⟩ := hl
  obtain ⟨o, o'', ho, ho'', hr⟩ := h.place_some hp
  obtain rfl := Option.some.inj (ho'.symm.trans ho'')
  have heq := hr.slotsOf_eq hb h.forward_contains
  exact ⟨a, o, o', hp, ho, ho', hr, heq ▸ hi, heq⟩

/-- What a live slot held as the evacuation started. -/
theorem word_origin (hb : Base c H R) {slot : Slot} (hl : Live c H s slot) :
    ∃ w, MovedWord c H s.heap w (readSlot c s slot) ∧
      (c.geo.refers w = true → (H (addressOf w)).isSome = true) := by
  cases slot with
  | root k =>
    have hk : k < s.roots.length := hl
    have hlen := h.roots.length_eq
    have hrel := h.roots.get (by omega : k < R.length) hk
    have hread : readSlot c s (.root k) = (s.roots[k]).word c.geo := by
      simp [readSlot, hk]
    simp only [List.get_eq_getElem] at hrel
    refine ⟨(R[k]).word c.geo, ?_, hb.rootsClosed _ (List.getElem_mem _)⟩
    rw [hread]
    exact hrel.2
  | field x i =>
    obtain ⟨a, o, o', _, ho, ho', hr, hi, _⟩ := h.live_field hb hl
    refine ⟨o.words i, ?_, hb.closed a o ho i hi⟩
    have hread : readSlot c s (.field x i) = o'.words i := by simp [readSlot, ho']
    rw [hread]
    exact hr.slots i hi
  | local_ w => exact hl.elim

theorem start_some {a : Nat} (hsome : (H a).isSome = true) : (s.heap a).isSome = true := by
  obtain ⟨o, ho⟩ := Option.isSome_iff_exists.mp hsome
  by_cases hm : Moves c H a
  · rcases h.left a o ho hm with hs | ⟨b, hs⟩ <;> rw [hs] <;> rfl
  · obtain ⟨o', ho', _⟩ := h.flags a o ho hm
    rw [ho']
    rfl

theorem target_some (hb : Base c H R) {slot : Slot} (hl : Live c H s slot)
    (hrefers : c.geo.refers (readSlot c s slot) = true) :
    (s.heap (addressOf (readSlot c s slot))).isSome = true := by
  obtain ⟨w, hmoved, hclosed⟩ := h.word_origin hb hl
  rcases hmoved with heq | ⟨_, hm, b, hf, heq⟩
  · rw [heq] at hrefers ⊢
    exact h.start_some (hclosed hrefers)
  · rw [heq, addressOf_retarget (Geometry.lt_of_contains (h.forward_contains _ _ hm hf))]
    exact h.forward_some hm hf

theorem start_resident {a : Nat} {o : Obj} (ho : H a = some o) :
    (s.heap a).any (·.resident) = o.resident := by
  by_cases hm : Moves c H a
  · rcases h.left a o ho hm with hs | ⟨b, hs⟩ <;> rw [hs] <;> rfl
  · obtain ⟨o', ho', _, hres⟩ := h.flags a o ho hm
    rw [ho']
    exact hres

theorem inFrom_eq (hb : Base c H R) {a : Nat} (hsome : (s.heap a).isSome = true) :
    inFrom c s.heap a = true ↔ (H a).isSome = true ∧ inFrom c H a = true := by
  cases hH : H a with
  | some o =>
    have heq : inFrom c s.heap a = inFrom c H a := by
      apply inFrom_congr
      rw [h.start_resident hH, hH]
      rfl
    simp [heq]
  | none =>
    obtain ⟨o', ho'⟩ := Option.isSome_iff_exists.mp hsome
    rcases h.domain a o' ho' with habs | ⟨b, hm, hf⟩
    · rw [hH] at habs
      exact absurd habs (by simp)
    · -- A copy lies past what is collected, and is no resident.
      obtain ⟨_, o, ho, _, hres, hwhere⟩ := h.copy b a hm hf
      have hnot : inFrom c s.heap a ≠ true := by
        intro hfrom
        rw [inFrom_iff, ho] at hfrom
        simp only [Option.any_some, hres, Bool.false_eq_true, and_false, or_false] at hfrom
        have hyoung := inFrom_young hb (inFrom_iff.mpr (by tauto) : inFrom c s.heap a = true)
        rcases hwhere with ⟨hold, _⟩ | ⟨hlo, hhi⟩
        · rw [Geometry.not_young_of_old hold] at hyoung
          exact absurd hyoung (by simp)
        · have h1 := hb.edenTop
          have h2 := hb.fromTop
          have h3 := c.geo.edenHi_le (!c.fromSpace)
          have h4 := c.geo.survivors_apart c.fromSpace
          have h5 := h.toSpace.bounds.2
          obtain ⟨o0, o1, ho0, ho1, hr⟩ := h.place_some (.moved hm hf)
          obtain rfl := Option.some.inj (ho.symm.trans ho1)
          have h6 := (hb.sized b o0 ho0).1
          rw [← hr.size] at h6
          have h7 : kGranuleBytes = 8 := rfl
          have h8 : kHeaderBytes = 8 := rfl
          omega
      simp [hnot]

end Shape

end Basic

end Brass.Gc.Heap
