import Brass.Gc.MinorInvariant

/-!
# The steps of an evacuation

Each step of a visit keeps the invariant: a card is marked, an object is shaded, a slot is
redirected, an object is copied. What a step may change besides is said by `Grows`.
-/

namespace Brass.Gc.Heap

open Option

open Function (update_of_ne update_self)

variable {A M : Type} {c : Setup A M} {H : Nat → Option Obj} {R : List Root}
  {want : Nat → Nat → Prop} {W W' : Slot → Prop} {s s' s'' : State A M}
variable {heap : Nat → Option Obj} {b w : Nat} {slot : Slot} {g : Geometry}

def fromAddresses (c : Setup A M) : List Nat :=
  List.range' c.geo.edenLo (c.edenTop - c.geo.edenLo) ++
    (List.range' (c.geo.survivorLo c.fromSpace) (c.fromTop - c.geo.survivorLo c.fromSpace) ++
      List.range' (c.geo.survivorLo (!c.fromSpace)) c.toResidentSpan)

def unforwarded (heap : Nat → Option Obj) (a : Nat) : Bool := !(heap a).any (·.forwarded)

/-- What the draining takes from: the grey objects, and those that may still turn grey. -/
def potential (c : Setup A M) (s : State A M) : Nat :=
  s.gray.length + (fromAddresses c).countP (unforwarded s.heap)

/-- The marks `m`, and old objects of the heap shaded since. -/
inductive Shades (c : Setup A M) (heap : Nat → Option Obj) (m : M) : M → Prop where
  | refl : Shades c heap m m
  | shade {m' : M} {a : Nat} (h : Shades c heap m m') (hold : c.geo.isOld a = true)
      (hsome : (heap a).isSome = true) : Shades c heap m (c.marker.shade m' a)

theorem Shades.mono {heap' : Nat → Option Obj} {m m' : M} (h : Shades c heap m m')
    (hkept : ∀ x o, heap x = some o → (heap' x).isSome = true) : Shades c heap' m m' := by
  induction h with
  | refl => exact .refl
  | shade _ hold hsome ih =>
    obtain ⟨o, ho⟩ := isSome_iff_exists.mp hsome
    exact .shade ih hold (hkept _ o ho)

theorem Shades.trans {m m' m'' : M} (h : Shades c heap m m') (h' : Shades c heap m' m'') :
    Shades c heap m m'' := by
  induction h' with
  | refl => exact h
  | shade _ hold hsome ih => exact .shade ih hold hsome

structure Keeps (c : Setup A M) (H : Nat → Option Obj) (s s' : State A M) : Prop where
  forwards : ∀ a b, Moves c H a → Forwards s.heap a b → Forwards s'.heap a b
  kept : ∀ x o, s.heap x = some o → ∃ o', s'.heap x = some o' ∧ o'.size = o.size ∧
    o'.layout = o.layout
  marked : ∀ a, c.marker.Marked s.marks a → c.marker.Marked s'.marks a
  shaded : Shades c s'.heap s.marks s'.marks
  /-- A slot that names nothing that moves is not written. -/
  stable : ∀ slot, Live c H s slot → Live c H s' slot ∧
    ((c.geo.refers (readSlot c s slot) = true → ¬ Moves c H (addressOf (readSlot c s slot))) →
      readSlot c s' slot = readSlot c s slot)
  potential : potential c s' ≤ potential c s

/-- What a step of an evacuation leaves in place that cleans no card. -/
structure Grows (c : Setup A M) (H : Nat → Option Obj) (s s' : State A M) : Prop
    extends Keeps c H s s' where
  dirty : ∀ k, s.cards k = .dirty → s'.cards k = .dirty
  unclean : ∀ k, s.cards k ≠ .clean → s'.cards k ≠ .clean
  regions : ∀ r, s.regions r = true → s'.regions r = true

theorem Keeps.refl (s : State A M) : Keeps c H s s where
  forwards _ _ _ h := h
  kept _ o h := ⟨o, h, rfl, rfl⟩
  marked _ h := h
  shaded := .refl
  stable _ h := ⟨h, fun _ => rfl⟩
  potential := Nat.le_refl _

theorem Keeps.trans (h : Keeps c H s s') (h' : Keeps c H s' s'') : Keeps c H s s'' where
  forwards a b hm hf := h'.forwards a b hm (h.forwards a b hm hf)
  kept x o ho := by
    obtain ⟨o', ho', hsize, hlayout⟩ := h.kept x o ho
    obtain ⟨o'', ho'', hsize', hlayout'⟩ := h'.kept x o' ho'
    exact ⟨o'', ho'', hsize'.trans hsize, hlayout'.trans hlayout⟩
  marked a ha := h'.marked a (h.marked a ha)
  shaded := by
    refine (h.shaded.mono fun x o ho => ?_).trans h'.shaded
    obtain ⟨o', ho', _⟩ := h'.kept x o ho
    rw [ho']
    rfl
  stable slot hl := by
    obtain ⟨hl', hread⟩ := h.stable slot hl
    obtain ⟨hl'', hread'⟩ := h'.stable slot hl'
    refine ⟨hl'', fun htarget => ?_⟩
    have heq := hread htarget
    rw [← heq] at htarget ⊢
    exact hread' htarget
  potential := Nat.le_trans h'.potential h.potential

namespace Grows

theorem refl (s : State A M) : Grows c H s s where
  toKeeps := .refl s
  dirty _ h := h
  unclean _ h := h
  regions _ h := h

theorem trans (h : Grows c H s s') (h' : Grows c H s' s'') : Grows c H s s'' where
  toKeeps := h.toKeeps.trans h'.toKeeps
  dirty k hk := h'.dirty k (h.dirty k hk)
  unclean k hk := h'.unclean k (h.unclean k hk)
  regions r hr := h'.regions r (h.regions r hr)

theorem behind (h : Grows c H s s') {size x i : Nat}
    (hb : Behind c.geo s.cards s.regions size x i) :
    Behind c.geo s'.cards s'.regions size x i := by
  rcases hb with ⟨hcard, hregion⟩ | ⟨hlarge, hi, hcard, hregion⟩
  · exact .inl ⟨h.dirty _ hcard, h.regions _ hregion⟩
  · exact .inr ⟨hlarge, hi, h.unclean _ hcard, h.regions _ hregion⟩

end Grows

namespace Keeps

theorem place (h : Keeps c H s s') {a x : Nat} (hp : Place c H s.heap a x) :
    Place c H s'.heap a x := by
  cases hp with
  | stays hsome hstays => exact .stays hsome hstays
  | moved hm hf => exact .moved hm (h.forwards _ _ hm hf)

theorem movedWord (h : Keeps c H s s') {w' : Nat} (hw : MovedWord c H s.heap w w') :
    MovedWord c H s'.heap w w' := by
  rcases hw with heq | ⟨hrefers, hm, b, hf, heq⟩
  · exact .inl heq
  · exact .inr ⟨hrefers, hm, b, h.forwards _ _ hm hf, heq⟩

theorem movedRoot (h : Keeps c H s s') {r r' : Root} (hr : MovedRoot c H s.heap r r') :
    MovedRoot c H s'.heap r r' := ⟨hr.1, h.movedWord hr.2⟩

theorem rewrites (h : Keeps c H s s') {o o' : Obj} (hr : Rewrites c H s.heap o o') :
    Rewrites c H s'.heap o o' where
  size := hr.size
  layout := hr.layout
  hostBits := hr.hostBits
  forwarded := hr.forwarded
  slots i hi := h.movedWord (hr.slots i hi)
  other := hr.other

end Keeps

/-- A settled slot that a step does not write stays settled. -/
theorem Settled.grows (h : Settled c H want s slot) (hg : Grows c H s s')
    (hread : readSlot c s' slot = readSlot c s slot)
    (hsome : ∀ x i, slot = .field x i → (s.heap x).isSome = true) :
    Settled c H want s' slot where
  target := by
    rw [hread]
    exact h.target
  remembered := by
    intro x i o heq ho hold
    rw [hread]
    intro hrefers hyoung
    obtain ⟨o₁, ho₁⟩ := isSome_iff_exists.mp (hsome x i heq)
    obtain ⟨o₂, ho₂, hsize, _⟩ := hg.kept x o₁ ho₁
    obtain rfl := some.inj (ho.symm.trans ho₂)
    rw [hsize]
    exact hg.behind (h.remembered x i o₁ heq ho₁ hold hrefers hyoung)
  shaded := by
    intro x i heq hshade hwant hold
    rw [hread]
    intro hrefers hyoung
    exact hg.marked _ (h.shaded x i heq hshade hwant hold hrefers hyoung)

theorem Live.some {x i : Nat} (h : Live c H s slot) (heq : slot = .field x i) :
    (s.heap x).isSome = true := by
  subst heq
  obtain ⟨_, o, _, ho, _⟩ := h
  rw [ho]
  rfl

/-! ## Marking a card -/

theorem cardOf_div (g : Geometry) (a : Nat) : g.cardOf a / kCardsPerRegion = g.regionOf a := by
  have h1 : kCardBytes = 512 := rfl
  have h2 : kCardsPerRegion = 64 := rfl
  have h3 : kRegionBytes = 32768 := rfl
  unfold Geometry.cardOf Geometry.regionOf
  rw [Nat.div_div_eq_div_mul, h1, h2, h3]

/-- A step that only marks cards and shades objects, and leaves every object and slot as it
was. -/
structure OnlyMarks (c : Setup A M) (s s' : State A M) : Prop where
  heap : s'.heap = s.heap
  old : s'.old = s.old
  roots : s'.roots = s.roots
  toCursor : s'.toCursor = s.toCursor
  toLimit : s'.toLimit = s.toLimit
  toFrags : s'.toFrags = s.toFrags
  toCopiedHi : s'.toCopiedHi = s.toCopiedHi
  gray : s'.gray = s.gray
  dirty : ∀ k, s.cards k = .dirty → s'.cards k = .dirty
  unclean : ∀ k, s.cards k ≠ .clean → s'.cards k ≠ .clean
  regions : ∀ r, s.regions r = true → s'.regions r = true
  marked : ∀ a, c.marker.Marked s.marks a → c.marker.Marked s'.marks a
  shaded : Shades c s.heap s.marks s'.marks

theorem OnlyMarks.refl (s : State A M) : OnlyMarks c s s where
  heap := rfl
  old := rfl
  roots := rfl
  toCursor := rfl
  toLimit := rfl
  toFrags := rfl
  toCopiedHi := rfl
  gray := rfl
  dirty _ h := h
  unclean _ h := h
  regions _ h := h
  marked _ h := h
  shaded := .refl

namespace OnlyMarks

variable (h : OnlyMarks c s s')

include h

theorem readSlot_eq (slot : Slot) : readSlot c s' slot = readSlot c s slot := by
  cases slot <;> simp only [readSlot, h.heap, h.roots]

theorem live_iff (slot : Slot) : Live c H s' slot ↔ Live c H s slot := by
  cases slot <;> simp only [Live, h.heap, h.roots]

theorem grows : Grows c H s s' where
  forwards a b _ hf := by
    rw [h.heap]
    exact hf
  kept x o ho := ⟨o, by rw [h.heap]; exact ho, rfl, rfl⟩
  dirty := h.dirty
  unclean := h.unclean
  regions := h.regions
  marked := h.marked
  shaded := by
    rw [h.heap]
    exact h.shaded
  stable slot hl := ⟨(h.live_iff slot).mpr hl, fun _ => h.readSlot_eq slot⟩
  potential := by
    unfold potential
    rw [h.heap, h.gray]

theorem shape (hs : Shape c H R s) : Shape c H R s' := by
  refine
    { placed := ?_, flags := ?_, left := ?_, domain := ?_, copy := ?_, injective := ?_
      promoted := ?_, inHeap := ?_, apart := ?_, toSpace := ?_, fits := ?_, gray := ?_, roots := ?_ }
  all_goals simp only [h.heap, h.old, h.roots, h.toCursor, h.toLimit, h.toFrags, h.toCopiedHi, h.gray]
  · exact hs.placed
  · exact hs.flags
  · exact hs.left
  · exact hs.domain
  · exact hs.copy
  · exact hs.injective
  · intro a x hm hf hshade hold
    exact h.marked x (hs.promoted a x hm hf hshade hold)
  · exact hs.inHeap
  · exact hs.apart
  · exact hs.toSpace
  · exact hs.fits
  · exact hs.gray
  · exact hs.roots

theorem inv (hi : Inv c H R want W s) (hcards : CardsOk c s') : Inv c H R want W s' := by
  refine { toShape := h.shape hi.toShape, toCardsOk := hcards, slots := ?_ }
  intro slot hl
  rw [h.live_iff] at hl
  rcases hi.slots slot hl with hset | hgray | hw
  · exact .inl (hset.grows h.grows (h.readSlot_eq slot) fun x i heq => hl.some heq)
  · exact .inr (.inl (by rw [h.gray]; exact hgray))
  · exact .inr (.inr hw)

end OnlyMarks

theorem largeLo_eq (g : Geometry) : g.largeLo = g.matureLo + g.matureBlocks * 32768 := rfl

theorem cardOf_eq (g : Geometry) (a : Nat) : g.cardOf a = (a - g.matureLo) / 512 := rfl

theorem regionOf_eq (g : Geometry) (a : Nat) : g.regionOf a = (a - g.matureLo) / 32768 := rfl

theorem largeObjectAt_eq (g : Geometry) (head : Nat) :
    g.largeObjectAt head = g.largeLo + head * 4096 + 8 := rfl

theorem page_of_card {a : Nat} (ha : g.largeLo ≤ a) (hb : g.largeLo ≤ b)
    (h : g.cardOf a = g.cardOf b) :
    (a - g.largeLo) / kPageBytes = (b - g.largeLo) / kPageBytes := by
  have h1 := largeLo_eq g
  rw [cardOf_eq, cardOf_eq] at h
  show (a - g.largeLo) / 4096 = (b - g.largeLo) / 4096
  omega

theorem card_ne_of_mature {a : Nat} (ha : g.matureLo ≤ a) (ha' : a < g.largeLo)
    (hb : g.largeLo ≤ b) : g.cardOf a ≠ g.cardOf b := by
  have h1 := largeLo_eq g
  rw [cardOf_eq, cardOf_eq]
  omega

theorem region_of_card {a : Nat} (h : g.cardOf a = g.cardOf b) : g.regionOf a = g.regionOf b := by
  rw [← cardOf_div, ← cardOf_div, h]

theorem markCard_onlyMarks {a : Nat} {v : Card}
    (hv : v = .dirty ∨ (v = .dirtyRange ∧ s.cards (c.geo.cardOf a) ≠ .dirty)) :
    OnlyMarks c s (markCard c.geo a v s) := by
  refine
    { heap := rfl, old := rfl, roots := rfl, toCursor := rfl, toLimit := rfl, toFrags := rfl
      toCopiedHi := rfl, gray := rfl, dirty := ?_, unclean := ?_, regions := ?_
      marked := fun _ h => h, shaded := .refl }
  · intro k hk
    by_cases hka : k = c.geo.cardOf a
    · subst hka
      rcases hv with rfl | ⟨_, hne⟩
      · simp [markCard]
      · exact absurd hk hne
    · simp only [markCard, update_of_ne hka]
      exact hk
  · intro k hk
    by_cases hka : k = c.geo.cardOf a
    · subst hka
      rcases hv with rfl | ⟨rfl, _⟩ <;> simp [markCard]
    · simp only [markCard, update_of_ne hka]
      exact hk
  · intro r hr
    by_cases hra : r = c.geo.regionOf a
    · subst hra
      simp [markCard]
    · simp only [markCard, update_of_ne hra]
      exact hr

/-- Marking a card of a live object, at its payload's start or at one of the payload's
words. -/
theorem markCard_cardsOk {x a : Nat} {o : Obj} {v : Card} (hc : CardsOk c s)
    (hfits : c.space.Fits s.old (sizes s.heap)) (ho : s.heap x = some o)
    (hold : c.geo.isOld x = true) (hsize : kGranuleBytes ≤ o.size)
    (ha : a = x ∨ (c.geo.inLarge x = true ∧ x ≤ a ∧ a < x + o.size)) :
    CardsOk c (markCard c.geo a v s) := by
  rw [Geometry.isOld_iff] at hold
  constructor
  · intro b hb hcard
    by_cases heq : c.geo.cardOf b = c.geo.cardOf a
    · rw [region_of_card heq]
      simp [markCard]
    · simp only [markCard, update_of_ne heq] at hcard
      have hreg := hc.region b hb hcard
      by_cases hr : c.geo.regionOf b = c.geo.regionOf a
      · simp [markCard, hr]
      · simp only [markCard, update_of_ne hr]
        exact hreg
  · intro b hb hcard head hhead
    by_cases heq : c.geo.cardOf b = c.geo.cardOf a
    · have hbl := (Geometry.inLarge_iff.mp hb).1
      by_cases hx : c.geo.inLarge x = true
      · obtain ⟨head', hx', hpages, hrun⟩ := c.space.large_run hfits hx
          (show sizes s.heap x = some o.size by simp [sizes, ho])
        have hxl := (Geometry.inLarge_iff.mp hx).1
        have hxe := largeObjectAt_eq c.geo head'
        have ha1 : c.geo.largeLo ≤ a := by omega
        rw [page_of_card hbl ha1 heq] at hhead
        have hp := hrun ((a - c.geo.largeLo) / kPageBytes)
        have h8 : kGranuleBytes = 8 := rfl
        have h9 : kHeaderBytes = 8 := rfl
        have h10 : kPageBytes = 4096 := rfl
        rw [h10] at hp hpages
        have hp' := hp (by omega) (by omega)
        rw [h10] at hhead
        obtain rfl := some.inj (hp'.symm.trans hhead)
        show (s.heap _).isSome = true
        rw [← hx', ho]
        rfl
      · have hxa : a = x := by
          rcases ha with ha | ha
          · exact ha
          · exact absurd ha.1 hx
        subst hxa
        rw [Geometry.inLarge_iff] at hx
        exact absurd heq.symm (card_ne_of_mature hold.1 (by omega) hbl)
    · simp only [markCard, update_of_ne heq] at hcard
      exact hc.live b hb hcard head hhead

theorem rememberSlot_spec {x i : Nat} {o : Obj} (hc : CardsOk c s)
    (hfits : c.space.Fits s.old (sizes s.heap)) (ho : s.heap x = some o)
    (hold : c.geo.isOld x = true) (hsize : kGranuleBytes ≤ o.size) :
    OnlyMarks c s (rememberSlot c.geo x (.field x i) s) ∧
    CardsOk c (rememberSlot c.geo x (.field x i) s) ∧
    Behind c.geo (rememberSlot c.geo x (.field x i) s).cards
      (rememberSlot c.geo x (.field x i) s).regions o.size x i := by
  have hwhole : OnlyMarks c s (markCard c.geo x .dirty s) ∧ CardsOk c (markCard c.geo x .dirty s) ∧
      Behind c.geo (markCard c.geo x .dirty s).cards (markCard c.geo x .dirty s).regions
        o.size x i :=
    ⟨markCard_onlyMarks (.inl rfl), markCard_cardsOk hc hfits ho hold hsize (.inl rfl),
      .inl ⟨by simp [markCard], by simp [markCard]⟩⟩
  unfold rememberSlot
  by_cases hlarge : c.geo.inLarge x = true
  · simp only [hlarge, Bool.not_true, Bool.false_eq_true, if_false, ho, map_some,
      getD_some, ne_eq, not_true_eq_false, false_or]
    by_cases hout : kGranuleBytes * i ≥ o.size
    · rw [if_pos hout]
      exact hwhole
    · rw [if_neg hout]
      have hin : c.geo.inLarge x = true ∧ x ≤ x + kGranuleBytes * i ∧
          x + kGranuleBytes * i < x + o.size := ⟨hlarge, by omega, by omega⟩
      by_cases hfirst : c.geo.cardOf (x + kGranuleBytes * i) = c.geo.cardOf x
      · rw [if_neg (by simpa using hfirst)]
        by_cases hdirty : s.cards (c.geo.cardOf (x + kGranuleBytes * i)) = .dirty
        · -- The first card already asks for the whole object.
          rw [if_neg (by simpa using hdirty)]
          have hdirty' : s.cards (c.geo.cardOf x) = .dirty := hfirst ▸ hdirty
          exact ⟨.refl s, hc, .inl ⟨hdirty', hc.region x hlarge hdirty'⟩⟩
        · rw [if_pos (by simpa using hdirty)]
          refine ⟨markCard_onlyMarks (.inr ⟨rfl, hdirty⟩),
            markCard_cardsOk hc hfits ho hold hsize (.inr hin), .inr ⟨hlarge, by omega, ?_, ?_⟩⟩ <;>
          simp [markCard]
      · rw [if_pos (by simpa using hfirst)]
        refine ⟨markCard_onlyMarks (.inl rfl),
          markCard_cardsOk hc hfits ho hold hsize (.inr hin), .inr ⟨hlarge, by omega, ?_, ?_⟩⟩ <;>
        simp [markCard]
  · simp only [hlarge, Bool.not_false, if_true]
    exact hwhole

/-! ## Shading -/

theorem shade_onlyMarks {a : Nat} (hold : c.geo.isOld a = true) (hsome : (s.heap a).isSome = true) :
    OnlyMarks c s { s with marks := c.marker.shade s.marks a } :=
  { OnlyMarks.refl (c := c) s with
    marked := fun b h => c.marker.marked_mono _ a b h
    shaded := .shade .refl hold hsome }

/-! ## Redirecting a slot -/

theorem Shape.place_not_moves (h : Shape c H R s) {a x : Nat} (hp : Place c H s.heap a x) :
    ¬ Moves c H x := by
  cases hp with
  | stays _ hstays => exact hstays
  | moved hm hf =>
    rintro ⟨o, ho, _⟩
    rw [(h.copy _ x hm hf).1] at ho
    exact absurd ho (by simp)

/-- The word that a visit writes: the slot's own, or the one that names the copy. -/
def Redirects (c : Setup A M) (H heap : Nat → Option Obj) (w w' : Nat) : Prop :=
  w' = w ∨ (Moves c H (addressOf w) ∧ ∃ b, Forwards heap (addressOf w) b ∧ w' = retarget w b)

theorem Shape.movedWord_trans (h : Shape c H R s) {w' w'' : Nat} (hw : MovedWord c H s.heap w w')
    (hrefers : c.geo.refers w' = true) (hw' : Redirects c H s.heap w' w'') :
    MovedWord c H s.heap w w'' := by
  rcases hw' with rfl | ⟨hm, b, hf, rfl⟩
  · exact hw
  · rcases hw with rfl | ⟨_, hm', b', hf', rfl⟩
    · exact .inr ⟨hrefers, hm, b, hf, rfl⟩
    · rw [addressOf_retarget (Geometry.lt_of_contains (h.forward_contains _ _ hm' hf'))] at hm
      exact absurd hm (h.place_not_moves (.moved hm' hf'))

section Field

variable {x i w' : Nat} {o : Obj}
variable {y : Nat}

def setWordAt (heap : Nat → Option Obj) (x i w' : Nat) (o : Obj) : Nat → Option Obj :=
  Function.update heap x (some (o.setWord i w'))

theorem setWordAt_self (heap : Nat → Option Obj) :
    setWordAt heap x i w' o x = some (o.setWord i w') := update_self ..

theorem setWordAt_of_ne (h : y ≠ x) : setWordAt heap x i w' o y = heap y := update_of_ne h _ _

theorem setWordAt_header (ho : heap x = some o) (y : Nat) (o' : Obj)
    (h : setWordAt heap x i w' o y = some o') : ∃ o₀, heap y = some o₀ ∧ o'.size = o₀.size ∧
      o'.layout = o₀.layout ∧ o'.hostBits = o₀.hostBits ∧ o'.forwarded = o₀.forwarded ∧
      o'.pinned = o₀.pinned ∧ o'.resident = o₀.resident := by
  by_cases hy : y = x
  · subst hy
    rw [setWordAt_self] at h
    obtain rfl := some.inj h
    exact ⟨o, ho, rfl, rfl, rfl, rfl, rfl, rfl⟩
  · rw [setWordAt_of_ne hy] at h
    exact ⟨o', h, rfl, rfl, rfl, rfl, rfl, rfl⟩

theorem setWordAt_some (ho : heap x = some o) {o₀ : Obj} (h : heap y = some o₀) :
    ∃ o', setWordAt heap x i w' o y = some o' ∧ o'.size = o₀.size ∧
      o'.layout = o₀.layout ∧ o'.pinned = o₀.pinned ∧ o'.resident = o₀.resident := by
  by_cases hy : y = x
  · subst hy
    obtain rfl := some.inj (ho.symm.trans h)
    exact ⟨_, setWordAt_self heap, rfl, rfl, rfl, rfl⟩
  · exact ⟨o₀, (setWordAt_of_ne hy).trans h, rfl, rfl, rfl, rfl⟩

theorem sizes_setWordAt (ho : heap x = some o) : sizes (setWordAt heap x i w' o) = sizes heap := by
  funext y
  by_cases hy : y = x
  · subst hy
    simp [sizes, setWordAt_self, ho, Obj.setWord]
  · simp [sizes, setWordAt_of_ne hy]

theorem forwards_setWordAt {a : Nat} (ha : a ≠ x) :
    Forwards (setWordAt heap x i w' o) a b ↔ Forwards heap a b := by
  simp only [Forwards, setWordAt_of_ne ha]

theorem unforwarded_setWordAt (ho : heap x = some o) :
    unforwarded (setWordAt heap x i w' o) = unforwarded heap := by
  funext y
  by_cases hy : y = x
  · subst hy
    simp [unforwarded, setWordAt_self, ho, Obj.setWord]
  · simp [unforwarded, setWordAt_of_ne hy]

variable (h : Shape c H R s) {a : Nat} (hp : Place c H s.heap a x) (ho : s.heap x = some o)

include h hp

theorem Shape.forwards_write {a' : Nat} (hm : Moves c H a') :
    Forwards (setWordAt s.heap x i w' o) a' b ↔ Forwards s.heap a' b := by
  apply forwards_setWordAt
  rintro rfl
  exact h.place_not_moves hp hm

theorem Shape.place_write {a' : Nat} :
    Place c H (setWordAt s.heap x i w' o) a' y ↔ Place c H s.heap a' y := by
  constructor
  · intro hp'
    cases hp' with
    | stays hsome hstays => exact .stays hsome hstays
    | moved hm hf => exact .moved hm ((h.forwards_write hp hm).mp hf)
  · intro hp'
    cases hp' with
    | stays hsome hstays => exact .stays hsome hstays
    | moved hm hf => exact .moved hm ((h.forwards_write hp hm).mpr hf)

theorem Shape.movedWord_write {w₁ w₂ : Nat} (hw : MovedWord c H s.heap w₁ w₂) :
    MovedWord c H (setWordAt s.heap x i w' o) w₁ w₂ := by
  rcases hw with heq | ⟨hrefers, hm, b, hf, heq⟩
  · exact .inl heq
  · exact .inr ⟨hrefers, hm, b, (h.forwards_write hp hm).mpr hf, heq⟩

include ho

section

variable (hi : i ∈ slotsOf c.layouts o) (hb : Base c H R)
  (hrefers : c.geo.refers (o.words i) = true) (hw : Redirects c H s.heap (o.words i) w')
include hi hb hrefers hw

/-- An object at its present place keeps its relation to what it was when one of its slots
is redirected. -/
theorem Shape.placed_write (a' y : Nat) (o₀ : Obj) (ho₀ : H a' = some o₀)
    (hp' : Place c H (setWordAt s.heap x i w' o) a' y) :
    ∃ o', setWordAt s.heap x i w' o y = some o' ∧
      Rewrites c H (setWordAt s.heap x i w' o) o₀ o' := by
  rw [h.place_write hp] at hp'
  obtain ⟨o₁, ho₁, hr⟩ := h.placed a' y o₀ ho₀ hp'
  have hslots := hr.slotsOf_eq hb h.forward_contains
  have hmove : ∀ j, MovedWord c H s.heap (o₀.words j) (o₁.words j) →
      MovedWord c H (setWordAt s.heap x i w' o) (o₀.words j) (o₁.words j) :=
    fun j hj => h.movedWord_write hp hj
  by_cases hy : y = x
  · subst hy
    obtain rfl := some.inj (ho.symm.trans ho₁)
    refine ⟨_, setWordAt_self _, ?_⟩
    refine { size := hr.size, layout := hr.layout, hostBits := hr.hostBits
             forwarded := hr.forwarded, slots := ?_, other := ?_ }
    · intro j hj
      by_cases hji : j = i
      · subst hji
        have hword : (o.setWord j w').words j = w' := update_self ..
        rw [hword]
        exact h.movedWord_write hp (h.movedWord_trans (hr.slots j hj) hrefers hw)
      · have hword : (o.setWord i w').words j = o.words j := update_of_ne hji _ _
        rw [hword]
        exact hmove j (hr.slots j hj)
    · intro j hj
      have hji : j ≠ i := by
        rintro rfl
        exact hj (hslots ▸ hi)
      have hword : (o.setWord i w').words j = o.words j := update_of_ne hji _ _
      rw [hword]
      exact hr.other j hj
  · refine ⟨o₁, (setWordAt_of_ne hy).trans ho₁, ?_⟩
    exact { size := hr.size, layout := hr.layout, hostBits := hr.hostBits
            forwarded := hr.forwarded, slots := fun j hj => hmove j (hr.slots j hj)
            other := hr.other }

theorem shape_write : Shape c H R { s with heap := setWordAt s.heap x i w' o } := by
  refine
    { placed := h.placed_write hp ho hi hb hrefers hw, flags := ?_, left := ?_, domain := ?_
      copy := ?_, injective := ?_, promoted := ?_, inHeap := ?_, apart := ?_, toSpace := ?_
      fits := ?_, gray := ?_, roots := ?_ }
  · intro a' o₀ ho₀ hstays
    obtain ⟨o₁, ho₁, hpin, hres⟩ := h.flags a' o₀ ho₀ hstays
    obtain ⟨o', ho', _, _, hpin', hres'⟩ := setWordAt_some ho ho₁
    exact ⟨o', ho', hpin'.trans hpin, hres'.trans hres⟩
  · intro a' o₀ ho₀ hm
    have hne : a' ≠ x := by
      rintro rfl
      exact h.place_not_moves hp hm
    show setWordAt s.heap x i w' o a' = _ ∨ ∃ b, setWordAt s.heap x i w' o a' = _
    rw [setWordAt_of_ne hne]
    exact h.left a' o₀ ho₀ hm
  · intro y o' ho'
    obtain ⟨o₀, ho₀, _⟩ := setWordAt_header ho y o' ho'
    rcases h.domain y o₀ ho₀ with hs | ⟨a', hm, hf⟩
    · exact .inl hs
    · exact .inr ⟨a', hm, (h.forwards_write hp hm).mpr hf⟩
  · intro a' y hm hf
    obtain ⟨hnone, o₀, ho₀, hpin, hres, hwhere⟩ := h.copy a' y hm ((h.forwards_write hp hm).mp hf)
    obtain ⟨o', ho', hsize, _, hpin', hres'⟩ := setWordAt_some ho ho₀
    refine ⟨hnone, o', ho', hpin'.trans hpin, hres'.trans hres, ?_⟩
    rw [hsize]
    exact hwhere
  · intro a₁ a₂ y hm₁ hm₂ hf₁ hf₂
    exact h.injective a₁ a₂ y hm₁ hm₂ ((h.forwards_write hp hm₁).mp hf₁)
      ((h.forwards_write hp hm₂).mp hf₂)
  · intro a' y hm hf
    exact h.promoted a' y hm ((h.forwards_write hp hm).mp hf)
  · intro y o' ho'
    obtain ⟨o₀, ho₀, _⟩ := setWordAt_header ho y o' ho'
    exact h.inHeap y o₀ ho₀
  · intro y z o₁ o₂ ho₁ ho₂ hne
    obtain ⟨o₁', ho₁', hsize₁, _⟩ := setWordAt_header ho y o₁ ho₁
    obtain ⟨o₂', ho₂', hsize₂, _⟩ := setWordAt_header ho z o₂ ho₂
    rw [hsize₁, hsize₂]
    exact h.apart y z o₁' o₂' ho₁' ho₂' hne
  · refine { within := h.toSpace.within, ascending := h.toSpace.ascending
             copied := h.toSpace.copied, bounds := h.toSpace.bounds, avoids := ?_ }
    intro f hf y o' ho'
    obtain ⟨o₀, ho₀, hsize, _⟩ := setWordAt_header ho y o' ho'
    rw [hsize]
    exact h.toSpace.avoids f hf y o₀ ho₀
  · show c.space.Fits s.old (sizes (setWordAt s.heap x i w' o))
    rw [sizes_setWordAt ho]
    exact h.fits
  · intro y hy
    obtain ⟨a', hp'⟩ := h.gray y hy
    exact ⟨a', (h.place_write hp).mpr hp'⟩
  · exact h.roots.imp fun r r' hr => ⟨hr.1, h.movedWord_write hp hr.2⟩

end

end Field

theorem Root.isRaw_set (r : Root) (w : Nat) : (r.set w).isRaw = r.isRaw := by
  cases r <;> rfl

theorem Shape.redirects_lt (h : Shape c H R s) {w' : Nat} (hw : Redirects c H s.heap w w') :
    ∃ b, b < 2 ^ kTagShift ∧ w' = retarget w b := by
  rcases hw with rfl | ⟨hm, b, hf, rfl⟩
  · exact ⟨addressOf w', Nat.mod_lt _ (Nat.two_pow_pos _), (retarget_addressOf w').symm⟩
  · exact ⟨b, Geometry.lt_of_contains (h.forward_contains _ _ hm hf), rfl⟩

/-- What redirecting a slot does to the state. -/
structure Written (c : Setup A M) (H : Nat → Option Obj) (R : List Root) (s : State A M)
    (slot : Slot) (w : Nat) (s' : State A M) : Prop where
  shape : Shape c H R s'
  forwards : ∀ a b, Moves c H a → Forwards s.heap a b → Forwards s'.heap a b
  kept : ∀ x o, s.heap x = some o → ∃ o', s'.heap x = some o' ∧ o'.size = o.size ∧
    o'.layout = o.layout
  unforwarded : unforwarded s'.heap = unforwarded s.heap
  self : readSlot c s' slot = w
  other : ∀ slot', slot' ≠ slot → readSlot c s' slot' = readSlot c s slot'
  live : ∀ slot', Live c H s' slot' ↔ Live c H s slot'
  old : s'.old = s.old
  cards : s'.cards = s.cards
  regions : s'.regions = s.regions
  marks : s'.marks = s.marks
  gray : s'.gray = s.gray

theorem Written.grows (h : Written c H R s slot w s')
    (hw : Redirects c H s.heap (readSlot c s slot) w)
    (hrefers : c.geo.refers (readSlot c s slot) = true) : Grows c H s s' where
  forwards := h.forwards
  kept := h.kept
  dirty k hk := by
    rw [h.cards]
    exact hk
  unclean k hk := by
    rw [h.cards]
    exact hk
  regions r hr := by
    rw [h.regions]
    exact hr
  marked a ha := by
    rw [h.marks]
    exact ha
  shaded := by
    rw [h.marks]
    exact .refl
  stable slot' hl := by
    refine ⟨(h.live slot').mpr hl, fun htarget => ?_⟩
    by_cases heq : slot' = slot
    · subst heq
      rw [h.self]
      rcases hw with rfl | ⟨hm, _⟩
      · rfl
      · exact absurd hm (htarget hrefers)
    · exact h.other slot' heq
  potential := by
    unfold potential
    rw [h.unforwarded, h.gray]

theorem written_root (h : Shape c H R s) {k : Nat} (hk : k < s.roots.length)
    (hrefers : c.geo.refers (readSlot c s (.root k)) = true)
    (hw : Redirects c H s.heap (readSlot c s (.root k)) w) :
    Written c H R s (.root k) w (writeSlot s w (.root k)) := by
  have hread : readSlot c s (.root k) = (s.roots[k]).word c.geo := by simp [readSlot, hk]
  rw [hread] at hrefers hw
  obtain ⟨b, hb, rfl⟩ := h.redirects_lt hw
  have hget : ∀ j, (writeSlot s (retarget ((s.roots[k]).word c.geo) b) (.root k)).roots[j]? =
      if k = j then (s.roots[j]?).map (·.set (retarget ((s.roots[k]).word c.geo) b))
      else s.roots[j]? := by
    intro j
    simp only [writeSlot, List.getElem?_modify]
    split <;> simp
  have hlen : (writeSlot s (retarget ((s.roots[k]).word c.geo) b) (.root k)).roots.length =
      s.roots.length := by simp [writeSlot]
  have hself : ((s.roots[k]).set (retarget ((s.roots[k]).word c.geo) b)).word c.geo =
      retarget ((s.roots[k]).word c.geo) b := Root.word_set _ hb
  refine
    { shape := ?_, forwards := fun _ _ _ hf => hf, kept := fun _ o ho => ⟨o, ho, rfl, rfl⟩
      unforwarded := rfl, self := ?_, other := ?_, live := ?_
      old := rfl, cards := rfl, regions := rfl, marks := rfl, gray := rfl }
  · refine { h with roots := ?_ }
    rw [List.forall₂_iff_get]
    refine ⟨h.roots.length_eq.trans hlen.symm, ?_⟩
    intro j hj₁ hj₂
    have hj : j < s.roots.length := hlen ▸ hj₂
    have hrel := h.roots.get hj₁ hj
    simp only [List.get_eq_getElem] at hrel ⊢
    by_cases hkj : k = j
    · subst hkj
      have hval : (writeSlot s (retarget ((s.roots[k]).word c.geo) b) (.root k)).roots[k] =
          (s.roots[k]).set (retarget ((s.roots[k]).word c.geo) b) := by
        apply some.inj
        rw [← List.getElem?_eq_getElem hj₂, hget, if_pos rfl, List.getElem?_eq_getElem hj]
        rfl
      rw [hval]
      refine ⟨(Root.isRaw_set _ _).trans hrel.1, ?_⟩
      rw [hself]
      exact h.movedWord_trans hrel.2 hrefers hw
    · have hval : (writeSlot s (retarget ((s.roots[k]).word c.geo) b) (.root k)).roots[j] =
          s.roots[j] := by
        apply some.inj
        rw [← List.getElem?_eq_getElem hj₂, hget, if_neg hkj, List.getElem?_eq_getElem hj]
      rw [hval]
      exact hrel
  · show ((_ : Option Root).map _).getD 0 = _
    rw [hget, if_pos rfl, List.getElem?_eq_getElem hk]
    exact hself
  · intro slot' hne
    cases slot' with
    | root j =>
      have hkj : k ≠ j := fun heq => hne (heq ▸ rfl)
      show ((_ : Option Root).map _).getD 0 = _
      rw [hget, if_neg hkj]
      rfl
    | field x i => rfl
    | local_ w => rfl
  · intro slot'
    cases slot' with
    | root j =>
      show j < _ ↔ j < _
      rw [hlen]
    | field x i => rfl
    | local_ w => rfl

theorem written_field (h : Shape c H R s) (hb : Base c H R) {x i : Nat}
    (hl : Live c H s (.field x i)) (hrefers : c.geo.refers (readSlot c s (.field x i)) = true)
    (hw : Redirects c H s.heap (readSlot c s (.field x i)) w) :
    Written c H R s (.field x i) w (writeSlot s w (.field x i)) := by
  obtain ⟨a, o, hp, ho, hi⟩ := hl
  have hread : readSlot c s (.field x i) = o.words i := by simp [readSlot, ho]
  rw [hread] at hrefers hw
  have heq : writeSlot s w (.field x i) = { s with heap := setWordAt s.heap x i w o } := by
    simp only [writeSlot, ho, map_some, setWordAt]
  rw [heq]
  have hshape := shape_write h hp ho hi hb hrefers hw
  have hother : ∀ y j, Slot.field y j ≠ .field x i →
      readSlot c { s with heap := setWordAt s.heap x i w o } (.field y j) =
        readSlot c s (.field y j) := by
    intro y j hne
    by_cases hy : y = x
    · subst hy
      have hji : j ≠ i := fun heq => hne (heq ▸ rfl)
      have hword : (o.setWord i w).words j = o.words j := update_of_ne hji _ _
      simp [readSlot, setWordAt_self, ho, hword]
    · simp [readSlot, setWordAt_of_ne hy]
  have hslots : slotsOf c.layouts (o.setWord i w) = slotsOf c.layouts o := by
    obtain ⟨o₀, o₁, ho₀, ho₁, hr⟩ := h.place_some hp
    obtain ⟨o₂, ho₂, hr'⟩ := hshape.placed a x o₀ ho₀ ((h.place_write hp).mpr hp)
    obtain rfl := some.inj (ho.symm.trans ho₁)
    obtain rfl := some.inj ((setWordAt_self s.heap).symm.trans ho₂)
    rw [hr'.slotsOf_eq hb hshape.forward_contains, hr.slotsOf_eq hb h.forward_contains]
  refine
    { shape := hshape, forwards := fun _ _ hm hf => (h.forwards_write hp hm).mpr hf, kept := ?_
      unforwarded := unforwarded_setWordAt ho, self := ?_, other := ?_, live := ?_
      old := rfl, cards := rfl, regions := rfl, marks := rfl, gray := rfl }
  · intro y o₀ ho₀
    obtain ⟨o', ho', hsize, hlayout, _⟩ := setWordAt_some ho ho₀
    exact ⟨o', ho', hsize, hlayout⟩
  · have hword : (o.setWord i w).words i = w := update_self ..
    simp [readSlot, setWordAt_self, hword]
  · intro slot' hne
    cases slot' with
    | root j => rfl
    | field y j => exact hother y j hne
    | local_ w => rfl
  · intro slot'
    cases slot' with
    | root j => rfl
    | local_ w => rfl
    | field y j =>
      simp only [Live, h.place_write hp]
      by_cases hy : y = x
      · subst hy
        simp [setWordAt_self, ho, hslots]
      · simp [setWordAt_of_ne hy]

/-- A slot is redirected: it is not settled yet, and nothing else changes. -/
theorem writeSlot_spec (hb : Base c H R) (h : Inv c H R want W s) (hl : Live c H s slot)
    (hrefers : c.geo.refers (readSlot c s slot) = true)
    (hw : Redirects c H s.heap (readSlot c s slot) w) :
    readSlot c (writeSlot s w slot) slot = w ∧ (writeSlot s w slot).gray = s.gray ∧
    Grows c H s (writeSlot s w slot) ∧
    Inv c H R want (fun t => W t ∨ t = slot) (writeSlot s w slot) := by
  have hwritten : Written c H R s slot w (writeSlot s w slot) := by
    cases slot with
    | root k => exact written_root h.toShape hl hrefers hw
    | field x i => exact written_field h.toShape hb hl hrefers hw
    | local_ w => exact hl.elim
  have hg := hwritten.grows hw hrefers
  refine ⟨hwritten.self, hwritten.gray, hg,
    { toShape := hwritten.shape, toCardsOk := ?_, slots := ?_ }⟩
  · constructor
    · rw [hwritten.cards, hwritten.regions]
      exact h.region
    · intro a ha hcard head hhead
      rw [hwritten.cards] at hcard
      rw [hwritten.old] at hhead
      obtain ⟨o, ho⟩ := isSome_iff_exists.mp (h.live a ha hcard head hhead)
      obtain ⟨o', ho', _⟩ := hwritten.kept _ o ho
      rw [ho']
      rfl
  · intro t ht
    rw [hwritten.live] at ht
    by_cases heq : t = slot
    · exact .inr (.inr (.inr heq))
    · rcases h.slots t ht with hset | hgray | hwt
      · exact .inl (hset.grows hg (hwritten.other t heq) fun x i hf => ht.some hf)
      · exact .inr (.inl (by rw [hwritten.gray]; exact hgray))
      · exact .inr (.inr (.inl hwt))

end Brass.Gc.Heap
