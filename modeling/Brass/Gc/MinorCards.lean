import Brass.Gc.MinorVisit

/-!
# The roots and the dirty cards

The roots are visited first. Then the walks over the dirty cards: a card is cleaned before
what lies behind it is scanned, so cleaning a card makes the slots behind it slots that
are still to be visited, and the scan visits them.
-/

namespace Brass.Gc.Heap

open Function (update update_of_ne)

open List

variable {A M : Type} {c : Setup A M} {H : Nat → Option Obj} {R : List Root}
  {want : Nat → Nat → Prop} {W W' : Slot → Prop} {s s' s'' : State A M}

/-! ## The roots -/

variable {P : Nat → Prop} {card i x : Nat}

theorem visit_local {nested : Option (Scan A M)} {w : Nat} (hb : Base c H R)
    (h : Shape c H R s) (hsome : (H (addressOf w)).isSome = true)
    (hstays : ¬ Moves c H (addressOf w)) : visit c nested .none (.local_ w) s = .ok s := by
  obtain ⟨o, ho⟩ := Option.isSome_iff_exists.mp (h.start_some hsome)
  have hvisit : minorVisit c nested .none (.local_ w) w s = .ok s := by
    unfold minorVisit
    by_cases htag : c.geo.isReferenceTag w = true
    · simp only [htag, Bool.not_true, Bool.false_eq_true, if_false]
      by_cases hfrom : inFrom c s.heap (addressOf w) = true
      · simp only [hfrom, if_true, ho]
        rcases h.collected_cases hb ho hfrom with ⟨_, hm, _⟩ | ⟨hfwd, hpin, _⟩ | ⟨_, _, hm, _⟩
        · exact absurd hm hstays
        · have hevac : evacuateYoung c (addressOf w) s = .ok (addressOf w, s) := by
            simp only [evacuateYoung, ho, hpin, if_true]
          have hfresh : scanFresh c nested false (addressOf w) s = .ok s := by
            unfold scanFresh
            cases nested <;> simp [ho]
          simp only [hfwd, hpin, Bool.false_eq_true, if_false, Bool.not_false, Bool.not_true,
            Bool.and_false, hevac, writeSlot, hfresh]
          rfl
        · exact absurd hm hstays
      · simp only [hfrom, Bool.false_eq_true, if_false]
        by_cases hsh : (c.shade && !c.geo.isYoung (addressOf w)) = true
        · simp only [hsh, if_true]
          rfl
        · simp only [hsh, Bool.false_eq_true, if_false]
          rfl
    · simp only [htag, Bool.not_false, if_true]
  unfold visit
  simp only [readSlot, hvisit]
  split <;> split <;> rfl

theorem visitSlots_spec (hb : Base c H R) (l : List Slot) (h : Inv c H R want W s)
    (hl : ∀ slot ∈ l, (∃ k, slot = .root k ∧ k < s.roots.length) ∨
      ∃ w, slot = .local_ w ∧ (H (addressOf w)).isSome = true ∧ ¬ Moves c H (addressOf w)) :
    Ends (visitSlots c l s) fun s' =>
      Inv c H R want (fun u => W u ∧ ∀ slot ∈ l, u ≠ slot) s' ∧ Grows c H s s' := by
  induction l generalizing W s with
  | nil => exact ⟨h.weaken fun u hu => ⟨hu, fun slot hs => absurd hs (by simp)⟩, .refl s⟩
  | cons slot l ih =>
    have hrest : ∀ {s₁ : State A M}, Grows c H s s₁ → Inv c H R want (without W slot) s₁ →
        Ends (visitSlots c l s₁) fun s' =>
          Inv c H R want (fun u => W u ∧ ∀ t ∈ slot :: l, u ≠ t) s' ∧ Grows c H s s' := by
      intro s₁ hg hinv
      have hl₁ : ∀ t ∈ l, (∃ k, t = .root k ∧ k < s₁.roots.length) ∨
          ∃ w, t = .local_ w ∧ (H (addressOf w)).isSome = true ∧ ¬ Moves c H (addressOf w) := by
        intro t ht
        rcases hl t (mem_cons_of_mem _ ht) with ⟨k, rfl, hk⟩ | hlocal
        · exact .inl ⟨k, rfl, (hg.stable (.root k) hk).1⟩
        · exact .inr hlocal
      refine (ih hinv hl₁).mono ?_
      rintro s' ⟨hinv', hg'⟩
      refine ⟨hinv'.weaken ?_, hg.trans hg'⟩
      rintro u ⟨⟨hu, hne⟩, hall⟩
      refine ⟨hu, fun t ht => ?_⟩
      rcases mem_cons.mp ht with rfl | ht
      · exact hne
      · exact hall t ht
    unfold visitSlots
    rcases hl slot mem_cons_self with ⟨k, rfl, hk⟩ | ⟨w, rfl, hsome, hstays⟩
    · have hnested : ∀ scan, some (scanObject c (kCopyDepth - 1)) = some scan →
          ScanOk c H R want scan := by
        rintro scan ⟨⟩
        exact scanObject_ok hb _
      have hvisit := visit_spec (t := .none) hb hnested h (show Live c H s (.root k) from hk) rfl
      revert hvisit
      cases visit c (some (scanObject c (kCopyDepth - 1))) .none (.root k) s with
      | error e => exact id
      | ok s₁ =>
        rintro ⟨hinv, hg⟩
        exact hrest hg hinv
    · rw [visit_local hb h.toShape hsome hstays]
      exact hrest (.refl s) (h.settle fun hl => hl.elim)

/-! ## Cleaning cards -/

/-- Other cards and regions: the slots that no longer lie behind a dirty card are still to
be visited. -/
theorem Inv.recard (h : Inv c H R want W s) (cards : Nat → Card) (regions : Nat → Bool)
    (hcards : CardsOk c { s with cards := cards, regions := regions })
    (hbehind : ∀ x i o, s.heap x = some o → c.geo.isOld x = true →
      Behind c.geo s.cards s.regions o.size x i →
      Behind c.geo cards regions o.size x i ∨ W' (.field x i))
    (himp : ∀ u, Live c H s u → W u → W' u) :
    Inv c H R want W' { s with cards := cards, regions := regions } ∧
    Keeps c H s { s with cards := cards, regions := regions } := by
  have hread : ∀ slot, readSlot c { s with cards := cards, regions := regions } slot =
      readSlot c s slot := by
    intro slot
    cases slot <;> rfl
  have hlive : ∀ slot, Live c H { s with cards := cards, regions := regions } slot ↔
      Live c H s slot := by
    intro slot
    cases slot <;> rfl
  refine ⟨{ toShape := ?_, toCardsOk := hcards, slots := ?_ }, ?_⟩
  · exact { h.toShape with placed := h.placed }
  · intro u hu
    rw [hlive] at hu
    rcases h.slots u hu with hs | hg | hw
    · by_cases hw : W' u
      · exact .inr (.inr hw)
      · refine .inl { target := ?_, remembered := ?_, shaded := ?_ }
        · rw [hread]
          exact hs.target
        · intro x i o heq ho hold hrefers hyoung
          subst heq
          rw [hread] at hrefers hyoung
          rcases hbehind x i o ho hold (hs.remembered x i o rfl ho hold hrefers hyoung) with hb | hb
          · exact hb
          · exact absurd hb hw
        · rw [hread]
          exact hs.shaded
    · exact .inr (.inl hg)
    · exact .inr (.inr (himp u hu hw))
  · exact { Keeps.refl (c := c) (H := H) s with
        stable := fun slot hl => ⟨(hlive slot).mpr hl, fun _ => hread slot⟩ }

/-- The cards of some regions, and their regions' bytes, are not cleaned. -/
def CardsKeep (P : Nat → Prop) (s s' : State A M) : Prop :=
  ∀ r, P r → (s.regions r = true → s'.regions r = true) ∧
    ∀ k, k / kCardsPerRegion = r → (s.cards k = .dirty → s'.cards k = .dirty) ∧
      (s.cards k ≠ .clean → s'.cards k ≠ .clean)

theorem CardsKeep.refl (P : Nat → Prop) (s : State A M) : CardsKeep P s s :=
  fun _ _ => ⟨id, fun _ _ => ⟨id, id⟩⟩

theorem CardsKeep.trans (h : CardsKeep P s s') (h' : CardsKeep P s' s'') : CardsKeep P s s'' := by
  intro r hr
  obtain ⟨h1, h2⟩ := h r hr
  obtain ⟨h1', h2'⟩ := h' r hr
  refine ⟨fun hx => h1' (h1 hx), fun k hk => ⟨fun hx => (h2' k hk).1 ((h2 k hk).1 hx), fun hx => ?_⟩⟩
  exact (h2' k hk).2 ((h2 k hk).2 hx)

theorem Grows.cardsKeep (h : Grows c H s s') (P : Nat → Prop) : CardsKeep P s s' :=
  fun r _ => ⟨h.regions r, fun k _ => ⟨h.dirty k, h.unclean k⟩⟩

theorem CardsKeep.weaken {Q : Nat → Prop} (h : CardsKeep P s s') (himp : ∀ r, Q r → P r) :
    CardsKeep Q s s' := fun r hr => h r (himp r hr)

theorem CardsKeep.behind (h : CardsKeep P s s') {size : Nat} (hx : P (c.geo.regionOf x))
    (hi : c.geo.inLarge x = true → P (c.geo.regionOf (x + kGranuleBytes * i)))
    (hb : Behind c.geo s.cards s.regions size x i) :
    Behind c.geo s'.cards s'.regions size x i := by
  rcases hb with ⟨hcard, hregion⟩ | ⟨hlarge, hsize, hcard, hregion⟩
  · obtain ⟨h1, h2⟩ := h _ hx
    exact .inl ⟨(h2 _ (cardOf_div _ _)).1 hcard, h1 hregion⟩
  · obtain ⟨h1, h2⟩ := h _ (hi hlarge)
    exact .inr ⟨hlarge, hsize, (h2 _ (cardOf_div _ _)).2 hcard, h1 hregion⟩

/-! ## The mature blocks -/

theorem Shape.place_of_old (h : Shape c H R s) (hb : Base c H R) {o : Obj}
    (ho : s.heap x = some o) (hold : c.geo.isOld x = true) : ∃ a, Place c H s.heap a x := by
  rcases h.domain x o ho with hsome | ⟨a, hm, hf⟩
  · refine ⟨x, .stays hsome ?_⟩
    intro hm
    have := hm.young hb
    rw [Geometry.not_young_of_old hold] at this
    exact absurd this (by simp)
  · exact ⟨a, .moved hm hf⟩

/-- The scan of the objects that start in a card settles their slots. -/
theorem scanStarts_spec (hb : Base c H R) {lo card : Nat} (l : List Nat)
    (hold : ∀ bit ∈ l, c.geo.isOld (lo + (card * 64 + bit) * kGranuleBytes) = true)
    (hp : ∀ bit ∈ l, ∃ a, Place c H s.heap a (lo + (card * 64 + bit) * kGranuleBytes))
    (h : Inv c H R want
      (fun u => W u ∨ ∃ bit ∈ l, u.OwnedBy (lo + (card * 64 + bit) * kGranuleBytes)) s) :
    Ends (scanStarts c lo card l s) fun s' => Inv c H R want W s' ∧ Grows c H s s' := by
  induction l generalizing s with
  | nil =>
    refine ⟨h.weaken ?_, .refl s⟩
    rintro u (hu | ⟨bit, hbit, _⟩)
    · exact hu
    · exact absurd hbit (by simp)
  | cons bit l ih =>
    unfold scanStarts
    have hscan := (scanObject_ok hb kCopyDepth : ScanOk c H R want _)
      (fun u => W u ∨ ∃ bit ∈ l, u.OwnedBy (lo + (card * 64 + bit) * kGranuleBytes)) s
      (lo + (card * 64 + bit) * kGranuleBytes) (hp bit mem_cons_self) (h.weaken (by
        rintro u (hu | ⟨b, hbit, hown⟩)
        · exact .inl (.inl hu)
        · rcases mem_cons.mp hbit with rfl | hbit
          · exact .inr hown
          · exact .inl (.inr ⟨b, hbit, hown⟩)))
    rw [hold bit mem_cons_self] at hscan
    revert hscan
    cases scanObject c kCopyDepth (lo + (card * 64 + bit) * kGranuleBytes) true s with
    | error e => exact id
    | ok s₁ =>
      rintro ⟨hinv, hg⟩
      have hrest := ih (fun b hbit => hold b (mem_cons_of_mem _ hbit)) (fun b hbit => by
        obtain ⟨a, hpa⟩ := hp b (mem_cons_of_mem _ hbit)
        exact ⟨a, hg.place hpa⟩) hinv
      exact hrest.mono fun s' hs' => ⟨hs'.1, hg.trans hs'.2⟩

theorem blockBase_eq (g : Geometry) (i : Nat) : g.blockBase i = g.matureLo + i * 32768 := rfl

theorem cardOf_blockBase (g : Geometry) (i : Nat) : g.cardOf (g.blockBase i) = 64 * i := by
  rw [cardOf_eq, blockBase_eq]
  omega

theorem granule_card (g : Geometry) {bit : Nat} (hcard : card < 64) (hbit : bit < 64) :
    g.cardOf (g.blockBase i + (card * 64 + bit) * kGranuleBytes) = 64 * i + card ∧
    g.regionOf (g.blockBase i + (card * 64 + bit) * kGranuleBytes) = i := by
  have h8 : kGranuleBytes = 8 := rfl
  rw [cardOf_eq, regionOf_eq, blockBase_eq, h8]
  omega

theorem granule_old (g : Geometry) {bit : Nat} (hi : i < g.matureBlocks) (hcard : card < 64)
    (hbit : bit < 64) :
    g.isOld (g.blockBase i + (card * 64 + bit) * kGranuleBytes) = true ∧
    g.blockBase i + (card * 64 + bit) * kGranuleBytes < g.largeLo := by
  have h8 : kGranuleBytes = 8 := rfl
  have h1 := largeLo_eq g
  have h2 := g.largeLo_le_heapHi
  rw [Geometry.isOld_iff, blockBase_eq, h8]
  omega

theorem large_card (g : Geometry) {a : Nat} (h : g.largeLo ≤ a) :
    64 * g.matureBlocks ≤ g.cardOf a ∧ g.matureBlocks ≤ g.regionOf a := by
  have h1 := largeLo_eq g
  rw [cardOf_eq, regionOf_eq]
  omega

theorem Shape.mature_start (h : Shape c H R s) {o : Obj} (ho : s.heap x = some o)
    (hold : c.geo.isOld x = true) (hsmall : c.geo.inLarge x = false) :
    ∃ i card bit, i < c.space.blockCount s.old ∧ c.space.inUse s.old i = true ∧ card < 64 ∧
      bit < 64 ∧ bit ∈ c.space.starts s.old i card ∧
      x = c.geo.blockBase i + (card * 64 + bit) * kGranuleBytes := by
  obtain ⟨i, card, bit, hi, huse, hcard, hbit, hx⟩ := c.space.mature_start h.fits hold hsmall
    (show sizes s.heap x = some o.size by simp [sizes, ho])
  have hlt := (c.space.start_mature h.fits hcard hbit).1
  exact ⟨i, card, bit, hi, huse, hcard, hlt, hbit, hx⟩

/-- The slots behind the cards of a block that are left to scan: those of the cards for which
`D` holds. -/
def PendCards (g : Geometry) (i : Nat) (D : Nat → Prop) (l : List Nat) (u : Slot) : Prop :=
  ∃ x j card, card ∈ l ∧ D card ∧ u = .field x j ∧ g.isOld x = true ∧ g.inLarge x = false ∧
    g.cardOf x = 64 * i + card

theorem CardsOk.recard_mature {cards : Nat → Card} {regions : Nat → Bool} (hc : CardsOk c s)
    (hcards : ∀ k, 64 * c.geo.matureBlocks ≤ k → cards k = s.cards k)
    (hregions : ∀ r, c.geo.matureBlocks ≤ r → regions r = s.regions r) :
    CardsOk c { s with cards := cards, regions := regions } := by
  constructor
  · intro a ha hcard
    obtain ⟨h1, h2⟩ := large_card c.geo (Geometry.inLarge_iff.mp ha).1
    show regions _ = true
    rw [hregions _ h2]
    exact hc.region a ha (by rw [← hcards _ h1]; exact hcard)
  · intro a ha hcard
    obtain ⟨h1, _⟩ := large_card c.geo (Geometry.inLarge_iff.mp ha).1
    exact hc.live a ha (by rw [← hcards _ h1]; exact hcard)

/-- One card of a block is cleaned: the slots of the objects that start in it are to be
visited. -/
theorem Inv.cleanCard (h : Inv c H R want W s) (hi : i < c.geo.matureBlocks) (hcard : card < 64) :
    Inv c H R want (fun u => W u ∨ ∃ bit ∈ c.space.starts s.old i card,
        u.OwnedBy (c.geo.blockBase i + (card * 64 + bit) * kGranuleBytes))
      { s with cards := update s.cards (64 * i + card) .clean } ∧
    Keeps c H s { s with cards := update s.cards (64 * i + card) .clean } := by
  have hindex : 64 * i + card < 64 * c.geo.matureBlocks := by omega
  refine h.recard _ s.regions ?_ ?_ fun u _ hu => .inl hu
  · refine h.toCardsOk.recard_mature (fun k hk => ?_) fun _ _ => rfl
    exact update_of_ne (by omega) _ _
  · intro x j o ho hold hbehind
    rcases hbehind with ⟨hdirty, hregion⟩ | ⟨hlarge, hsize, hdirty, hregion⟩
    · by_cases hx : c.geo.cardOf x = 64 * i + card
      · have hsmall : c.geo.inLarge x = false := by
          by_contra hne
          have hlarge := (Geometry.inLarge_iff.mp (by simpa using hne)).1
          have := (large_card c.geo hlarge).1
          omega
        obtain ⟨i', card', bit, _, _, hcard', hbit', hbit, rfl⟩ := h.mature_start ho hold hsmall
        rw [(granule_card c.geo hcard' hbit').1] at hx
        obtain rfl : i' = i := by omega
        obtain rfl : card' = card := by omega
        exact .inr (.inr ⟨bit, hbit, rfl⟩)
      · refine .inl (.inl ⟨?_, hregion⟩)
        rw [update_of_ne hx]
        exact hdirty
    · refine .inl (.inr ⟨hlarge, hsize, ?_, hregion⟩)
      have hl := (Geometry.inLarge_iff.mp hlarge).1
      have := (large_card c.geo (a := x + kGranuleBytes * j) (by omega)).1
      rw [update_of_ne (by omega)]
      exact hdirty

theorem scanBlockCards_spec (hb : Base c H R) (hi : i < c.geo.matureBlocks) (D : Nat → Prop)
    (l : List Nat) (hnodup : l.Nodup) (hlt : ∀ k ∈ l, k < 64)
    (hD : ∀ k ∈ l, D k → s.cards (64 * i + k) = .dirty)
    (h : Inv c H R want (fun u => W u ∨ PendCards c.geo i D l u) s) :
    Ends (scanBlockCards c i l s) fun s' =>
      Inv c H R want W s' ∧ Keeps c H s s' ∧ CardsKeep (· ≠ i) s s' := by
  induction l generalizing s with
  | nil =>
    refine ⟨h.weaken ?_, .refl s, .refl _ s⟩
    rintro u (hu | ⟨_, _, card, hcard, _⟩)
    · exact hu
    · exact absurd hcard (by simp)
  | cons card l ih =>
    obtain ⟨hnotin, hnodup'⟩ := nodup_cons.mp hnodup
    have hcard := hlt card mem_cons_self
    unfold scanBlockCards
    simp only [cardOf_blockBase]
    by_cases hdirty : s.cards (64 * i + card) = .dirty
    · rw [if_pos hdirty]
      have h' : Inv c H R want (fun u => (W u ∨ PendCards c.geo i D l u) ∨
          ∃ bit ∈ c.space.starts s.old i card,
            u.OwnedBy (c.geo.blockBase i + (card * 64 + bit) * kGranuleBytes))
          { s with cards := update s.cards (64 * i + card) .clean } := by
        obtain ⟨hinv, _⟩ := h.cleanCard hi hcard
        refine hinv.imp fun u hu hrest => ?_
        rcases hrest with (hw | hpend) | hown
        · exact .inr (.inl (.inl hw))
        · obtain ⟨x, j, card', hcard', hd, rfl, hold, hsmall, hx⟩ := hpend
          rcases mem_cons.mp hcard' with rfl | hcard'
          · obtain ⟨_, o, _, ho, _⟩ := hu
            obtain ⟨i', card₂, bit, _, _, hc₂, hb₂, hbit, rfl⟩ := h.mature_start ho hold hsmall
            rw [(granule_card c.geo hc₂ hb₂).1] at hx
            obtain rfl : i' = i := by omega
            obtain rfl : card₂ = card' := by omega
            exact .inr (.inr ⟨bit, hbit, rfl⟩)
          · exact .inr (.inl (.inr ⟨x, j, card', hcard', hd, rfl, hold, hsmall, hx⟩))
        · exact .inr (.inr hown)
      have hkeep := (h.cleanCard hi hcard).2
      have hcards : CardsKeep (· ≠ i) s
          { s with cards := update s.cards (64 * i + card) .clean } := by
        intro r hr
        refine ⟨id, fun k hk => ?_⟩
        have hne : k ≠ 64 * i + card := by
          have h64 : kCardsPerRegion = 64 := rfl
          rw [h64] at hk
          omega
        simp only [update_of_ne hne]
        exact ⟨id, id⟩
      have hstart : ∀ bit ∈ c.space.starts s.old i card,
          c.geo.isOld (c.geo.blockBase i + (card * 64 + bit) * kGranuleBytes) = true ∧
          ∃ a, Place c H s.heap a (c.geo.blockBase i + (card * 64 + bit) * kGranuleBytes) := by
        intro bit hbit
        obtain ⟨hlt', _, hsome⟩ := c.space.start_mature h.fits hcard hbit
        have hold := (granule_old c.geo hi hcard hlt').1
        obtain ⟨n, hn⟩ := Option.isSome_iff_exists.mp hsome
        obtain ⟨o, ho, _⟩ := Option.map_eq_some_iff.mp hn
        exact ⟨hold, h.toShape.place_of_old hb ho hold⟩
      have hscan := scanStarts_spec (s := { s with
          cards := update s.cards (64 * i + card) .clean }) hb
        (c.space.starts s.old i card)
        (fun bit hbit => (hstart bit hbit).1) (fun bit hbit => (hstart bit hbit).2) h'
      revert hscan
      cases scanStarts c (c.geo.blockBase i) card (c.space.starts s.old i card)
        { s with cards := update s.cards (64 * i + card) .clean } with
      | error e => exact id
      | ok s₁ =>
        rintro ⟨hinv, hg⟩
        have hD' : ∀ k ∈ l, D k → s₁.cards (64 * i + k) = .dirty := by
          intro k hk hd
          apply hg.dirty
          have hne : 64 * i + k ≠ 64 * i + card := by
            intro heq
            obtain rfl : k = card := by omega
            exact hnotin hk
          show update s.cards (64 * i + card) .clean (64 * i + k) = .dirty
          rw [update_of_ne hne]
          exact hD k (mem_cons_of_mem _ hk) hd
        refine (ih hnodup' (fun k hk => hlt k (mem_cons_of_mem _ hk)) hD' hinv).mono ?_
        rintro s' ⟨hinv', hk', hc'⟩
        exact ⟨hinv', (hkeep.trans hg.toKeeps).trans hk', (hcards.trans (hg.cardsKeep _)).trans hc'⟩
    · rw [if_neg hdirty]
      refine ih hnodup' (fun k hk => hlt k (mem_cons_of_mem _ hk))
        (fun k hk => hD k (mem_cons_of_mem _ hk)) (h.weaken ?_)
      rintro u (hu | ⟨x, j, card', hcard', hd, hrest⟩)
      · exact .inl hu
      · rcases mem_cons.mp hcard' with rfl | hcard'
        · exact absurd (hD card' mem_cons_self hd) hdirty
        · exact .inr ⟨x, j, card', hcard', hd, hrest⟩

theorem Inv.restrict (h : Inv c H R want W s) (himp : ∀ u, Live c H s u → W u → W' u) :
    Inv c H R want W' s :=
  h.imp fun u hu hw => .inr (himp u hu hw)

/-- The slots of the mature objects in the blocks `i, …, count - 1` whose card is in `D`. -/
def PendBlocks (g : Geometry) (D : Nat → Prop) (i count : Nat) (u : Slot) : Prop :=
  ∃ x j, u = .field x j ∧ g.isOld x = true ∧ g.inLarge x = false ∧ i ≤ g.regionOf x ∧
    g.regionOf x < count ∧ D (g.cardOf x)

theorem small_of_region {g : Geometry} (h : g.regionOf x < g.matureBlocks) :
    g.inLarge x = false := by
  by_contra hne
  have hlarge := (Geometry.inLarge_iff.mp (by simpa using hne)).1
  have := (large_card g hlarge).2
  omega

/-- The byte of a block's region is cleared: the slots behind its dirty cards are to be
visited. -/
theorem Inv.clearRegion (h : Inv c H R want W s) (W' : Slot → Prop) (hi : i < c.geo.matureBlocks)
    (himp : ∀ u, W u → W' u ∨ PendCards c.geo i (fun k => s.cards (64 * i + k) = .dirty) (range 64) u) :
    Inv c H R want (fun u => W' u ∨
        PendCards c.geo i (fun k => s.cards (64 * i + k) = .dirty) (range 64) u)
      { s with regions := update s.regions i false } ∧
    Keeps c H s { s with regions := update s.regions i false } := by
  refine h.recard s.cards _ ?_ ?_ fun u _ hu => himp u hu
  · refine h.toCardsOk.recard_mature (fun _ _ => rfl) fun r hr => ?_
    exact update_of_ne (by omega) _ _
  · intro x j o ho hold hbehind
    rcases hbehind with ⟨hdirty, hregion⟩ | ⟨hlarge, hsize, hdirty, hregion⟩
    · by_cases hx : c.geo.regionOf x = i
      · have hdiv := cardOf_div c.geo x
        rw [hx, show kCardsPerRegion = 64 from rfl] at hdiv
        have hcard : 64 * i + (c.geo.cardOf x - 64 * i) = c.geo.cardOf x := by omega
        refine .inr (.inr ⟨x, j, c.geo.cardOf x - 64 * i, mem_range.mpr (by omega), ?_, rfl,
          hold, small_of_region (by omega), hcard.symm⟩)
        show s.cards (64 * i + _) = .dirty
        rw [hcard]
        exact hdirty
      · refine .inl (.inl ⟨hdirty, ?_⟩)
        rw [update_of_ne hx]
        exact hregion
    · refine .inl (.inr ⟨hlarge, hsize, hdirty, ?_⟩)
      have hl := (Geometry.inLarge_iff.mp hlarge).1
      have := (large_card c.geo (a := x + kGranuleBytes * j) (by omega)).2
      rw [update_of_ne (by omega)]
      exact hregion

theorem scanBlock_spec (hb : Base c H R) (hi : i < c.geo.matureBlocks) {D : Nat → Prop}
    (hD : ∀ k, k / kCardsPerRegion = i → D k → s.cards k = .dirty ∧ s.regions i = true)
    (h : Inv c H R want (fun u => W u ∨ PendBlocks c.geo D i (i + 1) u) s) :
    Ends (scanBlock c i s) fun s' =>
      Inv c H R want W s' ∧ Keeps c H s s' ∧ CardsKeep (· ≠ i) s s' := by
  unfold scanBlock
  by_cases hregion : s.regions i = true
  · rw [if_pos hregion]
    obtain ⟨hinv, hkeeps⟩ := h.clearRegion W hi (by
      rintro u (hu | ⟨x, j, rfl, hold, hsmall, hlo, hhi, hd⟩)
      · exact .inl hu
      · have hdiv := cardOf_div c.geo x
        have hcards := (hD _ (by omega) hd).1
        rw [show kCardsPerRegion = 64 from rfl] at hdiv
        have hcard : 64 * i + (c.geo.cardOf x - 64 * i) = c.geo.cardOf x := by omega
        refine .inr ⟨x, j, c.geo.cardOf x - 64 * i, mem_range.mpr (by omega), ?_, rfl,
          hold, hsmall, hcard.symm⟩
        show s.cards (64 * i + _) = .dirty
        rw [hcard]
        exact hcards)
    have hclear : CardsKeep (· ≠ i) s { s with regions := update s.regions i false } := by
      intro r hr
      refine ⟨fun hx => ?_, fun _ _ => ⟨id, id⟩⟩
      simp only [update_of_ne hr]
      exact hx
    by_cases huse : c.space.inUse s.old i = true
    · rw [if_pos huse]
      have hscan := scanBlockCards_spec (s := { s with regions := update s.regions i false })
        hb hi (fun k => s.cards (64 * i + k) = .dirty) (range 64) nodup_range
        (fun k hk => mem_range.mp hk) (fun k _ hd => hd) hinv
      refine hscan.mono ?_
      rintro s' ⟨hinv', hkeeps', hcards'⟩
      exact ⟨hinv', hkeeps.trans hkeeps', hclear.trans hcards'⟩
    · rw [if_neg huse]
      refine ⟨hinv.restrict ?_, hkeeps, hclear⟩
      rintro u hlive (hu | ⟨x, j, card, hcard, _, rfl, hold, hsmall, hx⟩)
      · exact hu
      · obtain ⟨_, o, _, ho, _⟩ := hlive
        obtain ⟨i', card', bit, _, huse', hc', hb', _, rfl⟩ := h.mature_start ho hold hsmall
        rw [(granule_card c.geo hc' hb').1] at hx
        have := mem_range.mp hcard
        obtain rfl : i' = i := by omega
        exact absurd huse' huse
  · rw [if_neg hregion]
    refine ⟨h.weaken ?_, .refl s, .refl _ s⟩
    rintro u (hu | ⟨x, j, rfl, _, _, hlo, hhi, hd⟩)
    · exact hu
    · exact absurd (hD _ ((cardOf_div c.geo x).trans (by omega)) hd).2 hregion

theorem scanBlocks_spec (hb : Base c H R) {count : Nat} (hcount : count ≤ c.geo.matureBlocks)
    {D : Nat → Prop} (fuel i : Nat) (hfuel : count ≤ i + fuel)
    (hD : ∀ k, i ≤ k / kCardsPerRegion → D k →
      s.cards k = .dirty ∧ s.regions (k / kCardsPerRegion) = true)
    (h : Inv c H R want (fun u => W u ∨ PendBlocks c.geo D i count u) s) :
    Ends (scanBlocks c count fuel i s) fun s' =>
      Inv c H R want W s' ∧ Keeps c H s s' ∧ CardsKeep (count ≤ ·) s s' := by
  have hdone : ∀ {i : Nat} {s : State A M}, count ≤ i →
      Inv c H R want (fun u => W u ∨ PendBlocks c.geo D i count u) s →
      Inv c H R want W s ∧ Keeps c H s s ∧ CardsKeep (count ≤ ·) s s := by
    intro i s hle h
    refine ⟨h.weaken ?_, .refl s, .refl _ s⟩
    rintro u (hu | ⟨x, j, _, _, _, hlo, hhi, _⟩)
    · exact hu
    · omega
  induction fuel generalizing i s with
  | zero =>
    unfold scanBlocks
    rw [if_neg (by omega)]
    exact hdone (by omega) h
  | succ fuel ih =>
    unfold scanBlocks
    by_cases hlt : i < count
    · rw [if_pos hlt]
      by_cases hskip : i % 8 = 0 ∧ i + 8 ≤ count ∧ ((range 8).all fun k => !s.regions (i + k)) = true
      · -- No region of the eight has its byte set, so no card of theirs is in `D`.
        rw [if_pos hskip]
        obtain ⟨_, _, hall⟩ := hskip
        refine ih (i + 8) (by omega) (fun k hk hd => hD k (by omega) hd) (h.weaken ?_)
        rintro u (hu | ⟨x, j, rfl, hold, hsmall, hlo, hhi, hd⟩)
        · exact .inl hu
        · refine .inr ⟨x, j, rfl, hold, hsmall, ?_, hhi, hd⟩
          by_contra hnot
          have hdiv := cardOf_div c.geo x
          have hset := (hD _ (by omega) hd).2
          rw [hdiv] at hset
          have hclear := all_eq_true.mp hall (c.geo.regionOf x - i) (mem_range.mpr (by omega))
          rw [show i + (c.geo.regionOf x - i) = c.geo.regionOf x by omega, hset] at hclear
          exact absurd hclear (by simp)
      · rw [if_neg hskip]
        have hblock := scanBlock_spec (W := fun u => W u ∨ PendBlocks c.geo D (i + 1) count u) hb
          (by omega : i < c.geo.matureBlocks) (D := D)
          (fun k hk hd => by
            have := hD k (by omega) hd
            rwa [hk] at this)
          (h.weaken (by
            rintro u (hu | ⟨x, j, rfl, hold, hsmall, hlo, hhi, hd⟩)
            · exact .inl (.inl hu)
            · rcases Nat.lt_or_ge i (c.geo.regionOf x) with hgt | hle
              · exact .inl (.inr ⟨x, j, rfl, hold, hsmall, hgt, hhi, hd⟩)
              · exact .inr ⟨x, j, rfl, hold, hsmall, hlo, by omega, hd⟩))
        revert hblock
        cases scanBlock c i s with
        | error e => exact id
        | ok s₁ =>
          rintro ⟨hinv, hkeeps, hcards⟩
          have hD₁ : ∀ k, i + 1 ≤ k / kCardsPerRegion → D k →
              s₁.cards k = .dirty ∧ s₁.regions (k / kCardsPerRegion) = true := by
            intro k hk hd
            obtain ⟨h1, h2⟩ := hD k (by omega) hd
            obtain ⟨hr, hc⟩ := hcards (k / kCardsPerRegion) (by omega)
            exact ⟨(hc k rfl).1 h1, hr h2⟩
          refine (ih (i + 1) (by omega) hD₁ hinv).mono ?_
          rintro s' ⟨hinv', hkeeps', hcards'⟩
          exact ⟨hinv', hkeeps.trans hkeeps', (hcards.weaken fun r hr => by omega).trans hcards'⟩
    · rw [if_neg hlt]
      exact hdone (by omega) h

theorem scanMatureCards_spec (hb : Base c H R)
    (h : Inv c H R want (fun u => W u ∨ ∃ x j, u = .field x j ∧ c.geo.isOld x = true ∧
      c.geo.inLarge x = false ∧ s.cards (c.geo.cardOf x) = .dirty ∧
      s.regions (c.geo.regionOf x) = true) s) :
    Ends (scanMatureCards c s) fun s' =>
      Inv c H R want W s' ∧ Keeps c H s s' ∧ CardsKeep (c.geo.matureBlocks ≤ ·) s s' := by
  have hcount := c.space.blocks_le h.fits
  have hblocks := scanBlocks_spec (s := s) (W := W) hb hcount
    (D := fun k => s.cards k = .dirty ∧ s.regions (k / kCardsPerRegion) = true)
    (c.space.blockCount s.old) 0 (by omega) (fun k _ hd => hd) (h.restrict (by
      rintro u hlive (hu | ⟨x, j, rfl, hold, hsmall, hcard, hregion⟩)
      · exact .inl hu
      · obtain ⟨_, o, _, ho, _⟩ := hlive
        obtain ⟨i, card, bit, hi, _, hc, hbit, _, rfl⟩ := h.mature_start ho hold hsmall
        refine .inr ⟨_, j, rfl, hold, hsmall, Nat.zero_le _, ?_, hcard, ?_⟩
        · rw [(granule_card c.geo hc hbit).2]
          exact hi
        · rw [cardOf_div]
          exact hregion))
  refine hblocks.mono ?_
  rintro s' ⟨hinv, hkeeps, hcards⟩
  exact ⟨hinv, hkeeps, hcards.weaken fun r hr => Nat.le_trans hcount hr⟩

end Brass.Gc.Heap
