import Brass.Gc.MarkInvariant
import Brass.Gc.MinorResult

/-!
# The mutator in an open cycle

A store makes an exception of the slots that it writes, and its barrier settles them: it
shades the old object that the slot names, or dirties the card that the slot lies behind. An
object that is allocated old is shaded with its card dirty, which settles all of its slots in
advance.
-/

namespace Brass.Gc.Heap

open Function (update_of_ne update_self)

variable {A : Type} {e : Env A Marks} {h h' h'' : HeapState A Marks} {c : Cycle A}
  {inPlace : Bool} {excused excused' : Nat → Nat → Prop} {m m' : Marks} {x : Nat} {o : Obj}
variable {a i y : Nat} {g : Geometry} {old : A}

/-- The survivor space that is copied into next ends above the residents in it. -/
def HeapState.ResidentsBelow (e : Env A Marks) (h : HeapState A Marks) : Prop :=
  ∀ r ∈ h.residents, e.geo.inSurvivor (!h.fromSurvivor) r.1 = true →
    r.1 + r.2 ≤ h.survivorTop (!h.fromSurvivor)

/-- What holds of an open cycle, but for the slots of `W`. -/
structure CycleInv (e : Env A Marks) (W : Nat → Nat → Prop) (c : Cycle A) : Prop where
  wellFormed : c.state.WellFormed e
  residents : c.state.ResidentsBelow e
  remembers : ∀ x o i, c.state.heap x = some o → e.geo.isOld x = true → i ∈ slotsOf e.layouts o →
    e.geo.refers (o.words i) = true → e.geo.isYoung (addressOf (o.words i)) = true →
    Behind e.geo c.state.cards c.state.regions o.size x i ∨ W x i
  marks : MarkInv e c.state false (fun x i => rescanned e c.state x i ∨ W x i) c.state.marks
  fresh : ∀ x ∈ c.fresh, e.geo.isOld x = true ∧ c.state.cards (e.geo.cardOf x) = .dirty ∧
    c.state.regions (e.geo.regionOf x) = true

/-! ## What the invariant depends on -/

theorem Claims.congr (heq : h'.heap = h.heap) (hc : Claims e h inPlace m m') :
    Claims e h' inPlace m m' :=
  { hc with
    claimed := by
      rw [heq]
      exact hc.claimed
    entries := by
      rw [heq]
      exact hc.entries
    work := by
      rw [heq]
      exact hc.work }

theorem MarkInv.congr (heq : h'.heap = h.heap) (hi : MarkInv e h inPlace excused m) :
    MarkInv e h' inPlace excused m where
  objects := by
    rw [heq]
    exact hi.objects
  entries := by
    rw [heq]
    exact hi.entries
  slots := by
    rw [heq]
    exact hi.slots
  lines := by
    rw [heq]
    exact hi.lines

theorem MarkInv.excuse (hi : MarkInv e h inPlace excused m)
    (himp : ∀ x o i, h.heap x = some o → tracked e.geo inPlace x = true →
      e.geo.refers (o.words i) = true → excused x i →
      isMarked e.geo m (addressOf (o.words i)) = true ∨ excused' x i) :
    MarkInv e h inPlace excused' m :=
  { hi with
    slots := by
      intro x o i ho hx hmarked hslot hrefers htarget
      rcases hi.slots x o i ho hx hmarked hslot hrefers htarget with hm | hexc | hp
      · exact .inl hm
      · exact (himp x o i ho hx hrefers hexc).imp_right .inl
      · exact .inr (.inr hp) }

theorem HeapState.WellFormed.cardsOk (hw : h.WellFormed e) :
    CardsOk (e.setup h 0) (startState h 0 [] h.heap []) := ⟨hw.cardRegion, hw.cardLive⟩

theorem HeapState.WellFormed.recard {cards : Nat → Card} {regions : Nat → Bool}
    (hw : h.WellFormed e)
    (hcards : CardsOk (e.setup h 0)
      { startState h 0 [] h.heap [] with cards := cards, regions := regions }) (m : Marks) :
    HeapState.WellFormed e { h with cards := cards, regions := regions, marks := m } :=
  { hw with cardRegion := hcards.region, cardLive := hcards.live }

/-! ## The barrier -/

/-- What a barrier changes: cards are dirtied, and objects shaded. -/
structure Barriered (e : Env A Marks) (h h' : HeapState A Marks) : Prop where
  frame : h' = { h with cards := h'.cards, regions := h'.regions, marks := h'.marks }
  wellFormed : h'.WellFormed e
  dirty : ∀ k, h.cards k = .dirty → h'.cards k = .dirty
  unclean : ∀ k, h.cards k ≠ .clean → h'.cards k ≠ .clean
  regions : ∀ r, h.regions r = true → h'.regions r = true
  claims : Claims e h false h.marks h'.marks

namespace Barriered

theorem refl (hw : h.WellFormed e) : Barriered e h h where
  frame := rfl
  wellFormed := hw
  dirty _ hk := hk
  unclean _ hk := hk
  regions _ hr := hr
  claims := .refl _

section

variable (hb : Barriered e h h')
include hb

theorem heap : h'.heap = h.heap := by
  rw [hb.frame]

theorem trans (hb' : Barriered e h' h'') : Barriered e h h'' where
  frame := by
    rw [hb'.frame, hb.frame]
  wellFormed := hb'.wellFormed
  dirty k hk := hb'.dirty k (hb.dirty k hk)
  unclean k hk := hb'.unclean k (hb.unclean k hk)
  regions r hr := hb'.regions r (hb.regions r hr)
  claims := hb.claims.trans (hb'.claims.congr hb.heap.symm)

theorem behind {size : Nat} (hbehind : Behind e.geo h.cards h.regions size y i) :
    Behind e.geo h'.cards h'.regions size y i := by
  rcases hbehind with ⟨hcard, hregion⟩ | ⟨hlarge, hi, hcard, hregion⟩
  · exact .inl ⟨hb.dirty _ hcard, hb.regions _ hregion⟩
  · exact .inr ⟨hlarge, hi, hb.unclean _ hcard, hb.regions _ hregion⟩

theorem residentsBelow (hr : h.ResidentsBelow e) : h'.ResidentsBelow e := by
  rw [hb.frame]
  exact hr

theorem rescanned (hr : rescanned e h y i) : Heap.rescanned e h' y i := by
  obtain ⟨o, ho, hbehind⟩ := hr
  exact ⟨o, by rw [hb.heap]; exact ho, hb.behind hbehind⟩

end

end Barriered

theorem markCard_barriered {v : Card} (hw : h.WellFormed e) (ho : h.heap x = some o)
    (hold : e.geo.isOld x = true)
    (ha : a = x ∨ (e.geo.inLarge x = true ∧ x ≤ a ∧ a < x + o.size))
    (hv : v = .dirty ∨ (v = .dirtyRange ∧ h.cards (e.geo.cardOf a) ≠ .dirty)) :
    Barriered e h (h.markCard e.geo a v) := by
  have hcards : CardsOk (e.setup h 0) (markCard e.geo a v (startState h 0 [] h.heap [])) :=
    markCard_cardsOk hw.cardsOk hw.fits ho hold (hw.sized x o ho).1 ha
  have honly : OnlyMarks (e.setup h 0) (startState h 0 [] h.heap [])
      (markCard e.geo a v (startState h 0 [] h.heap [])) := markCard_onlyMarks hv
  exact
    { frame := rfl, wellFormed := hw.recard hcards h.marks, dirty := honly.dirty
      unclean := honly.unclean, regions := honly.regions, claims := .refl _ }

theorem markCard_dirty (hw : h.WellFormed e) (ho : h.heap x = some o)
    (hold : e.geo.isOld x = true) :
    Barriered e h (h.markCard e.geo x .dirty) ∧
      (h.markCard e.geo x .dirty).cards (e.geo.cardOf x) = .dirty ∧
      (h.markCard e.geo x .dirty).regions (e.geo.regionOf x) = true :=
  ⟨markCard_barriered hw ho hold (.inl rfl) (.inl rfl), update_self _ _ _, update_self _ _ _⟩

theorem shade_barriered (hw : h.WellFormed e) (a : Nat) : Barriered e h (h.shade e.geo a) := by
  unfold HeapState.shade
  split
  · next hcond =>
    obtain ⟨hold, hsome⟩ := Bool.and_eq_true _ _ ▸ hcond
    exact
      { frame := rfl, wellFormed := hw.recard hw.cardsOk _, dirty := fun _ hk => hk
        unclean := fun _ hk => hk, regions := fun _ hr => hr, claims := shade_claims hold hsome }
  · exact .refl hw

theorem shade_marked (hold : e.geo.isOld a = true) (hsome : (h.heap a).isSome = true) :
    (h.shade e.geo a).marks.marked a = true := by
  unfold HeapState.shade
  rw [if_pos (by rw [hold, hsome]; rfl)]
  exact cycleMarker.marked_shade h.marks a

/-- Whether the object's card is dirty, or that of its payload byte `offset` not clean. -/
def Dirtied (g : Geometry) (h : HeapState A Marks) (x offset : Nat) : Prop :=
  (h.cards (g.cardOf x) = .dirty ∧ h.regions (g.regionOf x) = true) ∨
  (g.inLarge x = true ∧ h.cards (g.cardOf (x + offset)) ≠ .clean ∧
    h.regions (g.regionOf (x + offset)) = true)

theorem Barriered.dirtied (hb : Barriered e h h') {offset : Nat} (hd : Dirtied e.geo h x offset) :
    Dirtied e.geo h' x offset := by
  rcases hd with ⟨hcard, hregion⟩ | ⟨hlarge, hcard, hregion⟩
  · exact .inl ⟨hb.dirty _ hcard, hb.regions _ hregion⟩
  · exact .inr ⟨hlarge, hb.unclean _ hcard, hb.regions _ hregion⟩

theorem Dirtied.behind {offset size : Nat} (hd : Dirtied g h x offset)
    (hcard : g.cardOf (x + kGranuleBytes * i) = g.cardOf (x + offset))
    (hsize : kGranuleBytes * i < size) : Behind g h.cards h.regions size x i := by
  rcases hd with hd | ⟨hlarge, hd⟩
  · exact .inl hd
  · refine .inr ⟨hlarge, hsize, ?_⟩
    rw [hcard, region_of_card hcard]
    exact hd

theorem rememberByte_spec (hw : h.WellFormed e) (ho : h.heap x = some o)
    (hold : e.geo.isOld x = true) (offset : Nat) :
    Barriered e h (h.rememberByte e.geo x offset) ∧
      Dirtied e.geo (h.rememberByte e.geo x offset) x offset := by
  have hwhole := markCard_dirty hw ho hold
  unfold HeapState.rememberByte
  by_cases hlarge : e.geo.inLarge x = true
  · have hsize : ((h.heap x).map (·.size)).getD 0 = o.size := by
      rw [ho]
      rfl
    rw [if_neg (by rw [hlarge]; decide), hsize]
    by_cases hout : offset ≥ o.size
    · rw [if_pos hout]
      exact ⟨hwhole.1, .inl hwhole.2⟩
    · rw [if_neg hout]
      have hin : e.geo.inLarge x = true ∧ x ≤ x + offset ∧ x + offset < x + o.size :=
        ⟨hlarge, by omega, by omega⟩
      have hmark : ∀ v, v ≠ .clean →
          (v = .dirty ∨ (v = .dirtyRange ∧ h.cards (e.geo.cardOf (x + offset)) ≠ .dirty)) →
          Barriered e h (h.markCard e.geo (x + offset) v) ∧
          (h.markCard e.geo (x + offset) v).cards (e.geo.cardOf (x + offset)) ≠ .clean ∧
          (h.markCard e.geo (x + offset) v).regions (e.geo.regionOf (x + offset)) = true := by
        intro v hne hv
        refine ⟨markCard_barriered hw ho hold (.inr hin) hv, ?_, update_self _ _ _⟩
        exact (update_self (e.geo.cardOf (x + offset)) v h.cards).trans_ne hne
      by_cases hfirst : e.geo.cardOf (x + offset) = e.geo.cardOf x
      · rw [if_neg (not_not.mpr hfirst)]
        by_cases hdirty : h.cards (e.geo.cardOf (x + offset)) = .dirty
        · rw [if_neg (not_not.mpr hdirty)]
          have hdirty' : h.cards (e.geo.cardOf x) = .dirty := hfirst ▸ hdirty
          exact ⟨.refl hw, .inl ⟨hdirty', hw.cardRegion x hlarge hdirty'⟩⟩
        · rw [if_pos hdirty]
          obtain ⟨hb, hcard⟩ := hmark .dirtyRange (by simp) (.inr ⟨rfl, hdirty⟩)
          exact ⟨hb, .inr ⟨hlarge, hcard⟩⟩
      · rw [if_pos hfirst]
        obtain ⟨hb, hcard⟩ := hmark .dirty (by simp) (.inl rfl)
        exact ⟨hb, .inr ⟨hlarge, hcard⟩⟩
  · rw [if_pos (by simpa using hlarge)]
    exact ⟨hwhole.1, .inl hwhole.2⟩

theorem rememberBytes_spec (l : List Nat) (hw : h.WellFormed e) (ho : h.heap x = some o)
    (hold : e.geo.isOld x = true) :
    Barriered e h (l.foldl (fun h offset => h.rememberByte e.geo x offset) h) ∧ ∀ offset ∈ l,
        Dirtied e.geo (l.foldl (fun h offset => h.rememberByte e.geo x offset) h) x offset := by
  induction l generalizing h with
  | nil => exact ⟨.refl hw, fun offset hmem => absurd hmem (by simp)⟩
  | cons first l ih =>
    obtain ⟨hb, hd⟩ := rememberByte_spec hw ho hold first
    obtain ⟨hb', hd'⟩ := ih hb.wellFormed (by rw [hb.heap]; exact ho)
    refine ⟨hb.trans hb', fun offset hmem => ?_⟩
    rcases List.mem_cons.mp hmem with rfl | hmem
    · exact hb'.dirtied hd
    · exact hd' offset hmem

/-- Each slot of the range is in the card of one of the bytes. -/
theorem rangeBytes_card {lo hi : Nat} (hx : g.matureLo ≤ x) (hlo : lo ≤ kGranuleBytes * i)
    (hhi : kGranuleBytes * i < hi) :
    ∃ offset ∈ rangeBytes g x (x + lo) (x + hi),
      g.cardOf (x + kGranuleBytes * i) = g.cardOf (x + offset) := by
  have h512 : kCardBytes = 512 := rfl
  refine ⟨max (g.matureLo + kCardBytes * g.cardOf (x + kGranuleBytes * i)) (x + lo) - x, ?_, ?_⟩
  · refine List.mem_map.mpr ⟨g.cardOf (x + kGranuleBytes * i), ?_, rfl⟩
    rw [List.mem_range'_1, cardOf_eq, cardOf_eq, h512]
    omega
  · rw [cardOf_eq, cardOf_eq, h512]
    omega

/-! ## Writing an object -/

section Write

variable {words : Nat → Nat}
variable {w : Nat}

theorem setObject_self (o : Obj) : (h.setObject x o).heap x = some o := update_self ..

theorem setObject_of_ne (hne : y ≠ x) : (h.setObject x o).heap y = h.heap y :=
  update_of_ne hne _ _

theorem setObject_isSome (hsome : (h.heap y).isSome = true) :
    ((h.setObject x o).heap y).isSome = true := by
  by_cases hy : y = x
  · subst hy
    rw [setObject_self]
    rfl
  · rw [setObject_of_ne hy]
    exact hsome

theorem setWords_header (ho : h.heap x = some o) {o' : Obj}
    (ho' : (h.setObject x { o with words := words }).heap y = some o') :
    ∃ o₀, h.heap y = some o₀ ∧ o' = { o₀ with words := o'.words } ∧ (y ≠ x → o' = o₀) := by
  by_cases hy : y = x
  · subst hy
    rw [setObject_self] at ho'
    obtain rfl := Option.some.inj ho'
    exact ⟨o, ho, rfl, fun hne => absurd rfl hne⟩
  · rw [setObject_of_ne hy] at ho'
    exact ⟨o', ho', rfl, fun _ => rfl⟩

theorem HeapState.WellFormed.setWords (hw : h.WellFormed e) (ho : h.heap x = some o)
    (hclosed : Closed e h.heap { o with words := words }) :
    (h.setObject x { o with words := words }).WellFormed e := by
  refine
    { hw with
      closed := ?_, rootsClosed := ?_, sized := ?_, plain := ?_, lies := ?_, apart := ?_
      fits := ?_, cardLive := ?_ }
  · intro y o' ho' i hi hrefers
    apply setObject_isSome
    by_cases hy : y = x
    · subst hy
      rw [setObject_self] at ho'
      obtain rfl := Option.some.inj ho'
      exact hclosed i hi hrefers
    · rw [setObject_of_ne hy] at ho'
      exact hw.closed y o' ho' i hi hrefers
  · intro r hr hrefers
    exact setObject_isSome (hw.rootsClosed r hr hrefers)
  · intro y o' ho'
    obtain ⟨o₀, ho₀, heq, _⟩ := setWords_header ho ho'
    rw [heq]
    exact hw.sized y o₀ ho₀
  · intro y o' ho'
    obtain ⟨o₀, ho₀, heq, _⟩ := setWords_header ho ho'
    rw [heq]
    exact hw.plain y o₀ ho₀
  · intro y o' ho'
    obtain ⟨o₀, ho₀, heq, _⟩ := setWords_header ho ho'
    rw [heq]
    exact hw.lies y o₀ ho₀
  · intro y z oy oz hoy hoz hne
    obtain ⟨o₀, ho₀, heq, _⟩ := setWords_header ho hoy
    obtain ⟨o₁, ho₁, heq', _⟩ := setWords_header ho hoz
    rw [heq, heq']
    exact hw.apart y z o₀ o₁ ho₀ ho₁ hne
  · refine e.space.fits_congr hw.fits fun a _ => ?_
    unfold sizes
    by_cases ha : a = x
    · subst ha
      rw [setObject_self, ho]
      rfl
    · rw [setObject_of_ne ha]
  · intro a ha hcard head hhead
    exact setObject_isSome (hw.cardLive a ha hcard head hhead)

theorem CycleInv.write {S : Nat → Prop} (hi : CycleInv e (fun _ _ => False) c)
    (ho : c.state.heap x = some o) (hclosed : Closed e c.state.heap { o with words := words })
    (hslots : e.geo.isOld x = true → ∀ i ∈ slotsOf e.layouts { o with words := words }, S i ∨
      (i ∈ slotsOf e.layouts o ∧ words i = o.words i)) :
    CycleInv e (fun y i => y = x ∧ S i)
      { c with state := c.state.setObject x { o with words := words } } := by
  -- Each slot is an exception, or was a slot of the same word.
  have hwas : ∀ {y i : Nat} {o' : Obj},
      (c.state.setObject x { o with words := words }).heap y = some o' → e.geo.isOld y = true →
      i ∈ slotsOf e.layouts o' → (y = x ∧ S i) ∨ ∃ o₀, c.state.heap y = some o₀ ∧
        o'.size = o₀.size ∧ o'.layout = o₀.layout ∧ i ∈ slotsOf e.layouts o₀ ∧
        o'.words i = o₀.words i := by
    intro y i o' ho' hold hslot
    by_cases hy : y = x
    · subst hy
      rw [setObject_self] at ho'
      obtain rfl := Option.some.inj ho'
      rcases hslots hold i hslot with hs | ⟨hmem, hword⟩
      · exact .inl ⟨rfl, hs⟩
      · exact .inr ⟨o, ho, rfl, rfl, hmem, hword⟩
    · rw [setObject_of_ne hy] at ho'
      exact .inr ⟨o', ho', rfl, rfl, hslot, rfl⟩
  have hrescanned : ∀ {y i : Nat}, rescanned e c.state y i →
      rescanned e (c.state.setObject x { o with words := words }) y i := by
    rintro y i ⟨o₀, ho₀, hbehind⟩
    by_cases hy : y = x
    · subst hy
      obtain rfl := Option.some.inj (ho.symm.trans ho₀)
      exact ⟨_, setObject_self _, hbehind⟩
    · exact ⟨o₀, (setObject_of_ne hy).trans ho₀, hbehind⟩
  refine
    { wellFormed := hi.wellFormed.setWords ho hclosed, residents := hi.residents, remembers := ?_
      marks := { objects := ?_, entries := ?_, slots := ?_, lines := ?_ }, fresh := hi.fresh }
  · intro y o' i ho' hold hslot hrefers hyoung
    rcases hwas ho' hold hslot with hs | ⟨o₀, ho₀, hsize, _, hmem, hword⟩
    · exact .inr hs
    · rw [hword] at hrefers hyoung
      rw [hsize]
      exact .inl ((hi.remembers y o₀ i ho₀ hold hmem hrefers hyoung).resolve_right id)
  · intro a ha
    exact (hi.marks.objects a ha).imp_right setObject_isSome
  · intro entry hentry
    exact (hi.marks.entries entry hentry).imp_right setObject_isSome
  · intro y o' i ho' hold hmarked hslot hrefers htarget
    rcases hwas ho' hold hslot with hs | ⟨o₀, ho₀, hsize, hlayout, hmem, hword⟩
    · exact .inr (.inl (.inr hs))
    · rw [hword] at hrefers htarget ⊢
      rcases hi.marks.slots y o₀ i ho₀ hold hmarked hmem hrefers htarget with
        hm | hexc | ⟨entry, hentry, hreach⟩
      · exact .inl hm
      · exact .inr (.inl (.inl (hrescanned (hexc.resolve_right id))))
      · exact .inr (.inr ⟨entry, hentry, hreach.congr hsize hlayout⟩)
  · intro y o' ho' hold hsmall hmarked
    obtain ⟨o₀, ho₀, heq, _⟩ := setWords_header ho ho'
    rw [heq]
    exact hi.marks.lines y o₀ ho₀ hold hsmall hmarked

theorem CycleInv.settle {W : Nat → Nat → Prop} (hi : CycleInv e W c) (hb : Barriered e c.state h')
    (hW : ∀ y i o', W y i → h'.heap y = some o' → e.geo.isOld y = true →
      e.geo.refers (o'.words i) = true →
      Behind e.geo h'.cards h'.regions o'.size y i ∨ (e.geo.isOld (addressOf (o'.words i)) = true ∧
          h'.marks.marked (addressOf (o'.words i)) = true)) :
    CycleInv e (fun _ _ => False) { c with state := h' } := by
  refine
    { wellFormed := hb.wellFormed, residents := hb.residentsBelow hi.residents, remembers := ?_
      marks := ((hi.marks.claims hb.claims).congr hb.heap).excuse ?_, fresh := ?_ }
  · intro y o' i ho' hold hslot hrefers hyoung
    have ho'' : c.state.heap y = some o' := by
      rw [← hb.heap]
      exact ho'
    rcases hi.remembers y o' i ho'' hold hslot hrefers hyoung with hbehind | hw
    · exact .inl (hb.behind hbehind)
    · rcases hW y i o' hw ho' hold hrefers with hbehind | ⟨htarget, _⟩
      · exact .inl hbehind
      · rw [Geometry.not_young_of_old htarget] at hyoung
        exact absurd hyoung (by simp)
  · intro y o' i ho' hold hrefers hexc
    rcases hexc with hr | hw
    · exact .inr (.inl (hb.rescanned hr))
    · rcases hW y i o' hw ho' hold hrefers with hbehind | ⟨htarget, hmarked⟩
      · exact .inr (.inl ⟨o', ho', hbehind⟩)
      · refine .inl ?_
        rw [isMarked_old htarget]
        exact hmarked
  · intro y hy
    obtain ⟨hold, hcard, hregion⟩ := hi.fresh y hy
    exact ⟨hold, hb.dirty _ hcard, hb.regions _ hregion⟩

/-! ## The steps of the mutator -/

theorem refers_old (hrefers : g.refers w = true) (hyoung : ¬ g.isYoung (addressOf w) = true) :
    g.isOld (addressOf w) = true :=
  (Geometry.contains_iff_or.mp (Bool.and_eq_true _ _ ▸ hrefers).2).resolve_left hyoung

theorem closed_setWord (hw : h.WellFormed e) (ho : h.heap x = some o)
    (hclosed : e.geo.refers w = true → (h.heap (addressOf w)).isSome = true)
    (hvisible : ∀ j ∈ slotsOf e.layouts (o.setWord i w), j ≠ i → j ∈ slotsOf e.layouts o) :
    Closed e h.heap (o.setWord i w) := by
  intro j hj hrefers
  by_cases hji : j = i
  · subst hji
    have hword : (o.setWord j w).words j = w := update_self _ _ _
    rw [hword] at hrefers ⊢
    exact hclosed hrefers
  · have hword : (o.setWord i w).words j = o.words j := update_of_ne hji _ _
    rw [hword] at hrefers ⊢
    exact hw.closed x o ho j (hvisible j hj hji) hrefers

theorem CycleInv.stored {w i : Nat} (remembered : HeapState A Marks → HeapState A Marks)
    (hi : CycleInv e (fun _ _ => False) c) (ho : c.state.heap x = some o)
    (hold : e.geo.isOld x = true)
    (hclosed : e.geo.refers w = true → (c.state.heap (addressOf w)).isSome = true)
    (hvisible : ∀ j ∈ slotsOf e.layouts (o.setWord i w), j ≠ i → j ∈ slotsOf e.layouts o)
    (hremembered : ∀ h : HeapState A Marks, h.WellFormed e → h.heap x = some (o.setWord i w) →
      Barriered e h (remembered h) ∧
        Behind e.geo (remembered h).cards (remembered h).regions o.size x i) :
    CycleInv e (fun _ _ => False) { c with
      state :=
        if slowStore e.geo x w then
          if e.geo.isYoung (addressOf w) then remembered (c.state.setObject x (o.setWord i w))
          else (c.state.setObject x (o.setWord i w)).shade e.geo (addressOf w)
        else c.state.setObject x (o.setWord i w) } := by
  have hwrite : CycleInv e (fun y j => y = x ∧ j = i)
      { c with state := c.state.setObject x (o.setWord i w) } := by
    refine hi.write ho (closed_setWord hi.wellFormed ho hclosed hvisible) ?_
    intro _ j hj
    by_cases hji : j = i
    · exact .inl hji
    · exact .inr ⟨hvisible j hj hji, update_of_ne hji _ _⟩
  have hslot : ∀ {o' : Obj}, (c.state.setObject x (o.setWord i w)).heap x = some o' →
      o'.size = o.size ∧ o'.words i = w := by
    intro o' ho'
    rw [setObject_self] at ho'
    obtain rfl := Option.some.inj ho'
    exact ⟨rfl, update_self _ _ _⟩
  by_cases hslow : slowStore e.geo x w = true
  · have hrefers : e.geo.refers w = true := (Bool.and_eq_true _ _ ▸ hslow).2
    rw [if_pos hslow]
    by_cases hyoung : e.geo.isYoung (addressOf w) = true
    · rw [if_pos hyoung]
      obtain ⟨hb, hbehind⟩ := hremembered _ hwrite.wellFormed (setObject_self _)
      refine hwrite.settle hb ?_
      rintro _ _ o' ⟨rfl, rfl⟩ ho' _ _
      have ho' := hb.heap ▸ ho'
      rw [(hslot ho').1]
      exact .inl hbehind
    · rw [if_neg hyoung]
      have htarget := refers_old hrefers hyoung
      have hb := shade_barriered hwrite.wellFormed (addressOf w)
      refine hwrite.settle hb ?_
      rintro _ _ o' ⟨rfl, rfl⟩ ho' _ _
      have ho' := hb.heap ▸ ho'
      rw [(hslot ho').2]
      exact .inr ⟨htarget, shade_marked htarget (setObject_isSome (hclosed hrefers))⟩
  · rw [if_neg hslow]
    refine hwrite.settle (.refl hwrite.wellFormed) ?_
    rintro _ _ o' ⟨rfl, rfl⟩ ho' _ hrefers
    rw [(hslot ho').2] at hrefers
    exact absurd (show slowStore e.geo _ w = true by rw [slowStore, hold, hrefers]; rfl) hslow

section

variable (hi : CycleInv e (fun _ _ => False) c) (ho : c.state.heap x = some o)
include hi ho

theorem CycleInv.store (hold : e.geo.isOld x = true)
    (hclosed : e.geo.refers w = true → (c.state.heap (addressOf w)).isSome = true)
    (hvisible : ∀ j ∈ slotsOf e.layouts (o.setWord i w), j ≠ i → j ∈ slotsOf e.layouts o) :
    CycleInv e (fun _ _ => False) { c with
      state := writeBarrier e.geo x w (c.state.setObject x (o.setWord i w)) } :=
  hi.stored (HeapState.markCard e.geo x .dirty) ho hold hclosed hvisible
    fun _ hw ho' =>
      have hdirty := markCard_dirty hw ho' hold
      ⟨hdirty.1, .inl hdirty.2⟩

theorem CycleInv.storeInterior (hold : e.geo.isOld x = true) (hinside : kGranuleBytes * i < o.size)
    (hclosed : e.geo.refers w = true → (c.state.heap (addressOf w)).isSome = true)
    (hvisible : ∀ j ∈ slotsOf e.layouts (o.setWord i w), j ≠ i → j ∈ slotsOf e.layouts o) :
    CycleInv e (fun _ _ => False) { c with
      state := writeBarrierInterior e.geo x (kGranuleBytes * i) w
        (c.state.setObject x (o.setWord i w)) } :=
  hi.stored (HeapState.rememberByte e.geo x (kGranuleBytes * i)) ho hold hclosed
    hvisible fun _ hw ho' =>
      have hdirtied := rememberByte_spec hw ho' hold (kGranuleBytes * i)
      ⟨hdirtied.1, hdirtied.2.behind rfl hinside⟩

theorem CycleInv.bulkWrite {S : Nat → Prop} {remembered : HeapState A Marks → HeapState A Marks}
    (hclosed : Closed e c.state.heap { o with words := words })
    (hslots : ∀ i ∈ slotsOf e.layouts { o with words := words }, S i ∨
      (i ∈ slotsOf e.layouts o ∧ words i = o.words i))
    (hremembered : ∀ h : HeapState A Marks, h.WellFormed e →
      h.heap x = some { o with words := words } → Barriered e h (remembered h) ∧
        (e.geo.isOld x = true → ∀ i, S i →
          Behind e.geo (remembered h).cards (remembered h).regions o.size x i)) :
    CycleInv e (fun _ _ => False) { c with
      state := remembered (c.state.setObject x { o with words := words }) } := by
  have hwrite := hi.write (S := S) ho hclosed fun _ => hslots
  obtain ⟨hb, hbehind⟩ := hremembered _ hwrite.wellFormed (setObject_self _)
  refine hwrite.settle hb ?_
  rintro _ i o' ⟨rfl, hs⟩ ho' hold _
  rw [hb.heap, setObject_self] at ho'
  obtain rfl := Option.some.inj ho'
  exact .inl (hbehind hold i hs)

theorem CycleInv.bulk (hclosed : Closed e c.state.heap { o with words := words }) :
    CycleInv e (fun _ _ => False) { c with
      state := remember e.geo x (c.state.setObject x { o with words := words }) } := by
  refine hi.bulkWrite (S := fun _ => True) ho hclosed (fun _ _ => .inl trivial) ?_
  intro h hw ho'
  unfold remember
  by_cases hold : e.geo.isOld x = true
  · rw [if_pos hold]
    obtain ⟨hb, hdirty⟩ := markCard_dirty hw ho' hold
    exact ⟨hb, fun _ _ _ => .inl hdirty⟩
  · rw [if_neg hold]
    exact ⟨.refl hw, fun htrue => absurd htrue hold⟩

end

theorem CycleInv.bulkRange {lo hi : Nat} (hinv : CycleInv e (fun _ _ => False) c)
    (ho : c.state.heap x = some o) (hclosed : Closed e c.state.heap { o with words := words })
    (houtside : ∀ i, ¬ (lo ≤ kGranuleBytes * i ∧ kGranuleBytes * i < hi) → words i = o.words i)
    (hvisible : ∀ j ∈ slotsOf e.layouts { o with words := words },
      ¬ (lo ≤ kGranuleBytes * j ∧ kGranuleBytes * j < hi) → j ∈ slotsOf e.layouts o) :
    CycleInv e (fun _ _ => False) { c with
      state := rememberRange e.geo x lo hi (c.state.setObject x { o with words := words }) } := by
  refine hinv.bulkWrite (S := fun i => lo ≤ kGranuleBytes * i ∧ kGranuleBytes * i < hi) ho hclosed
    ?_ ?_
  · intro i hslot
    by_cases hin : lo ≤ kGranuleBytes * i ∧ kGranuleBytes * i < hi
    · exact .inl hin
    · exact .inr ⟨hvisible i hslot hin, houtside i hin⟩
  · intro h hw ho'
    have hsize : ((h.heap x).map (·.size)).getD 0 = o.size := by
      rw [ho']
      rfl
    unfold rememberRange
    by_cases hold : e.geo.isOld x = true
    · rw [if_neg (by rw [hold]; decide), hsize]
      split
      · obtain ⟨hb, hdirty⟩ := markCard_dirty hw ho' hold
        exact ⟨hb, fun _ _ _ => .inl hdirty⟩
      · next hinside =>
        rw [Bool.or_eq_true, decide_eq_true_eq, not_or] at hinside
        obtain ⟨hb, hdirtied⟩ := rememberBytes_spec
          (rangeBytes e.geo x (x + lo) (x + hi)) hw ho' hold
        refine ⟨hb, fun _ i ⟨hlo, hhi⟩ => ?_⟩
        obtain ⟨offset, hmem, hcard⟩ := rangeBytes_card (g := e.geo) (x := x)
          (Geometry.isOld_iff.mp hold).1 hlo hhi
        exact (hdirtied offset hmem).behind hcard (by omega)
    · rw [if_pos (by simpa using hold)]
      exact ⟨.refl hw, fun htrue => absurd htrue hold⟩

/-- A store without a barrier, into a young object or one whose card is dirty since it was
allocated. -/
theorem CycleInv.fill (hi : CycleInv e (fun _ _ => False) c) (ho : c.state.heap x = some o)
    (hunbarriered : e.geo.isYoung x = true ∨ x ∈ c.fresh)
    (hclosed : Closed e c.state.heap { o with words := words }) :
    CycleInv e (fun _ _ => False)
      { c with state := c.state.setObject x { o with words := words } } := by
  have hwrite := hi.write (S := fun _ => True) ho hclosed fun _ _ _ => .inl trivial
  refine hwrite.settle (.refl hwrite.wellFormed) ?_
  rintro _ i o' ⟨rfl, _⟩ _ hold _
  rcases hunbarriered with hyoung | hfresh
  · rw [Geometry.not_young_of_old hold] at hyoung
    exact absurd hyoung (by simp)
  · exact .inl (.inl (hi.fresh _ hfresh).2)

theorem CycleInv.setRoots {roots : List Root} (hi : CycleInv e (fun _ _ => False) c)
    (hclosed : ∀ r ∈ roots, e.geo.refers (r.word e.geo) = true →
      (c.state.heap (addressOf (r.word e.geo))).isSome = true) :
    CycleInv e (fun _ _ => False) { c with state := { c.state with roots := roots } } where
  wellFormed := { hi.wellFormed with rootsClosed := hclosed }
  residents := hi.residents
  remembers := hi.remembers
  marks := hi.marks.congr
    (show ({ c.state with roots := roots } : HeapState A Marks).heap = c.state.heap from rfl)
  fresh := hi.fresh

theorem CycleInv.shadeReference (hi : CycleInv e (fun _ _ => False) c) :
    CycleInv e (fun _ _ => False) { c with state := shadeReference e.geo w c.state } := by
  refine hi.settle ?_ fun _ _ _ hf => hf.elim
  unfold Heap.shadeReference
  split
  · exact shade_barriered hi.wellFormed _
  · exact .refl hi.wellFormed

end Write

/-! ## Allocation -/

theorem Apart.irrefl {n k : Nat} : ¬ Apart a n a k := by
  unfold Apart
  rw [show kHeaderBytes = 8 from rfl]
  omega

theorem MarkInv.insert (hi : MarkInv e h false excused m) (hnone : h.heap x = none)
    (hheap : h'.heap = (h.setObject x o).heap)
    (hexc : ∀ y i, y ≠ x → excused y i → excused' y i) : MarkInv e h' false excused' m := by
  have hsome : ∀ {y : Nat}, (h.heap y).isSome = true → (h'.heap y).isSome = true := by
    intro y hy
    rw [hheap]
    exact setObject_isSome hy
  have hwas : ∀ {y : Nat} {o' : Obj}, h'.heap y = some o' → e.geo.isOld y = true →
      isMarked e.geo m y = true → y ≠ x ∧ h.heap y = some o' := by
    intro y o' ho' hold hmarked
    have hne : y ≠ x := by
      rintro rfl
      rw [isMarked_old hold] at hmarked
      have habs := (hi.objects y hmarked).2
      rw [hnone] at habs
      exact absurd habs (by simp)
    rw [hheap, setObject_of_ne hne] at ho'
    exact ⟨hne, ho'⟩
  refine { objects := ?_, entries := ?_, slots := ?_, lines := ?_ }
  · intro a ha
    exact (hi.objects a ha).imp_right hsome
  · intro entry hentry
    exact (hi.entries entry hentry).imp_right hsome
  · intro y o' i ho' hold hmarked hslot hrefers htarget
    obtain ⟨hne, ho₀⟩ := hwas ho' hold hmarked
    rcases hi.slots y o' i ho₀ hold hmarked hslot hrefers htarget with hm | hex | hp
    · exact .inl hm
    · exact .inr (.inl (hexc y i hne hex))
    · exact .inr (.inr hp)
  · intro y o' ho' hold hsmall hmarked
    obtain ⟨_, ho₀⟩ := hwas ho' hold (by rw [isMarked_old hold]; exact hmarked)
    exact hi.lines y o' ho₀ hold hsmall hmarked

theorem HeapState.WellFormed.insert {old : A} {edenEnd : Nat} (hw : h.WellFormed e)
    (hnew : o.Fresh) (hclosed : Closed e h.heap o)
    (hapart : ∀ y oy, h.heap y = some oy → Apart x o.size y oy.size)
    (heden : h.edenEnd ≤ edenEnd) (hend : edenEnd ≤ e.geo.edenHi)
    (hlies : Lies e.geo { h with edenEnd := edenEnd } x o)
    (hfits : e.space.Fits old (sizes (h.setObject x o).heap))
    (hhead : ∀ p head, e.space.pageHead old p = some head →
      e.space.pageHead h.old p = some head ∨ e.geo.largeObjectAt head = x) :
    HeapState.WellFormed e { h.setObject x o with old := old, edenEnd := edenEnd } := by
  have hsome : ∀ {y : Nat}, (h.heap y).isSome = true →
      ((h.setObject x o).heap y).isSome = true := setObject_isSome
  have hcases : ∀ {y : Nat} {oy : Obj}, (h.setObject x o).heap y = some oy →
      (y = x ∧ oy = o) ∨ (y ≠ x ∧ h.heap y = some oy) := by
    intro y oy hoy
    by_cases hy : y = x
    · subst hy
      rw [setObject_self] at hoy
      exact .inl ⟨rfl, (Option.some.inj hoy).symm⟩
    · rw [setObject_of_ne hy] at hoy
      exact .inr ⟨hy, hoy⟩
  refine
    { hw with
      closed := ?_, rootsClosed := fun r hr hrefers => hsome (hw.rootsClosed r hr hrefers)
      sized := ?_, plain := ?_, lies := ?_, apart := ?_, fits := hfits, cardLive := ?_
      edenEnd := hend }
  · intro y oy hoy i hi hrefers
    rcases hcases hoy with ⟨rfl, rfl⟩ | ⟨_, hoy⟩
    · exact hsome (hclosed i hi hrefers)
    · exact hsome (hw.closed y oy hoy i hi hrefers)
  · intro y oy hoy
    rcases hcases hoy with ⟨rfl, rfl⟩ | ⟨_, hoy⟩
    · exact ⟨hnew.least, hnew.granules⟩
    · exact hw.sized y oy hoy
  · intro y oy hoy
    rcases hcases hoy with ⟨rfl, rfl⟩ | ⟨_, hoy⟩
    · exact ⟨hnew.forwarded, hnew.pinned⟩
    · exact hw.plain y oy hoy
  · intro y oy hoy
    rcases hcases hoy with ⟨rfl, rfl⟩ | ⟨_, hoy⟩
    · exact hlies
    · exact (hw.lies y oy hoy).imp_left fun hl => ⟨hl.1, Nat.le_trans hl.2 heden⟩
  · intro y z oy oz hoy hoz hne
    rcases hcases hoy with ⟨rfl, rfl⟩ | ⟨_, hoy'⟩ <;>
      rcases hcases hoz with ⟨rfl, rfl⟩ | ⟨_, hoz'⟩
    · exact absurd rfl hne
    · exact hapart z oz hoz'
    · exact (hapart y oy hoy').symm
    · exact hw.apart y z oy oz hoy' hoz' hne
  · intro a ha hcard head hpage
    rcases hhead _ head hpage with hwas | hnew
    · exact hsome (hw.cardLive a ha hcard head hwas)
    · show ((h.setObject x o).heap (e.geo.largeObjectAt head)).isSome = true
      rw [hnew, setObject_self]
      rfl

theorem CycleInv.insert {edenEnd : Nat} (hi : CycleInv e (fun _ _ => False) c)
    (hnone : c.state.heap x = none)
    (hw : HeapState.WellFormed e { c.state.setObject x o with old := old, edenEnd := edenEnd }) :
    CycleInv e (fun y _ => y = x) { c with
      state := { c.state.setObject x o with old := old, edenEnd := edenEnd } } := by
  refine
    { wellFormed := hw, residents := hi.residents, remembers := ?_
      marks := hi.marks.insert hnone rfl ?_, fresh := hi.fresh }
  · intro y oy i hoy hold hslot hrefers hyoung
    by_cases hy : y = x
    · exact .inr hy
    · have hoy' : (c.state.setObject x o).heap y = some oy := hoy
      rw [setObject_of_ne hy] at hoy'
      exact .inl ((hi.remembers y oy i hoy' hold hslot hrefers hyoung).resolve_right id)
  · rintro y i hy (⟨oy, hoy, hbehind⟩ | hf)
    · exact .inl ⟨oy, (setObject_of_ne hy).trans hoy, hbehind⟩
    · exact hf.elim

theorem CycleInv.allocateYoung (hi : CycleInv e (fun _ _ => False) c) (hnew : o.Fresh)
    (hroom : e.geo.edenLo + kHeaderBytes ≤ x ∧ x + o.size ≤ e.geo.edenHi)
    (hapart : ∀ y oy, c.state.heap y = some oy → Apart x o.size y oy.size)
    (hclosed : Closed e c.state.heap o) :
    CycleInv e (fun _ _ => False) { c with
      state := { c.state.setObject x o with edenEnd := max c.state.edenEnd (x + o.size) } } := by
  have hnone : c.state.heap x = none := by
    cases hx : c.state.heap x with
    | none => rfl
    | some ox => exact absurd (hapart x ox hx) Apart.irrefl
  have hnot : e.geo.isOld x = false := by
    have h1 : e.geo.edenHi = e.geo.base + e.geo.edenBytes := rfl
    have h2 : e.geo.matureLo = e.geo.base + e.geo.edenBytes + 2 * e.geo.survivorBytes := rfl
    have h8 : kGranuleBytes = 8 := rfl
    have h9 := hnew.least
    rw [Bool.eq_false_iff, Ne, Geometry.isOld_iff]
    omega
  have hinsert : CycleInv e (fun y _ => y = x) { c with
      state := { c.state.setObject x o with
        old := c.state.old, edenEnd := max c.state.edenEnd (x + o.size) } } := by
    refine hi.insert hnone (hi.wellFormed.insert hnew hclosed hapart (Nat.le_max_left _ _)
      (Nat.max_le.mpr ⟨hi.wellFormed.edenEnd, hroom.2⟩) (.inl ⟨hroom.1, Nat.le_max_right _ _⟩) ?_
      fun _ _ hhead => .inl hhead)
    refine e.space.fits_congr hi.wellFormed.fits fun a hold => ?_
    unfold sizes
    rw [setObject_of_ne]
    rintro rfl
    rw [hnot] at hold
    exact absurd hold (by simp)
  refine hinsert.settle (.refl hinsert.wellFormed) ?_
  rintro y i oy rfl _ hold _
  rw [hnot] at hold
  exact absurd hold (by simp)

theorem CycleInv.allocateOld {dest : Nat} (hi : CycleInv e (fun _ _ => False) c) (hnew : o.Fresh)
    (hallocate : e.space.allocate c.state.old (kHeaderBytes + o.size) = some (dest, old))
    (hclosed : Closed e c.state.heap o) :
    CycleInv e (fun _ _ => False)
      { state := allocatedOld e.geo (dest + kHeaderBytes)
          { c.state.setObject (dest + kHeaderBytes) o with
            old := e.space.noteLargeAllocated old dest }
        fresh := (dest + kHeaderBytes) :: c.fresh } := by
  have h8 : kGranuleBytes = 8 := rfl
  have hh : kHeaderBytes = 8 := rfl
  have hleast := hnew.least
  have hgranules : (kHeaderBytes + o.size) % kGranuleBytes = 0 := by
    have := hnew.granules
    rw [h8] at this ⊢
    omega
  have htotal : kHeaderBytes + o.size - kHeaderBytes = o.size := by omega
  have hfits := e.space.allocate_fits hi.wellFormed.fits (by omega) hgranules hallocate
  obtain ⟨hlo, hhi, hapartOld⟩ := e.space.allocate_apart hi.wellFormed.fits (by omega) hgranules
    hallocate
  rw [htotal] at hfits hapartOld
  have hold : e.geo.isOld (dest + kHeaderBytes) = true := by
    rw [Geometry.isOld_iff]
    omega
  have hapart : ∀ y oy, c.state.heap y = some oy → Apart (dest + kHeaderBytes) o.size y oy.size := by
    intro y oy hoy
    rcases hi.wellFormed.bounds hoy with hb | ⟨hy, _⟩
    · exact .inr (by omega)
    · exact hapartOld y oy.size hy (by simp [sizes, hoy])
  have hnone : c.state.heap (dest + kHeaderBytes) = none := by
    cases hx : c.state.heap (dest + kHeaderBytes) with
    | none => rfl
    | some ox => exact absurd (hapart _ ox hx) Apart.irrefl
  have hinsert : CycleInv e (fun y _ => y = dest + kHeaderBytes) { c with
      state := { c.state.setObject (dest + kHeaderBytes) o with
        old := e.space.noteLargeAllocated old dest, edenEnd := c.state.edenEnd } } := by
    refine hi.insert hnone (hi.wellFormed.insert hnew hclosed hapart (Nat.le_refl _)
      hi.wellFormed.edenEnd (.inr (.inr (.inr ⟨hold, by omega⟩))) ?_ fun p head hhead =>
      e.space.allocate_head hi.wellFormed.fits (by omega) hgranules hallocate hhead)
    refine e.space.fits_congr hfits fun a _ => ?_
    unfold sizes
    by_cases ha : a = dest + kHeaderBytes
    · subst ha
      rw [setObject_self, update_self]
      rfl
    · rw [setObject_of_ne ha, update_of_ne ha]
  have hshade := shade_barriered hinsert.wellFormed (dest + kHeaderBytes)
  obtain ⟨hb, hdirty⟩ := markCard_dirty (x := dest + kHeaderBytes) (o := o) hshade.wellFormed
    (by rw [hshade.heap]; exact setObject_self _) hold
  have hsettled := hinsert.settle (hshade.trans hb) (by
    rintro y i oy rfl _ _ _
    exact .inl (.inl hdirty))
  exact
    { hsettled with
      fresh := by
        intro y hy
        rcases List.mem_cons.mp hy with rfl | hy
        · exact ⟨hold, hdirty⟩
        · exact hsettled.fresh y hy }

end Brass.Gc.Heap
