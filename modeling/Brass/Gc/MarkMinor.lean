import Brass.Gc.MarkMutator

/-!
# The minor collection in an open cycle

A shading minor collection cleans cards, moves young objects and promotes some. Every slot
that lay behind a dirty card is visited by it, and the old object that the slot names is
shaded; what it promotes is shaded, and so is scanned later. No other slot of a marked object
names another object than before.
-/

namespace Brass.Gc.Heap

variable {A : Type} {e : Env A Marks} {h h' : HeapState A Marks} {c : Cycle A}
  {W : Nat → Nat → Prop} {m m' : Marks} {stackObjects : List Nat}

def kMaxMediumObjectBytes : Nat := 8 * 1024

/-- What a marking cycle relies on: minor collections shade for it, a custom layout's range
function visits what lies outside the payload with the range at offset 0, and what does not
fit a medium object is allocated large. -/
structure Env.Marking (e : Env A Marks) : Prop where
  marker : e.marker = cycleMarker
  shade : e.shade = true
  scansOutside : ∀ id, (e.layouts id).ScansOutside
  medium : ∀ {s sizes a n}, e.space.Fits s sizes → e.geo.isOld a = true →
    e.geo.inLarge a = false → sizes a = some n → kHeaderBytes + n ≤ kMaxMediumObjectBytes

/-! ## The tenure age -/

theorem Env.Marking.retenure (hm : e.Marking) (tenureAge : Nat) :
    Env.Marking { e with tenureAge := tenureAge } :=
  { marker := hm.marker, shade := hm.shade, scansOutside := hm.scansOutside, medium := hm.medium }

theorem CycleInv.retenure (hi : CycleInv e W c) (tenureAge : Nat) :
    CycleInv { e with tenureAge := tenureAge } W c where
  wellFormed := { hi.wellFormed with }
  residents := hi.residents
  remembers := hi.remembers
  marks := { hi.marks with }
  fresh := hi.fresh

/-! ## The collection -/

theorem CycleInv.remembered (hi : CycleInv e (fun _ _ => False) c) : c.state.Remembers e :=
  fun x o i ho hold hslot hrefers hyoung =>
    (hi.remembers x o i ho hold hslot hrefers hyoung).resolve_right id

theorem Shades.claims {span : Nat} {heap : Nat → Option Obj} (hmarker : e.marker = cycleMarker)
    (hs : Shades (e.setup h span) heap m m')
    (hheap : ∀ a, e.geo.isOld a = true → (heap a).isSome = true → (h'.heap a).isSome = true) :
    Claims e h' false m m' := by
  induction hs with
  | refl => exact .refl m
  | @shade m₁ a _ hold hsome ih =>
    refine ih.trans ?_
    show Claims e h' false m₁ (e.marker.shade m₁ a)
    rw [hmarker]
    exact shade_claims hold (hheap a hold hsome)

section Done

variable {frags : List YoungFragment} {span : Nat} {want : Nat → Nat → Prop} {s : State A Marks}
  (d : Done e h stackObjects frags span want s)

include d

/-- An old object stays, and so does a slot of it that names an old object. -/
theorem Done.old_stays {x : Nat} {o : Obj} (ho : h.heap x = some o) (hold : e.geo.isOld x = true) :
    ∃ o', (reclaimYoung (e.setup h span) (pinnedOf e h span stackObjects) s).heap x = some o' ∧
      Stands e (movedTo s.heap) o o' ∧
      Place (e.setup h span) (startHeap e h span stackObjects) s.heap x x ∧
      ∀ i ∈ slotsOf e.layouts o, e.geo.refers (o'.words i) = e.geo.refers (o.words i) ∧
        (e.geo.refers (o.words i) = true → e.geo.isOld (addressOf (o.words i)) = true →
          addressOf (o'.words i) = addressOf (o.words i)) := by
  have hplace : ∀ {y : Nat}, (h.heap y).isSome = true → e.geo.isOld y = true →
      Place (e.setup h span) (startHeap e h span stackObjects) s.heap y y := by
    intro y hsome hy
    refine .stays (pinHeap_isSome.trans hsome) fun hmoves => ?_
    have hyoung : e.geo.isYoung y = true := hmoves.young d.base
    rw [Geometry.not_young_of_old hy] at hyoung
    exact absurd hyoung (by simp)
  have hx := hplace (by rw [ho]; rfl) hold
  obtain ⟨o', ho', hstands, hfollows⟩ := d.stands ho hx
  refine ⟨o', ho', hstands, hx, fun i hi => ⟨(hfollows i hi).refers, fun hrefers htarget => ?_⟩⟩
  rw [(hfollows i hi).address hrefers]
  exact d.inv.movedTo_eq (hplace (d.wellFormed.closed x o ho i hi hrefers) htarget)

theorem Done.residentsBelow : HeapState.ResidentsBelow e
    (reclaimYoung (e.setup h span) (pinnedOf e h span stackObjects) s) := by
  intro r hr hin
  have hin' : e.geo.inSurvivor (!(!h.fromSurvivor)) r.1 = true := hin
  rw [Bool.not_not] at hin'
  have hend := (le_lastEnd d.residents_ascending (fun r _ hr => (Geometry.inSurvivor_iff.mp hr).1) :
    e.geo.survivorLo h.fromSurvivor ≤
      lastEnd (e.geo.inSurvivor h.fromSurvivor) (e.geo.survivorLo h.fromSurvivor) _ ∧ _)
  refine Nat.le_trans (hend.2 r hr hin') (Nat.le_of_eq ?_)
  exact (if_pos (Bool.not_not h.fromSurvivor)).symm

end Done

theorem CycleInv.minor (hm : e.Marking) (hi : CycleInv e (fun _ _ => False) c)
    (hnames : c.state.Names stackObjects) (hcollect : collectMinor e stackObjects c.state = .ok h') :
    CycleInv e (fun _ _ => False) { state := h', fresh := [] } := by
  have hr := hi.remembered
  obtain ⟨frags, span, s, hok, d⟩ : ∃ frags span s, collectMinor e stackObjects c.state =
      .ok (reclaimYoung (e.setup c.state span) (pinnedOf e c.state span stackObjects) s) ∧
      Done e c.state stackObjects frags span (rescanned e c.state) s := by
    rcases collectMinor_done e stackObjects c.state hi.wellFormed hr hnames with herror | hdone
    · rw [herror] at hcollect
      exact absurd hcollect (by simp)
    · exact hdone
  rw [hok] at hcollect
  obtain rfl := Except.ok.inj hcollect
  have hleft : ∀ {x : Nat}, e.geo.isOld x = true →
      (reclaimYoung (e.setup c.state span) (pinnedOf e c.state span stackObjects) s).heap x =
        s.heap x := fun hold => d.left_old hold
  have hclaims : Claims e
      (reclaimYoung (e.setup c.state span) (pinnedOf e c.state span stackObjects) s) false
      c.state.marks s.marks :=
    d.shades.claims hm.marker fun a hold hsome => by
      rw [hleft hold]
      exact hsome
  have hkept : ∀ {a : Nat}, e.geo.isOld a = true → (c.state.heap a).isSome = true →
      ((reclaimYoung (e.setup c.state span) (pinnedOf e c.state span stackObjects) s).heap
        a).isSome = true := by
    intro a hold hsome
    obtain ⟨o, ho⟩ := Option.isSome_iff_exists.mp hsome
    obtain ⟨o', ho', _⟩ := d.old_stays ho hold
    rw [ho']
    rfl
  refine
    { wellFormed := d.leaves
      residents := d.residentsBelow
      remembers := fun x o i ho hold hslot hrefers hyoung =>
        .inl (d.remembers x o i ho hold hslot hrefers hyoung)
      marks := { objects := ?_, entries := ?_, slots := ?_, lines := ?_ }
      fresh := fun x hx => absurd hx (by simp) }
  · intro a ha
    rcases hclaims.claimed a ha with hwas | ⟨hold, hsome, _⟩
    · obtain ⟨hold, hsome⟩ := hi.marks.objects a hwas
      exact ⟨hold, hkept hold hsome⟩
    · exact ⟨hold, hsome⟩
  · intro entry hentry
    rcases hclaims.entries entry hentry with hwas | hnew
    · obtain ⟨hold, hsome⟩ := hi.marks.entries entry hwas
      exact ⟨hold, hkept hold hsome⟩
    · exact hnew
  · intro x o' i ho' hold hmarked hslot hrefers htarget
    have hmarked' : s.marks.marked x = true := by
      rw [← isMarked_old (g := e.geo) hold]
      exact hmarked
    rcases hclaims.claimed x hmarked' with hwas | ⟨_, _, hgrey⟩
    · -- An object that was marked is where it was.
      obtain ⟨o, ho⟩ := Option.isSome_iff_exists.mp (hi.marks.objects x hwas).2
      obtain ⟨o₁, ho₁, hstands, hplace, hslots⟩ := d.old_stays ho hold
      obtain rfl := Option.some.inj (ho'.symm.trans ho₁)
      rw [hstands.slotsOf] at hslot
      obtain ⟨hrefersEq, hstays⟩ := hslots i hslot
      have hrefers₀ : e.geo.refers (o.words i) = true := hrefersEq.symm.trans hrefers
      have hnotYoung : e.geo.isYoung (addressOf (o'.words i)) = false :=
        Geometry.not_young_of_old htarget
      by_cases hbehind : Behind e.geo c.state.cards c.state.regions o.size x i
      · -- The collection visited the slot.
        have hos : s.heap x = some o' := (hleft hold).symm.trans ho'
        have hset := d.settled (u := .field x i) ⟨x, o', hplace, hos, by
          rw [show slotsOf (e.setup c.state span).layouts o' = slotsOf e.layouts o from
            hstands.slotsOf]
          exact hslot⟩
        have hread : readSlot (e.setup c.state span) s (.field x i) = o'.words i := by
          simp only [readSlot, hos]
          rfl
        have hshaded := hset.shaded x i rfl hm.shade ⟨o, ho, hbehind⟩ hold
        rw [hread] at hshaded
        have hmark : e.marker.Marked s.marks (addressOf (o'.words i)) := hshaded hrefers hnotYoung
        rw [hm.marker] at hmark
        refine .inl ?_
        rw [isMarked_old htarget]
        exact hmark
      · -- The slot names what it named, which is old.
        have hold₀ : e.geo.isOld (addressOf (o.words i)) = true :=
          refers_old hrefers₀ fun hyoung => hbehind (hr x o i ho hold hslot hrefers₀ hyoung)
        rw [hstays hrefers₀ hold₀]
        rcases hi.marks.slots x o i ho hold (by rw [isMarked_old hold]; exact hwas) hslot hrefers₀
          hold₀ with hmark | hexc | hp
        · exact .inl (hclaims.isMarked hmark)
        · obtain ⟨o₂, ho₂, hb⟩ := hexc.resolve_right id
          obtain rfl := Option.some.inj (ho.symm.trans ho₂)
          exact absurd hb hbehind
        · obtain ⟨entry, hentry, hreach⟩ := hp
          exact .inr (.inr ⟨entry, hclaims.kept entry hentry,
            hreach.congr hstands.size hstands.layout⟩)
    · exact .inr (.inr ⟨.object x, hgrey, rfl⟩)
  · intro x o' ho' hold hsmall hmarked
    rcases hclaims.claimed x hmarked with hwas | ⟨_, _, hgrey⟩
    · obtain ⟨o, ho⟩ := Option.isSome_iff_exists.mp (hi.marks.objects x hwas).2
      obtain ⟨o₁, ho₁, hstands, _⟩ := d.old_stays ho hold
      obtain rfl := Option.some.inj (ho'.symm.trans ho₁)
      rw [hstands.size]
      refine (hi.marks.lines x o ho hold hsmall hwas).imp (hclaims.kept _) fun hlines l hf hl => ?_
      show s.marks.line l = true
      rw [hclaims.line]
      exact hlines l hf hl
    · exact .inl hgrey

/-! ## Every step -/

section

variable (hm : e.Marking) (hi : CycleInv e (fun _ _ => False) c)
include hm hi

theorem CycleInv.slice
    {schedule : List Nat} (hslice : runSlice e c.state schedule c.state.marks = .ok m) :
    CycleInv e (fun _ _ => False) { c with state := { c.state with marks := m } } := by
  obtain ⟨m', hok, hinv⟩ := runSlice_spec hi.wellFormed hm.scansOutside schedule hi.marks
  rw [hslice] at hok
  obtain rfl := Except.ok.inj hok
  exact
    { wellFormed := hi.wellFormed.recard hi.wellFormed.cardsOk m, residents := hi.residents
      remembers := hi.remembers
      marks := hinv.congr
        (show ({ c.state with marks := m } : HeapState A Marks).heap = c.state.heap from rfl)
      fresh := hi.fresh }

theorem CycleInv.step {c' : Cycle A} (hs : Step e c c') : CycleInv e (fun _ _ => False) c' := by
  cases hs with
  | store hobject hold hclosed hvisible => exact hi.store hobject hold hclosed hvisible
  | storeInterior hobject hold hinside hclosed hvisible =>
    exact hi.storeInterior hobject hold hinside hclosed hvisible
  | bulk hobject hclosed => exact hi.bulk hobject hclosed
  | bulkRange hobject hclosed houtside hvisible =>
    exact hi.bulkRange hobject hclosed houtside hvisible
  | fill hobject hunbarriered hclosed => exact hi.fill hobject hunbarriered hclosed
  | roots hclosed => exact hi.setRoots hclosed
  | shadeReference => exact hi.shadeReference
  | allocateYoung hheader hroom hapart hclosed => exact hi.allocateYoung hheader hroom hapart hclosed
  | allocateOld hheader hallocate hclosed => exact hi.allocateOld hheader hallocate hclosed
  | slice hslice => exact hi.slice hm hslice
  | minor hnames hcollect =>
    exact ((hi.retenure _).minor (hm.retenure _) hnames hcollect).retenure e.tenureAge

theorem CycleInv.run {c' : Cycle A}
    (hrun : Relation.ReflTransGen (Step e) c c') : CycleInv e (fun _ _ => False) c' := by
  induction hrun with
  | refl => exact hi
  | tail _ hstep ih => exact ih.step hm hstep

end

/-! ## The start -/

theorem startCycle_spec (hw : h.WellFormed e) (hb : h.ResidentsBelow e) (hr : h.Remembers e)
    (hnames : h.Names stackObjects) :
    ∃ h', startCycle e stackObjects h = .ok h' ∧
      CycleInv e (fun _ _ => False) { state := h', fresh := [] } := by
  obtain ⟨m, hok, hclaims, _⟩ := markRoots_spec false hw hnames .clear
  have hclear : MarkInv e h false (fun x i => rescanned e h x i ∨ False) Marks.clear :=
    { objects := fun a ha => absurd ha (by simp [Marks.clear])
      entries := fun entry hentry => absurd hentry (by simp [Marks.clear])
      slots := fun x o i _ hold hmarked => by
        rw [isMarked_old hold] at hmarked
        exact absurd hmarked (by simp [Marks.clear])
      lines := fun x o _ _ _ hmarked => absurd hmarked (by simp [Marks.clear]) }
  refine ⟨{ h with marks := m }, ?_, ?_⟩
  · simp only [startCycle, hok]
  · exact
      { wellFormed := hw.recard hw.cardsOk m
        residents := hb
        remembers := fun x o i ho hold hslot hrefers hyoung =>
          .inl (hr x o i ho hold hslot hrefers hyoung)
        marks := (hclear.claims hclaims).congr
          (show ({ h with marks := m } : HeapState A Marks).heap = h.heap from rfl)
        fresh := fun x hx => absurd hx (by simp) }

end Brass.Gc.Heap
