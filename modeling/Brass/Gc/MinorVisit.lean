import Brass.Gc.MinorCopy

/-!
# Visiting a slot

A visit settles its slot and keeps the rest of the invariant. A scan of an object is a visit
of each of its slots, and the scan of a copy inside a visit is a scan of a smaller depth, so
the two are proved together by induction on the depth.
-/

namespace Brass.Gc.Heap

open List Option

variable {A M : Type} {c : Setup A M} {H : Nat → Option Obj} {R : List Root}
  {want : Nat → Nat → Prop} {W : Slot → Prop} {s s' : State A M}
variable {slot : Slot} {t : Tracer} {x : Nat} {nested : Option (Scan A M)} {o : Obj}

/-- A step that ends in a state as `P` says, or finds the old generation exhausted. -/
def Ends (r : Except Fatal (State A M)) (P : State A M → Prop) : Prop :=
  match r with
  | .error e => e = .oldExhausted
  | .ok s => P s

theorem Ends.mono {r : Except Fatal (State A M)} {P Q : State A M → Prop} (h : Ends r P)
    (himp : ∀ s, P s → Q s) : Ends r Q := by
  cases r with
  | error e => exact h
  | ok s => exact himp s h

def Owns (c : Setup A M) (t : Tracer) : Slot → Prop
  | .field x _ => t.owner = x ∧ t.ownerOld = c.geo.isOld x
  | _ => t.ownerOld = false

def without (W : Slot → Prop) (slot : Slot) (u : Slot) : Prop := W u ∧ u ≠ slot

/-- The slots that still have to be visited, and are not settled, may be named anew. -/
theorem Inv.imp {W' : Slot → Prop} (h : Inv c H R want W s)
    (himp : ∀ u, Live c H s u → W u → Settled c H want s u ∨ W' u) : Inv c H R want W' s := by
  refine { toShape := h.toShape, toCardsOk := h.toCardsOk, slots := ?_ }
  intro u hu
  rcases h.slots u hu with hs | hg | hw
  · exact .inl hs
  · exact .inr (.inl hg)
  · exact (himp u hu hw).imp_right .inr

theorem Inv.settle (h : Inv c H R want W s) (hset : Live c H s slot → Settled c H want s slot) :
    Inv c H R want (without W slot) s := by
  refine h.imp fun u hu hw => ?_
  by_cases heq : u = slot
  · subst heq
    exact .inl (hset hu)
  · exact .inr ⟨hw, heq⟩

theorem Inv.weaken {W' : Slot → Prop} (h : Inv c H R want W s) (himp : ∀ u, W u → W' u) :
    Inv c H R want W' s :=
  h.imp fun u _ hw => .inr (himp u hw)

/-- The last step of a visit settles the slot. -/
theorem rememberYoung_spec {t : Tracer} {slot : Slot} {now : Nat} (hb : Base c H R)
    (h : Inv c H R want W s) (hl : Live c H s slot) (hown : Owns c t slot)
    (hnow : addressOf (readSlot c s slot) = now)
    (htarget : c.geo.refers (readSlot c s slot) = true → ¬ Moves c H now)
    (hshaded : c.shade = true → c.geo.refers (readSlot c s slot) = true →
      c.geo.isYoung now = false → t.ownerOld = true → c.marker.Marked s.marks now) :
    Inv c H R want (without W slot) (rememberYoung c t slot now s) ∧
    Grows c H s (rememberYoung c t slot now s) := by
  subst hnow
  by_cases hcase : (t.ownerOld && c.geo.isYoung (addressOf (readSlot c s slot))) = true
  · rw [rememberYoung, if_pos hcase]
    obtain ⟨hto, hyoung⟩ := Bool.and_eq_true _ _ ▸ hcase
    cases slot with
    | root k => exact absurd (hown.symm.trans hto) (by simp)
    | local_ w => exact hl.elim
    | field x i =>
      obtain ⟨rfl, hold⟩ := hown
      rw [hto] at hold
      have hl' := hl
      obtain ⟨a, o, hp, ho, hi⟩ := hl'
      obtain ⟨hmarks, hcards, hbehind⟩ := rememberSlot_spec (i := i) h.toCardsOk h.fits ho
        hold.symm (h.toShape.size_pos hb ho).1
      have hread := hmarks.readSlot_eq (.field t.owner i)
      refine ⟨(hmarks.inv h hcards).settle fun _ => ?_, hmarks.grows⟩
      refine { target := ?_, remembered := ?_, shaded := ?_ }
      · rw [hread]
        exact htarget
      · intro x' i' o' heq ho' _ _ _
        obtain ⟨hx, hi'⟩ := Slot.field.inj heq
        subst hx hi'
        rw [hmarks.heap, ho] at ho'
        obtain rfl := some.inj ho'
        exact hbehind
      · intro x' i' heq hshade hwant hold' hrefers hnot
        rw [hread] at hnot
        rw [hyoung] at hnot
        exact absurd hnot (by simp)
  · rw [rememberYoung, if_neg hcase]
    refine ⟨h.settle fun _ => ?_, .refl s⟩
    refine { target := htarget, remembered := ?_, shaded := ?_ }
    · intro x i o heq ho hold hrefers hyoung
      subst heq
      exact absurd (Bool.and_eq_true _ _ ▸ ⟨hown.2.trans hold, hyoung⟩) hcase
    · intro x i heq hshade hwant hold hrefers hnot
      subst heq
      exact hshaded hshade hrefers hnot (hown.2.trans hold)

def ScanOk (c : Setup A M) (H : Nat → Option Obj) (R : List Root) (want : Nat → Nat → Prop)
    (scan : Scan A M) : Prop :=
  ∀ (W : Slot → Prop) (s : State A M) (x : Nat), (∃ a, Place c H s.heap a x) →
    Inv c H R want (fun u => W u ∨ u.OwnedBy x) s →
    Ends (scan x (c.geo.isOld x) s) fun s' => Inv c H R want W s' ∧ Grows c H s s'

theorem Inv.pop {rest : List Nat} (h : Inv c H R want W s) (hgray : s.gray = x :: rest)
    (budget : Nat) :
    Inv c H R want (fun u => W u ∨ u.OwnedBy x) { s with gray := rest, copyBudget := budget } ∧
    Grows c H s { s with gray := rest, copyBudget := budget } ∧
    potential c { s with gray := rest, copyBudget := budget } + 1 ≤ potential c s := by
  have hpot : potential c { s with gray := rest, copyBudget := budget } + 1 ≤ potential c s := by
    show rest.length + (fromAddresses c).countP (unforwarded s.heap) + 1 ≤
      s.gray.length + (fromAddresses c).countP (unforwarded s.heap)
    rw [hgray, length_cons]
    omega
  have hlive : ∀ slot, Live c H { s with gray := rest, copyBudget := budget } slot ↔
      Live c H s slot := by
    intro slot
    cases slot <;> rfl
  have hread : ∀ slot, readSlot c { s with gray := rest, copyBudget := budget } slot =
      readSlot c s slot := by
    intro slot
    cases slot <;> rfl
  have hg : Grows c H s { s with gray := rest, copyBudget := budget } :=
    { Grows.refl (c := c) (H := H) s with
      stable := fun slot hl => ⟨(hlive slot).mpr hl, fun _ => hread slot⟩
      potential := by omega }
  refine ⟨{ toShape := { h.toShape with gray := ?_ }, region := h.region, live := h.live
            slots := ?_ }, hg, hpot⟩
  · intro y hy
    exact h.gray y (by rw [hgray]; exact mem_cons_of_mem _ hy)
  · intro u hu
    rw [hlive] at hu
    rcases h.slots u hu with hs | ⟨y, hy, hown⟩ | hw
    · exact .inl (hs.grows hg (hread u) fun x i heq => hu.some heq)
    · rw [hgray, mem_cons] at hy
      rcases hy with rfl | hy
      · exact .inr (.inr (.inr hown))
      · exact .inr (.inl ⟨y, hy, hown⟩)
    · exact .inr (.inr (.inl hw))

theorem scanFresh_spec {fresh : Bool} (now : Nat)
    (hscan : ∀ scan, nested = some scan → ScanOk c H R want scan) (h : Inv c H R want W s)
    (hfresh : fresh = true → ∃ rest, s.gray = now :: rest) :
    Ends (scanFresh c nested fresh now s) fun s' => Inv c H R want W s' ∧ Grows c H s s' := by
  unfold scanFresh
  cases nested with
  | none => exact ⟨h, .refl s⟩
  | some scan =>
    cases hnow : s.heap now with
    | none => exact ⟨h, .refl s⟩
    | some o =>
      by_cases hdo : (fresh && decide (kHeaderBytes + o.size ≤ s.copyBudget)) = true
      · simp only [hdo, if_true]
        obtain ⟨rest, hgray⟩ := hfresh (Bool.and_eq_true _ _ ▸ hdo).1
        obtain ⟨hpop, hg, _⟩ := h.pop hgray (s.copyBudget - (kHeaderBytes + o.size))
        have htail : s.gray.tail = rest := by rw [hgray, tail_cons]
        rw [htail]
        have hplace : ∃ a, Place c H s.heap a now :=
          h.gray now (by rw [hgray]; exact mem_cons_self)
        have hends := hscan scan rfl W
          { s with gray := rest, copyBudget := s.copyBudget - (kHeaderBytes + o.size) } now
          hplace hpop
        refine hends.mono ?_
        intro s' hs'
        exact ⟨hs'.1, hg.trans hs'.2⟩
      · simp only [hdo]
        exact ⟨h, .refl s⟩

/-- What a collected object at `a` is when a visit meets it: copied already, pinned, or
about to be copied. -/
theorem Shape.collected_cases (h : Shape c H R s) (hb : Base c H R) {a : Nat}
    (ho : s.heap a = some o) (hfrom : inFrom c s.heap a = true) :
    (o.forwarded = true ∧ Moves c H a ∧ Forwards s.heap a (o.words 0)) ∨
    (o.forwarded = false ∧ o.pinned = true ∧ ¬ Moves c H a) ∨
    (o.forwarded = false ∧ o.pinned = false ∧ Moves c H a ∧ H a = some o) := by
  obtain ⟨hsome, hfrom'⟩ := (h.inFrom_eq hb (by rw [ho]; rfl)).mp hfrom
  obtain ⟨o₀, ho₀⟩ := isSome_iff_exists.mp hsome
  by_cases hm : Moves c H a
  · rcases h.left a o₀ ho₀ hm with heq | ⟨b, heq⟩
    · obtain rfl := some.inj (ho.symm.trans heq)
      have hpin : o.pinned = false := by
        obtain ⟨o₁, ho₁, _, hp⟩ := hm
        obtain rfl := some.inj (ho₀.symm.trans ho₁)
        exact hp
      exact .inr (.inr ⟨hb.unforwarded a o ho₀, hpin, hm, ho₀⟩)
    · obtain rfl := some.inj (ho.symm.trans heq)
      exact .inl ⟨rfl, hm, _, heq, rfl, rfl⟩
  · obtain ⟨o₁, ho₁, hr⟩ := h.placed a a o₀ ho₀ (.stays hsome hm)
    obtain ⟨o₂, ho₂, hpin, _⟩ := h.flags a o₀ ho₀ hm
    obtain rfl := some.inj (ho.symm.trans ho₁)
    obtain rfl := some.inj (ho.symm.trans ho₂)
    refine .inr (.inl ⟨hr.forwarded, ?_, hm⟩)
    rw [hpin]
    by_contra hne
    exact hm ⟨o₀, ho₀, hfrom', by simpa using hne⟩

/-- The visit after the slot's new target is known: the slot is written, the copy may be
scanned, and the slot is remembered. -/
theorem redirect_spec (fresh : Bool) (now : Nat) (hb : Base c H R)
    (hscan : ∀ scan, nested = some scan → ScanOk c H R want scan) (h : Inv c H R want W s)
    (hl : Live c H s slot) (hown : Owns c t slot)
    (hrefers : c.geo.refers (readSlot c s slot) = true)
    (hw : Redirects c H s.heap (readSlot c s slot) (retarget (readSlot c s slot) now))
    (hin : c.geo.contains now = true) (hstays : ¬ Moves c H now)
    (hfresh : fresh = true → ∃ rest, s.gray = now :: rest)
    (hshaded : c.shade = true → c.geo.isYoung now = false → c.marker.Marked s.marks now) :
    Ends (match scanFresh c nested fresh now (writeSlot s (retarget (readSlot c s slot) now) slot) with
      | .error e => .error e
      | .ok s => .ok (rememberYoung c t slot now s))
      fun s' => Inv c H R want (without W slot) s' ∧ Grows c H s s' := by
  obtain ⟨hself, hgray, hg, hinv⟩ := writeSlot_spec hb h hl hrefers hw
  have hlt := Geometry.lt_of_contains hin
  have hends := scanFresh_spec now hscan hinv (fun hf => by rw [hgray]; exact hfresh hf)
  revert hends
  cases scanFresh c nested fresh now (writeSlot s (retarget (readSlot c s slot) now) slot) with
  | error e => exact id
  | ok s₂ =>
    rintro ⟨hinv₂, hg₂⟩
    -- The copy's scan leaves this slot alone: it names nothing that moves any more.
    have hl₁ := (hg.stable slot hl).1
    obtain ⟨hl₂, hstable⟩ := hg₂.stable slot hl₁
    have hread₂ : readSlot c s₂ slot = retarget (readSlot c s slot) now := by
      rw [hstable (fun _ => by rw [hself, addressOf_retarget hlt]; exact hstays), hself]
    have haddr : addressOf (readSlot c s₂ slot) = now := by
      rw [hread₂, addressOf_retarget hlt]
    obtain ⟨hinv₃, hg₃⟩ := rememberYoung_spec hb hinv₂ hl₂ hown haddr (fun _ => hstays)
      (fun hshade _ hnot _ => (hg.trans hg₂).marked _ (hshaded hshade hnot))
    refine ⟨hinv₃.weaken ?_, (hg.trans hg₂).trans hg₃⟩
    rintro u ⟨hu | hu, hne⟩
    · exact ⟨hu, hne⟩
    · exact absurd hu hne

section

variable (hb : Base c H R) (hscan : ∀ scan, nested = some scan → ScanOk c H R want scan)
include hb hscan

theorem minorVisit_spec (h : Inv c H R want W s) (hl : Live c H s slot) (hown : Owns c t slot)
    (hin : c.geo.contains (addressOf (readSlot c s slot)) = true) :
    Ends (minorVisit c nested t slot (readSlot c s slot) s)
      fun s' => Inv c H R want (without W slot) s' ∧ Grows c H s s' := by
  unfold minorVisit
  by_cases htag : c.geo.isReferenceTag (readSlot c s slot) = true
  · have hrefers : c.geo.refers (readSlot c s slot) = true := by
      unfold Geometry.refers
      rw [htag, hin]
      rfl
    obtain ⟨o, ho⟩ := isSome_iff_exists.mp (h.target_some hb hl hrefers)
    simp only [htag, Bool.not_true, Bool.false_eq_true, if_false]
    by_cases hfrom : inFrom c s.heap (addressOf (readSlot c s slot)) = true
    · simp only [hfrom, if_true, ho]
      rcases h.toShape.collected_cases hb ho hfrom with
        ⟨hfwd, hm, hforwards⟩ | ⟨hfwd, hpin, hstays⟩ | ⟨hfwd, hpin, hm, hstart⟩
      · -- Copied before: the slot is redirected to the copy.
        simp only [hfwd, if_true, Bool.not_true, Bool.false_and]
        have hplace : Place c H s.heap _ (o.words 0) := .moved hm hforwards
        refine redirect_spec _ _ hb hscan h hl hown hrefers (.inr ⟨hm, _, hforwards, rfl⟩)
          (h.forward_contains _ _ hm hforwards) (h.toShape.place_not_moves hplace)
          (fun hf => absurd hf (by simp)) ?_
        intro hshade hnot
        refine h.promoted _ _ hm hforwards hshade ?_
        rcases Geometry.contains_iff_or.mp (h.forward_contains _ _ hm hforwards) with hy | hold
        · rw [hy] at hnot
          exact absurd hnot (by simp)
        · exact hold
      · -- Pinned: the slot keeps its word.
        have hevac : evacuateYoung c (addressOf (readSlot c s slot)) s =
            .ok (addressOf (readSlot c s slot), s) := by
          simp only [evacuateYoung, ho, hpin, if_true]
        simp only [hfwd, hpin, Bool.false_eq_true, if_false, Bool.not_false, Bool.not_true,
          Bool.and_false, hevac]
        refine redirect_spec _ _ hb hscan h hl hown hrefers (.inl (retarget_addressOf _)) hin hstays
          (fun hf => absurd hf (by simp)) ?_
        intro _ hnot
        rw [inFrom_young hb hfrom] at hnot
        exact absurd hnot (by simp)
      · -- Copied now.
        simp only [hfwd, hpin, Bool.false_eq_true, if_false, Bool.not_false, Bool.and_self]
        have hevac := evacuateYoung_spec hb h hm hstart ho
        revert hevac
        cases evacuateYoung c (addressOf (readSlot c s slot)) s with
        | error e => exact id
        | ok r =>
          obtain ⟨now, s₁⟩ := r
          intro he
          obtain ⟨hl₁, hread₁⟩ := he.live_read slot hl
          have hplace : Place c H s₁.heap _ now := .moved hm he.forwards
          have hin₁ := he.inv.forward_contains _ _ hm he.forwards
          have hends := redirect_spec true now hb hscan he.inv hl₁ hown
            (by rw [hread₁]; exact hrefers)
            (.inr ⟨by rw [hread₁]; exact hm, now, by rw [hread₁]; exact he.forwards, rfl⟩)
            hin₁ (he.inv.toShape.place_not_moves hplace) (fun _ => ⟨_, he.gray⟩) (by
              intro hshade hnot
              refine he.inv.promoted _ _ hm he.forwards hshade ?_
              rcases Geometry.contains_iff_or.mp hin₁ with hy | hold
              · rw [hy] at hnot
                exact absurd hnot (by simp)
              · exact hold)
          rw [hread₁] at hends
          exact hends.mono fun s' hs' => ⟨hs'.1, he.grows.trans hs'.2⟩
    · have hstays : ¬ Moves c H (addressOf (readSlot c s slot)) := by
        rintro ⟨o₁, ho₁, hf, _⟩
        exact hfrom ((h.inFrom_eq hb (by rw [ho]; rfl)).mpr ⟨by rw [ho₁]; rfl, hf⟩)
      simp only [hfrom, Bool.false_eq_true, if_false]
      by_cases hsh : (c.shade && !c.geo.isYoung (addressOf (readSlot c s slot))) = true
      · simp only [hsh, if_true]
        obtain ⟨hshade, hnot⟩ := Bool.and_eq_true _ _ ▸ hsh
        rw [Bool.not_eq_true'] at hnot
        by_cases ht : t.ownerOld = true
        · rw [if_pos ht]
          have hold : c.geo.isOld (addressOf (readSlot c s slot)) = true := by
            rcases Geometry.contains_iff_or.mp hin with hy | hold
            · rw [hy] at hnot
              exact absurd hnot (by simp)
            · exact hold
          have hmarks := shade_onlyMarks (c := c) (s := s) hold (by rw [ho]; rfl)
          have hinv := hmarks.inv h ⟨h.region, h.live⟩
          refine ⟨hinv.settle fun _ => ?_, hmarks.grows⟩
          have hread := hmarks.readSlot_eq slot
          refine { target := ?_, remembered := ?_, shaded := ?_ }
          · rw [hread]
            exact fun _ => hstays
          · intro x i o _ _ _ _ hy
            rw [hread, hnot] at hy
            exact absurd hy (by simp)
          · intro x i _ _ _ _ _ _
            rw [hread]
            exact c.marker.marked_shade _ _
        · rw [if_neg ht]
          refine ⟨h.settle fun _ => ?_, .refl s⟩
          refine { target := fun _ => hstays, remembered := ?_, shaded := ?_ }
          · intro x i o _ _ _ _ hy
            rw [hnot] at hy
            exact absurd hy (by simp)
          · intro x i heq _ _ hold _ _
            subst heq
            exact absurd (hown.2.trans hold) ht
      · simp only [hsh, Bool.false_eq_true, if_false]
        refine rememberYoung_spec hb h hl hown rfl (fun _ => hstays) ?_
        intro hshade _ hnot _
        rw [hshade, hnot] at hsh
        exact absurd rfl hsh
  · simp only [htag, Bool.not_false, if_true]
    have hnot : c.geo.refers (readSlot c s slot) = true → False := by
      intro hr
      exact htag (Bool.and_eq_true _ _ ▸ hr).1
    refine ⟨h.settle fun _ => ?_, .refl s⟩
    exact { target := fun hr => (hnot hr).elim, remembered := fun _ _ _ _ _ _ hr => (hnot hr).elim
            shaded := fun _ _ _ _ _ _ hr => (hnot hr).elim }

theorem visit_spec (h : Inv c H R want W s) (hl : Live c H s slot) (hown : Owns c t slot) :
    Ends (visit c nested t slot s)
      fun s' => Inv c H R want (without W slot) s' ∧ Grows c H s s' := by
  unfold visit
  cases hshade : c.shade with
  | true =>
    by_cases hin : c.geo.contains (addressOf (readSlot c s slot)) = true
    · simp only [hin, if_true]
      exact minorVisit_spec hb hscan h hl hown hin
    · simp only [hin, if_true, Bool.false_eq_true, if_false]
      have hnot : c.geo.refers (readSlot c s slot) = true → False := by
        intro hr
        exact hin (Bool.and_eq_true _ _ ▸ hr).2
      refine ⟨h.settle fun _ => ?_, .refl s⟩
      exact { target := fun hr => (hnot hr).elim
              remembered := fun _ _ _ _ _ _ hr => (hnot hr).elim
              shaded := fun _ _ _ _ _ _ hr => (hnot hr).elim }
  | false =>
    by_cases hy : c.geo.isYoung (addressOf (readSlot c s slot)) = true
    · simp only [hy, Bool.false_eq_true, if_false, if_true]
      exact minorVisit_spec hb hscan h hl hown (Geometry.contains_iff_or.mpr (.inl hy))
    · simp only [hy, Bool.false_eq_true, if_false]
      refine ⟨h.settle fun _ => ?_, .refl s⟩
      refine { target := ?_, remembered := ?_, shaded := ?_ }
      · intro _ hm
        exact hy (hm.young hb)
      · intro _ _ _ _ _ _ _ hyoung
        exact absurd hyoung hy
      · intro _ _ _ hs
        rw [hshade] at hs
        exact absurd hs (by simp)

theorem visitFields_spec (l : List Nat)
    (h : Inv c H R want W s) (hl : ∀ i ∈ l, Live c H s (.field x i)) :
    Ends (visitFields c nested ⟨x, c.geo.isOld x⟩ l s) fun s' =>
      Inv c H R want (fun u => W u ∧ ∀ i ∈ l, u ≠ .field x i) s' ∧ Grows c H s s' := by
  induction l generalizing W s with
  | nil => exact ⟨h.weaken fun u hu => ⟨hu, fun i hi => absurd hi (by simp)⟩, .refl s⟩
  | cons i l ih =>
    unfold visitFields
    have hvisit := visit_spec (t := ⟨x, c.geo.isOld x⟩) hb hscan h (hl i mem_cons_self) ⟨rfl, rfl⟩
    revert hvisit
    cases visit c nested ⟨x, c.geo.isOld x⟩ (.field x i) s with
    | error e => exact id
    | ok s₁ =>
      rintro ⟨hinv, hg⟩
      have hrest := ih hinv fun j hj => (hg.stable _ (hl j (mem_cons_of_mem _ hj))).1
      refine hrest.mono ?_
      rintro s' ⟨hinv', hg'⟩
      refine ⟨hinv'.weaken ?_, hg.trans hg'⟩
      rintro u ⟨⟨hu, hne⟩, hall⟩
      refine ⟨hu, fun j hj => ?_⟩
      rcases mem_cons.mp hj with rfl | hj
      · exact hne
      · exact hall j hj

end

theorem Shape.live_slots (h : Shape c H R s) (hp : ∃ a, Place c H s.heap a x) :
    ∃ o, s.heap x = some o ∧ ∀ i ∈ slotsOf c.layouts o, Live c H s (.field x i) := by
  obtain ⟨a, hp⟩ := hp
  obtain ⟨_, o, _, ho, _⟩ := h.place_some hp
  exact ⟨o, ho, fun i hi => ⟨a, o, hp, ho, hi⟩⟩

theorem Inv.scanned {W' : Slot → Prop} (h : Inv c H R want W s)
    (hwas : ∀ u, W u → W' u ∨ u.OwnedBy x) (ho : s.heap x = some o)
    (hnot : ∀ u, W u → ∀ i ∈ slotsOf c.layouts o, u ≠ .field x i) :
    Inv c H R want W' s := by
  refine h.imp fun u hu hw => ?_
  rcases hwas u hw with hw' | hown
  · exact .inr hw'
  · cases u with
    | root k => exact hown.elim
    | local_ w => exact hown.elim
    | field y i =>
      obtain rfl : y = x := hown
      obtain ⟨_, o', _, ho', hi⟩ := hu
      obtain rfl := some.inj (ho.symm.trans ho')
      exact absurd rfl (hnot _ hw i hi)

theorem Grows.slotsOf_eq (hg : Grows c H s s') (hb : Base c H R) (h : Shape c H R s)
    (h' : Shape c H R s') (hp : ∃ a, Place c H s.heap a x) (ho : s.heap x = some o) :
    ∃ o', s'.heap x = some o' ∧ slotsOf c.layouts o' = slotsOf c.layouts o := by
  obtain ⟨a, hp⟩ := hp
  obtain ⟨o₀, o₁, ho₀, ho₁, hr⟩ := h.place_some hp
  obtain ⟨o₀', o₁', ho₀', ho₁', hr'⟩ := h'.place_some (hg.place hp)
  obtain rfl := some.inj (ho₀.symm.trans ho₀')
  obtain rfl := some.inj (ho.symm.trans ho₁)
  refine ⟨o₁', ho₁', ?_⟩
  rw [hr'.slotsOf_eq hb h'.forward_contains, hr.slotsOf_eq hb h.forward_contains]

theorem scanWith_ok (hb : Base c H R)
    (hscan : ∀ scan, nested = some scan → ScanOk c H R want scan) :
    ScanOk c H R want (scanWith c nested) := by
  intro W s x hp h
  obtain ⟨o, ho, hlive⟩ := h.toShape.live_slots hp
  unfold scanWith
  simp only [ho]
  refine (visitFields_spec hb hscan (slotsOf c.layouts o) h hlive).mono ?_
  rintro s' ⟨hinv, hg⟩
  obtain ⟨o', ho', hslots⟩ := hg.slotsOf_eq hb h.toShape hinv.toShape hp ho
  exact ⟨hinv.scanned (fun u hu => hu.1) ho' (by rw [hslots]; exact fun u hu => hu.2), hg⟩

theorem scanObject_ok (hb : Base c H R) (depth : Nat) : ScanOk c H R want (scanObject c depth) := by
  induction depth with
  | zero => exact scanWith_ok hb fun scan h => absurd h (by simp)
  | succ depth ih =>
    refine scanWith_ok hb ?_
    rintro scan ⟨⟩
    exact ih

theorem rangeSlotsOf_within (hb : Base c H R) {lo hi i : Nat}
    (h : i ∈ rangeSlotsOf c.layouts o lo hi) : i ∈ slotsOf c.layouts o := by
  unfold rangeSlotsOf at h
  unfold slotsOf
  cases hl : c.layouts o.layout with
  | leaf => simp only [hl] at h ⊢; exact h
  | words =>
    simp only [hl, mem_range'_1, mem_range] at h ⊢
    omega
  | mask bits =>
    simp only [hl, mem_filter, mem_range'_1, mem_range] at h ⊢
    exact ⟨by omega, h.2⟩
  | custom trace range =>
    cases range with
    | none => simp only [hl] at h ⊢; exact h
    | some range =>
      simp only [hl] at h ⊢
      exact (hb.lawful o.layout).within trace range hl _ _ _ _ _ h

theorem rangeSlotsOf_covers (hb : Base c H R) {lo hi i : Nat} (h : i ∈ slotsOf c.layouts o)
    (hsize : kGranuleBytes * i < o.size) (hmod : o.size % kGranuleBytes = 0)
    (hlo : lo ≤ kGranuleBytes * i) (hhi : kGranuleBytes * i < hi) :
    i ∈ rangeSlotsOf c.layouts o lo hi := by
  have h8 : kGranuleBytes = 8 := rfl
  have hcount : o.count = o.size / 8 := rfl
  unfold rangeSlotsOf
  unfold slotsOf at h
  cases hl : c.layouts o.layout with
  | leaf => simp only [hl] at h ⊢; exact h
  | words =>
    simp only [hl, mem_range'_1, mem_range, hcount, h8] at h hsize hmod hlo hhi ⊢
    omega
  | mask bits =>
    simp only [hl, mem_filter, mem_range'_1, mem_range, hcount, h8] at h hsize hmod hlo hhi ⊢
    exact ⟨by omega, h.2⟩
  | custom trace range =>
    cases range with
    | none => simp only [hl] at h ⊢; exact h
    | some range =>
      simp only [hl] at h ⊢
      exact (hb.lawful o.layout).covers trace range hl _ _ _ _ _ h hsize hlo hhi

theorem scanObjectRange_spec (lo hi : Nat) (hb : Base c H R) (h : Inv c H R want W s)
    (hp : ∃ a, Place c H s.heap a x) (hold : c.geo.isOld x = true) :
    Ends (scanObjectRange c x lo hi s) fun s' =>
      Inv c H R want (fun u => W u ∧ ∀ i, u = .field x i → ∀ o, s.heap x = some o →
        ¬ (kGranuleBytes * i < o.size ∧ lo ≤ kGranuleBytes * i ∧ kGranuleBytes * i < hi)) s' ∧
      Grows c H s s' := by
  obtain ⟨o, ho, hlive⟩ := h.toShape.live_slots hp
  unfold scanObjectRange
  simp only [ho]
  have hnested : ∀ scan, some (scanObject c (kCopyDepth - 1)) = some scan →
      ScanOk c H R want scan := by
    rintro scan ⟨⟩
    exact scanObject_ok hb _
  have hfields := visitFields_spec (x := x) hb hnested (rangeSlotsOf c.layouts o lo hi) h
    (fun i hi => hlive i (rangeSlotsOf_within hb hi))
  rw [hold] at hfields
  refine hfields.mono ?_
  rintro s' ⟨hinv, hg⟩
  refine ⟨?_, hg⟩
  obtain ⟨o', ho', hslots⟩ := hg.slotsOf_eq hb h.toShape hinv.toShape hp ho
  refine hinv.imp fun u hu hrest => ?_
  obtain ⟨hw, hall⟩ := hrest
  refine .inr ⟨hw, ?_⟩
  rintro i rfl o₁ ho₁ ⟨hsize, hlo, hhi⟩
  obtain rfl := some.inj ho₁
  obtain ⟨_, o₂, _, ho₂, hi⟩ := hu
  obtain rfl := some.inj (ho'.symm.trans ho₂)
  exact hall i (rangeSlotsOf_covers hb (hslots ▸ hi) hsize (h.toShape.size_pos hb ho).2 hlo hhi) rfl

/-! ## Draining -/

theorem drain_spec (hb : Base c H R) (fuel : Nat) (h : Inv c H R want W s)
    (hfuel : potential c s ≤ fuel) :
    Ends (drain c fuel s) fun s' => Inv c H R want W s' ∧ Grows c H s s' ∧ s'.gray = [] := by
  have hdone : ∀ {s : State A M}, Inv c H R want W s → s.gray = [] →
      Ends (.ok { s with copyBudget := 0 }) fun s' =>
        Inv c H R want W s' ∧ Grows c H s s' ∧ s'.gray = [] := by
    intro s h hgray
    have hmarks : OnlyMarks c s { s with copyBudget := 0 } :=
      { OnlyMarks.refl (c := c) s with heap := rfl }
    exact ⟨hmarks.inv h ⟨h.region, h.live⟩, hmarks.grows, hgray⟩
  induction fuel generalizing s with
  | zero =>
    have hgray : s.gray = [] := by
      unfold potential at hfuel
      exact length_eq_zero_iff.mp (by omega)
    have hdrain : drain c 0 s = .ok { s with copyBudget := 0 } := by simp [drain, hgray]
    rw [hdrain]
    exact hdone h hgray
  | succ fuel ih =>
    cases hgray : s.gray with
    | nil =>
      have hdrain : drain c (fuel + 1) s = .ok { s with copyBudget := 0 } := by
        simp [drain, hgray]
      rw [hdrain]
      exact hdone h hgray
    | cons x rest =>
      obtain ⟨hpop, hg, hpot⟩ := h.pop hgray kCopyBudget
      have hp : ∃ a, Place c H s.heap a x := h.gray x (by rw [hgray]; exact mem_cons_self)
      have hscan := (scanObject_ok hb kCopyDepth : ScanOk c H R want _) W
        { s with gray := rest, copyBudget := kCopyBudget } x hp hpop
      unfold drain
      simp only [hgray]
      revert hscan
      cases scanObject c kCopyDepth x (c.geo.isOld x)
        { s with gray := rest, copyBudget := kCopyBudget } with
      | error e => exact id
      | ok s₁ =>
        rintro ⟨hinv, hg₁⟩
        have hle := hg₁.potential
        refine (ih hinv (by omega)).mono ?_
        rintro s' ⟨hinv', hg', hempty⟩
        exact ⟨hinv', (hg.trans hg₁).trans hg', hempty⟩

end Brass.Gc.Heap
