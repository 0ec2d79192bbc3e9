import Brass.Gc.MinorSteps

/-!
# Copying an object

The copy goes to bytes that no object has, in the free part of the to-space or in the old
generation, and is grey. The object left behind names it.
-/

namespace Brass.Gc.Heap

open List Option

variable {A M : Type} {c : Setup A M} {H : Nat → Option Obj} {R : List Root}
  {want : Nat → Nat → Prop} {W : Slot → Prop} {s s' : State A M}

/-! ## The to-space -/

variable {heap : Nat → Option Obj} {frags rest : List YoungFragment} {total : Nat}

theorem ToSpace.tail {f : YoungFragment} {hi : Nat} (h : ToSpace c heap (f :: frags) hi) :
    ToSpace c heap frags hi where
  avoids f' hf := h.avoids f' (mem_cons_of_mem _ hf)
  within f' hf := h.within f' (mem_cons_of_mem _ hf)
  ascending := (pairwise_cons.mp h.ascending).2
  copied f' hf := h.copied f' (mem_cons_of_mem _ hf)
  bounds := h.bounds

theorem toSpaceAllocate_some {cursor limit hi dest cursor' limit' : Nat}
    (h : ToSpace c heap (⟨cursor, limit⟩ :: frags) hi)
    (hr : toSpaceAllocate total frags cursor limit = (some dest, rest, cursor', limit')) :
    cursor' = dest + total ∧ dest + total ≤ limit' ∧
      ToSpace c heap (⟨dest, limit'⟩ :: rest) hi := by
  induction frags generalizing cursor limit with
  | nil =>
    unfold toSpaceAllocate at hr
    split at hr
    · simp at hr
    · obtain ⟨h1, h2, h3, h4⟩ : cursor = dest ∧ [] = rest ∧ cursor + total = cursor' ∧
        limit = limit' := by simpa using hr
      subst h1 h2 h3 h4
      have := (h.within ⟨cursor, limit⟩ mem_cons_self).2.2
      simp only at this
      exact ⟨rfl, by omega, h⟩
  | cons f frags ih =>
    unfold toSpaceAllocate at hr
    split at hr
    · exact ih h.tail hr
    · obtain ⟨h1, h2, h3, h4⟩ : cursor = dest ∧ f :: frags = rest ∧ cursor + total = cursor' ∧
        limit = limit' := by simpa using hr
      subst h1 h2 h3 h4
      have := (h.within ⟨cursor, limit⟩ mem_cons_self).2.2
      simp only at this
      exact ⟨rfl, by omega, h⟩

theorem toSpaceAllocate_none {cursor limit hi cursor' limit' : Nat}
    (h : ToSpace c heap (⟨cursor, limit⟩ :: frags) hi)
    (hr : toSpaceAllocate total frags cursor limit = (none, rest, cursor', limit')) :
    ToSpace c heap (⟨cursor', limit'⟩ :: rest) hi := by
  induction frags generalizing cursor limit with
  | nil =>
    unfold toSpaceAllocate at hr
    split at hr
    · obtain ⟨h2, h3, h4⟩ : [] = rest ∧ cursor = cursor' ∧ limit = limit' := by simpa using hr
      subst h2 h3 h4
      exact h
    · simp at hr
  | cons f frags ih =>
    unfold toSpaceAllocate at hr
    split at hr
    · exact ih h.tail hr
    · simp at hr

/-! ## The heap with a copy -/

def copyHeap (heap : Nat → Option Obj) (a : Nat) (o : Obj) (moved : Nat) (o' : Obj) :
    Nat → Option Obj :=
  Function.update (Function.update heap moved (some o')) a (some (o.forwardedTo moved))

section CopyHeap

variable {a moved : Nat} {o o' : Obj}

theorem copyHeap_left : copyHeap heap a o moved o' a = some (o.forwardedTo moved) :=
  Function.update_self ..

theorem copyHeap_moved (hne : moved ≠ a) : copyHeap heap a o moved o' moved = some o' := by
  rw [copyHeap, Function.update_of_ne hne, Function.update_self]

theorem copyHeap_of_ne {x : Nat} (ha : x ≠ a) (hm : x ≠ moved) :
    copyHeap heap a o moved o' x = heap x := by
  rw [copyHeap, Function.update_of_ne ha, Function.update_of_ne hm]

theorem copyHeap_cases (ho : heap a = some o) (hsize : o'.size = o.size) {x : Nat} {ox : Obj}
    (h : copyHeap heap a o moved o' x = some ox) :
    (x = moved ∧ ox.size = o.size) ∨ (∃ o₀, heap x = some o₀ ∧ ox.size = o₀.size) := by
  by_cases hxa : x = a
  · subst hxa
    rw [copyHeap_left] at h
    obtain rfl := some.inj h
    exact .inr ⟨o, ho, rfl⟩
  · by_cases hxm : x = moved
    · subst hxm
      rw [copyHeap_moved hxa] at h
      obtain rfl := some.inj h
      exact .inl ⟨rfl, hsize⟩
    · rw [copyHeap_of_ne hxa hxm] at h
      exact .inr ⟨ox, h, rfl⟩

theorem copyHeap_kept (hnone : heap moved = none) (ho : heap a = some o) {x : Nat} {ox : Obj}
    (h : heap x = some ox) : ∃ o₁, copyHeap heap a o moved o' x = some o₁ ∧ o₁.size = ox.size ∧
      o₁.layout = ox.layout ∧ o₁.pinned = ox.pinned ∧ o₁.resident = ox.resident := by
  by_cases hxa : x = a
  · subst hxa
    obtain rfl := some.inj (ho.symm.trans h)
    exact ⟨_, copyHeap_left, rfl, rfl, rfl, rfl⟩
  · have hxm : x ≠ moved := by
      rintro rfl
      rw [hnone] at h
      exact absurd h (by simp)
    exact ⟨ox, (copyHeap_of_ne hxa hxm).trans h, rfl, rfl, rfl, rfl⟩

end CopyHeap

theorem countP_lt {p q : Nat → Bool} {l : List Nat} {a : Nat} (hmono : ∀ x, q x = true → p x = true)
    (ha : a ∈ l) (hq : q a = false) (hp : p a = true) : l.countP q < l.countP p := by
  obtain ⟨l₁, l₂, rfl⟩ := append_of_mem ha
  have h1 : l₁.countP q ≤ l₁.countP p := countP_mono_left fun x _ => hmono x
  have h2 : l₂.countP q ≤ l₂.countP p := countP_mono_left fun x _ => hmono x
  simp only [countP_append, countP_cons, hp, hq, Bool.false_eq_true, if_false, if_true]
  omega

/-- `s'` is `s` with the object `o` copied from `a` to `moved`, as `o'`. -/
structure Copies (c : Setup A M) (H : Nat → Option Obj) (s : State A M) (a : Nat) (o : Obj)
    (moved : Nat) (o' : Obj) (s' : State A M) : Prop where
  moves : Moves c H a
  start : H a = some o
  object : s.heap a = some o
  unpinned : o.pinned = false
  size : o'.size = o.size
  layout : o'.layout = o.layout
  hostBits : o'.hostBits = o.hostBits
  words : o'.words = o.words
  notForwarded : o'.forwarded = false
  pinned : o'.pinned = false
  resident : o'.resident = false
  fresh : ∀ x ox, s.heap x = some ox → Apart moved o.size x ox.size
  inHeap : c.geo.contains moved = true
  heap : s'.heap = copyHeap s.heap a o moved o'
  roots : s'.roots = s.roots
  gray : s'.gray = moved :: s.gray
  cards : s'.cards = s.cards
  regions : s'.regions = s.regions
  marked : ∀ b, c.marker.Marked s.marks b → c.marker.Marked s'.marks b
  shades : Shades c s'.heap s.marks s'.marks
  copiedHi : s.toCopiedHi ≤ s'.toCopiedHi
  shaded : c.shade = true → c.geo.isOld moved = true → c.marker.Marked s'.marks moved
  place : (c.geo.isOld moved = true ∧ c.geo.matureLo + kHeaderBytes ≤ moved) ∨
    (c.geo.survivorLo (!c.fromSpace) + kHeaderBytes ≤ moved ∧ moved + o.size ≤ s'.toCopiedHi)
  toSpace : ToSpace c s'.heap (⟨s'.toCursor, s'.toLimit⟩ :: s'.toFrags) s'.toCopiedHi
  fits : c.space.Fits s'.old (sizes s'.heap)
  heads : ∀ p head, c.space.pageHead s'.old p = some head →
    c.space.pageHead s.old p = some head ∨ c.geo.largeObjectAt head = moved

namespace Copies

variable {a moved : Nat} {o o' : Obj}

section

variable (k : Copies c H s a o moved o' s')

include k

theorem moved_none : s.heap moved = none := by
  cases hm : s.heap moved with
  | none => rfl
  | some ox =>
    have h8 : kHeaderBytes = 8 := rfl
    rcases k.fresh moved ox hm with h | h <;> omega

theorem moved_ne : moved ≠ a := by
  rintro rfl
  have := k.moved_none
  rw [k.object] at this
  exact absurd this (by simp)

theorem moved_new (h : Shape c H R s) : H moved = none := by
  cases hm : H moved with
  | none => rfl
  | some ox =>
    have := h.start_some (a := moved) (by rw [hm]; rfl)
    rw [k.moved_none] at this
    exact absurd this (by simp)

theorem ne_moved (h : Shape c H R s) {b : Nat} (hm : Moves c H b) : b ≠ moved := by
  rintro rfl
  obtain ⟨ob, hob, _⟩ := hm
  rw [k.moved_new h] at hob
  exact absurd hob (by simp)

theorem forwards_iff (h : Shape c H R s) {b x : Nat} (hm : Moves c H b) :
    Forwards s'.heap b x ↔ (b = a ∧ x = moved) ∨ (b ≠ a ∧ Forwards s.heap b x) := by
  rw [k.heap]
  by_cases hb : b = a
  · subst hb
    simp only [Forwards, copyHeap_left, true_and, ne_eq, not_true_eq_false, false_and, or_false,
      some.injEq, exists_eq_left']
    have hword : (o.forwardedTo moved).words 0 = moved := by
      simp [Obj.forwardedTo, Obj.setWord]
    rw [hword]
    exact ⟨fun hx => hx.2.symm, fun hx => ⟨rfl, hx.symm⟩⟩
  · have hne := k.ne_moved h hm
    simp only [Forwards, copyHeap_of_ne hb hne, hb, false_and, ne_eq, not_false_eq_true, true_and,
      false_or]

theorem not_forwards (hb : Base c H R) (x : Nat) : ¬ Forwards s.heap a x := by
  rintro ⟨o₁, ho₁, hf, _⟩
  obtain rfl := some.inj (k.object.symm.trans ho₁)
  rw [hb.unforwarded a o k.start] at hf
  exact absurd hf (by simp)

theorem forwards_mono (hb : Base c H R) (h : Shape c H R s) {b x : Nat} (hm : Moves c H b)
    (hf : Forwards s.heap b x) : Forwards s'.heap b x := by
  rw [k.forwards_iff h hm]
  refine .inr ⟨?_, hf⟩
  rintro rfl
  exact k.not_forwards hb x hf

theorem forwards_self (h : Shape c H R s) : Forwards s'.heap a moved :=
  (k.forwards_iff h k.moves).mpr (.inl ⟨rfl, rfl⟩)

theorem mem_fromAddresses : a ∈ fromAddresses c := by
  obtain ⟨_, _, hfrom, _⟩ := k.moves
  rw [inFrom_iff] at hfrom
  simp only [fromAddresses, mem_append, mem_range'_1]
  omega

theorem potential_le (hb : Base c H R) : potential c s' ≤ potential c s := by
  have hmono : ∀ x, unforwarded s'.heap x = true → unforwarded s.heap x = true := by
    intro x hx
    rw [k.heap] at hx
    by_cases hxa : x = a
    · subst hxa
      simp [unforwarded, copyHeap_left, Obj.forwardedTo] at hx
    · by_cases hxm : x = moved
      · subst hxm
        simp [unforwarded, k.moved_none]
      · simpa [unforwarded, copyHeap_of_ne hxa hxm] using hx
  have hlost : unforwarded s'.heap a = false := by
    simp [unforwarded, k.heap, copyHeap_left, Obj.forwardedTo]
  have hhad : unforwarded s.heap a = true := by
    simp [unforwarded, k.object, hb.unforwarded a o k.start]
  have hcount := countP_lt hmono k.mem_fromAddresses hlost hhad
  unfold potential
  rw [k.gray, length_cons]
  omega

theorem place_iff (hb : Base c H R) (h : Shape c H R s) {b x : Nat} :
    Place c H s'.heap b x ↔ (b = a ∧ x = moved) ∨ (b ≠ a ∧ Place c H s.heap b x) := by
  constructor
  · intro hp
    cases hp with
    | stays hsome hstays =>
      refine .inr ⟨?_, .stays hsome hstays⟩
      rintro rfl
      exact hstays k.moves
    | moved hm hf =>
      rcases (k.forwards_iff h hm).mp hf with heq | ⟨hne, hf⟩
      · exact .inl heq
      · exact .inr ⟨hne, .moved hm hf⟩
  · rintro (⟨rfl, rfl⟩ | ⟨_, hp⟩)
    · exact .moved k.moves (k.forwards_self h)
    · cases hp with
      | stays hsome hstays => exact .stays hsome hstays
      | moved hm hf => exact .moved hm (k.forwards_mono hb h hm hf)

theorem place_ne (h : Shape c H R s) {b x : Nat}
    (hp : Place c H s.heap b x) : x ≠ a ∧ x ≠ moved := by
  refine ⟨?_, ?_⟩
  · rintro rfl
    exact h.place_not_moves hp k.moves
  · rintro rfl
    obtain ⟨_, o₁, _, ho₁, _⟩ := h.place_some hp
    rw [k.moved_none] at ho₁
    exact absurd ho₁ (by simp)

section

variable (hb : Base c H R) (h : Shape c H R s)
include hb h

theorem live_read {slot : Slot} (hl : Live c H s slot) :
    Live c H s' slot ∧ readSlot c s' slot = readSlot c s slot := by
  cases slot with
  | root j =>
    refine ⟨?_, by simp only [readSlot, k.roots]⟩
    show j < s'.roots.length
    rw [k.roots]
    exact hl
  | local_ w => exact hl.elim
  | field x i =>
    obtain ⟨b, ox, hp, hox, hi⟩ := hl
    obtain ⟨hxa, hxm⟩ := k.place_ne h hp
    have hx : s'.heap x = s.heap x := by rw [k.heap, copyHeap_of_ne hxa hxm]
    refine ⟨⟨b, ox, (k.place_iff hb h).mpr (.inr ⟨?_, hp⟩), hx.trans hox, hi⟩,
      by simp only [readSlot, hx]⟩
    rintro rfl
    cases hp with
    | stays _ hstays => exact hstays k.moves
    | moved _ hf => exact k.not_forwards hb x hf

theorem grows : Grows c H s s' where
  forwards _ _ hm hf := k.forwards_mono hb h hm hf
  kept x ox hox := by
    obtain ⟨o₁, ho₁, hsize, hlayout, _⟩ : ∃ o₁, copyHeap s.heap a o moved o' x = some o₁ ∧ _ :=
      copyHeap_kept k.moved_none k.object hox
    rw [k.heap]
    exact ⟨o₁, ho₁, hsize, hlayout⟩
  dirty i hi := by
    rw [k.cards]
    exact hi
  unclean i hi := by
    rw [k.cards]
    exact hi
  regions i hi := by
    rw [k.regions]
    exact hi
  marked := k.marked
  shaded := k.shades
  stable _ hl := ⟨(k.live_read hb h hl).1, fun _ => (k.live_read hb h hl).2⟩
  potential := k.potential_le hb

theorem shape : Shape c H R s' := by
  have hg := k.grows hb h
  have hcases : ∀ x ox, s'.heap x = some ox →
      (x = moved ∧ ox.size = o.size) ∨ ∃ o₀, s.heap x = some o₀ ∧ ox.size = o₀.size := by
    intro x ox hox
    rw [k.heap] at hox
    exact copyHeap_cases k.object k.size hox
  have hkept : ∀ x ox, s.heap x = some ox → ∃ o₁, s'.heap x = some o₁ ∧ o₁.size = ox.size ∧
      o₁.layout = ox.layout ∧ o₁.pinned = ox.pinned ∧ o₁.resident = ox.resident := by
    intro x ox hox
    rw [k.heap]
    exact copyHeap_kept k.moved_none k.object hox
  refine
    { placed := ?_, flags := ?_, left := ?_, domain := ?_, copy := ?_, injective := ?_
      promoted := ?_, inHeap := ?_, apart := ?_, toSpace := k.toSpace, fits := k.fits, gray := ?_, roots := ?_ }
  · intro b x ob hob hp
    rcases (k.place_iff hb h).mp hp with ⟨rfl, rfl⟩ | ⟨_, hp⟩
    · obtain rfl := some.inj (k.start.symm.trans hob)
      refine ⟨o', by rw [k.heap, copyHeap_moved k.moved_ne], ?_⟩
      refine { size := k.size, layout := k.layout, hostBits := k.hostBits
               forwarded := k.notForwarded, slots := ?_, other := ?_ }
      · intro i _
        exact .inl (congrFun k.words i)
      · intro i _
        exact congrFun k.words i
    · obtain ⟨o₁, ho₁, hr⟩ := h.placed b x ob hob hp
      obtain ⟨hxa, hxm⟩ := k.place_ne h hp
      exact ⟨o₁, by rw [k.heap, copyHeap_of_ne hxa hxm]; exact ho₁, hg.rewrites hr⟩
  · intro b ob hob hstays
    obtain ⟨o₁, ho₁, hpin, hres⟩ := h.flags b ob hob hstays
    obtain ⟨o₂, ho₂, _, _, hpin', hres'⟩ := hkept b o₁ ho₁
    exact ⟨o₂, ho₂, hpin'.trans hpin, hres'.trans hres⟩
  · intro b ob hob hm
    by_cases hba : b = a
    · subst hba
      obtain rfl := some.inj (k.start.symm.trans hob)
      exact .inr ⟨moved, by rw [k.heap, copyHeap_left]⟩
    · rw [k.heap, copyHeap_of_ne hba (k.ne_moved h hm)]
      exact h.left b ob hob hm
  · intro x ox hox
    rcases hcases x ox hox with ⟨rfl, _⟩ | ⟨o₀, ho₀, _⟩
    · exact .inr ⟨a, k.moves, k.forwards_self h⟩
    · rcases h.domain x o₀ ho₀ with hs | ⟨b, hm, hf⟩
      · exact .inl hs
      · exact .inr ⟨b, hm, k.forwards_mono hb h hm hf⟩
  · intro b x hm hf
    rcases (k.forwards_iff h hm).mp hf with ⟨rfl, rfl⟩ | ⟨_, hf⟩
    · refine ⟨k.moved_new h, o', by rw [k.heap, copyHeap_moved k.moved_ne], k.pinned, k.resident, ?_⟩
      rw [k.size]
      exact k.place
    · obtain ⟨hnone, o₁, ho₁, hpin, hres, hwhere⟩ := h.copy b x hm hf
      obtain ⟨o₂, ho₂, hsize, _, hpin', hres'⟩ := hkept x o₁ ho₁
      refine ⟨hnone, o₂, ho₂, hpin'.trans hpin, hres'.trans hres, ?_⟩
      rw [hsize]
      rcases hwhere with hold | ⟨hlo, hhi⟩
      · exact .inl hold
      · exact .inr ⟨hlo, Nat.le_trans hhi k.copiedHi⟩
  · intro b b' x hm hm' hf hf'
    rcases (k.forwards_iff h hm).mp hf with ⟨rfl, rfl⟩ | ⟨_, hf⟩ <;>
      rcases (k.forwards_iff h hm').mp hf' with ⟨hb', hx'⟩ | ⟨_, hf'⟩
    · exact hb'.symm
    · -- The copy is new, so it is no other object's.
      have := h.forward_some hm' hf'
      rw [k.moved_none] at this
      exact absurd this (by simp)
    · subst hx'
      have := h.forward_some hm hf
      rw [k.moved_none] at this
      exact absurd this (by simp)
    · exact h.injective b b' x hm hm' hf hf'
  · intro b x hm hf hshade hold
    rcases (k.forwards_iff h hm).mp hf with ⟨rfl, rfl⟩ | ⟨_, hf⟩
    · exact k.shaded hshade hold
    · exact k.marked x (h.promoted b x hm hf hshade hold)
  · intro x ox hox
    rcases hcases x ox hox with ⟨rfl, _⟩ | ⟨o₀, ho₀, _⟩
    · exact k.inHeap
    · exact h.inHeap x o₀ ho₀
  · intro x y ox oy hox hoy hne
    rcases hcases x ox hox with ⟨rfl, hsx⟩ | ⟨o₁, ho₁, hsx⟩ <;>
      rcases hcases y oy hoy with ⟨rfl, hsy⟩ | ⟨o₂, ho₂, hsy⟩ <;> rw [hsx, hsy]
    · exact absurd rfl hne
    · exact k.fresh y o₂ ho₂
    · exact (k.fresh x o₁ ho₁).symm
    · exact h.apart x y o₁ o₂ ho₁ ho₂ hne
  · intro x hx
    rw [k.gray, mem_cons] at hx
    rcases hx with rfl | hx
    · exact ⟨a, .moved k.moves (k.forwards_self h)⟩
    · obtain ⟨b, hp⟩ := h.gray x hx
      exact ⟨b, hg.place hp⟩
  · rw [k.roots]
    exact h.roots.imp fun r r' hr => hg.movedRoot hr

theorem cardsOk (hc : CardsOk c s) : CardsOk c s' := by
  constructor
  · rw [k.cards, k.regions]
    exact hc.region
  · intro b hlarge hcard head hhead
    rw [k.cards] at hcard
    rcases k.heads _ head hhead with hhead | hhead
    · obtain ⟨o₁, ho₁⟩ := isSome_iff_exists.mp (hc.live b hlarge hcard head hhead)
      obtain ⟨o₂, ho₂, _⟩ := (k.grows hb h).kept _ o₁ ho₁
      rw [ho₂]
      rfl
    · rw [hhead, k.heap, copyHeap_moved k.moved_ne]
      rfl

end

/-- The copy is grey, and every other slot is as it was. -/
theorem inv (hb : Base c H R) (h : Inv c H R want W s) : Inv c H R want W s' := by
  have hg := k.grows hb h.toShape
  refine { toShape := k.shape hb h.toShape, toCardsOk := k.cardsOk hb h.toShape h.toCardsOk
           slots := ?_ }
  intro slot hl
  have hold : Live c H s slot → readSlot c s' slot = readSlot c s slot →
      Settled c H want s' slot ∨ (∃ x ∈ s'.gray, slot.OwnedBy x) ∨ W slot := by
    intro hl hread
    rcases h.slots slot hl with hset | ⟨x, hx, hown⟩ | hw
    · exact .inl (hset.grows hg hread fun x i heq => hl.some heq)
    · exact .inr (.inl ⟨x, by rw [k.gray]; exact mem_cons_of_mem _ hx, hown⟩)
    · exact .inr (.inr hw)
  cases slot with
  | root j =>
    refine hold ?_ ?_
    · show j < s.roots.length
      rw [← k.roots]
      exact hl
    · simp only [readSlot, k.roots]
  | local_ w => exact hl.elim
  | field x i =>
    obtain ⟨b, ox, hp, hox, hi⟩ := hl
    rcases (k.place_iff hb h.toShape).mp hp with ⟨rfl, rfl⟩ | ⟨_, hp⟩
    · exact .inr (.inl ⟨x, by rw [k.gray]; exact mem_cons_self, rfl⟩)
    · obtain ⟨hxa, hxm⟩ := k.place_ne h.toShape hp
      have hx : s'.heap x = s.heap x := by rw [k.heap, copyHeap_of_ne hxa hxm]
      refine hold ⟨b, ox, hp, hx ▸ hox, hi⟩ ?_
      simp only [readSlot, hx]

end

end Copies

/-! ## Where the copy goes -/

theorem Shape.start_size (h : Shape c H R s) {x : Nat} {o o₀ : Obj} (ho : s.heap x = some o)
    (ho₀ : H x = some o₀) : o.size = o₀.size := by
  by_cases hm : Moves c H x
  · rcases h.left x o₀ ho₀ hm with heq | ⟨b, heq⟩
    · obtain rfl := some.inj (ho.symm.trans heq)
      rfl
    · obtain rfl := some.inj (ho.symm.trans heq)
      rfl
  · obtain ⟨o₁, ho₁, hr⟩ := h.placed x x o₀ ho₀ (.stays (by rw [ho₀]; rfl) hm)
    obtain rfl := some.inj (ho.symm.trans ho₁)
    exact hr.size

theorem Shape.size_pos (h : Shape c H R s) (hb : Base c H R) {x : Nat} {o : Obj}
    (ho : s.heap x = some o) : kGranuleBytes ≤ o.size ∧ o.size % kGranuleBytes = 0 := by
  rcases h.domain x o ho with hs | ⟨b, hm, hf⟩
  · obtain ⟨o₀, ho₀⟩ := isSome_iff_exists.mp hs
    rw [h.start_size ho ho₀]
    exact hb.sized x o₀ ho₀
  · obtain ⟨o₀, o₁, ho₀, ho₁, hr⟩ := h.place_some (.moved hm hf)
    obtain rfl := some.inj (ho.symm.trans ho₁)
    rw [hr.size]
    exact hb.sized b o₀ ho₀

theorem Shape.youngEnd (h : Shape c H R s) (hb : Base c H R) {x : Nat} {o : Obj}
    (ho : s.heap x = some o) (hyoung : c.geo.isYoung x = true) : x + o.size ≤ c.geo.matureLo := by
  rcases h.domain x o ho with hs | ⟨b, hm, hf⟩
  · obtain ⟨o₀, ho₀⟩ := isSome_iff_exists.mp hs
    rw [h.start_size ho ho₀]
    exact hb.youngEnd x o₀ ho₀ hyoung
  · obtain ⟨_, o₁, ho₁, _, _, hwhere⟩ := h.copy b x hm hf
    obtain rfl := some.inj (ho.symm.trans ho₁)
    rcases hwhere with ⟨hold, _⟩ | ⟨_, hhi⟩
    · rw [Geometry.not_young_of_old hold] at hyoung
      exact absurd hyoung (by simp)
    · have := h.toSpace.bounds.2
      have := c.geo.survivorHi_le (!c.fromSpace)
      omega

structure Evacuated (c : Setup A M) (H : Nat → Option Obj) (R : List Root)
    (want : Nat → Nat → Prop) (W : Slot → Prop) (s : State A M) (a now : Nat)
    (s' : State A M) : Prop where
  inv : Inv c H R want W s'
  grows : Grows c H s s'
  forwards : Forwards s'.heap a now
  gray : s'.gray = now :: s.gray
  live_read : ∀ slot, Live c H s slot → Live c H s' slot ∧ readSlot c s' slot = readSlot c s slot

theorem Copies.evacuated {a moved : Nat} {o o' : Obj} (k : Copies c H s a o moved o' s')
    (hb : Base c H R) (h : Inv c H R want W s) : Evacuated c H R want W s a moved s' where
  inv := k.inv hb h
  grows := k.grows hb h.toShape
  forwards := k.forwards_self h.toShape
  gray := k.gray
  live_read _ hl := k.live_read hb h.toShape hl

theorem copies_toSpace {a age dest limit : Nat} {o : Obj} (h : Shape c H R s)
    (hm : Moves c H a) (hstart : H a = some o) (ho : s.heap a = some o) (hpin : o.pinned = false)
    (hpos : kGranuleBytes ≤ o.size)
    (hspace : ToSpace c s.heap (⟨dest, limit⟩ :: rest) s.toCopiedHi)
    (hlimit : dest + (kHeaderBytes + o.size) ≤ limit) :
    Copies c H s a o (dest + kHeaderBytes) (o.copied age false)
      (placeCopy c a o dest age false { s with
        toFrags := rest, toCursor := dest + (kHeaderBytes + o.size), toLimit := limit
        toCopiedHi := dest + (kHeaderBytes + o.size) }).2 := by
  have h8 : kHeaderBytes = 8 := rfl
  have h8' : kGranuleBytes = 8 := rfl
  have hwithin := hspace.within ⟨dest, limit⟩ mem_cons_self
  have hcopied := hspace.copied ⟨dest, limit⟩ mem_cons_self
  have havoid := hspace.avoids ⟨dest, limit⟩ mem_cons_self
  simp only at hwithin hcopied
  have hle := c.geo.survivorHi_le (!c.fromSpace)
  have hedge := c.geo.edenHi_le (!c.fromSpace)
  have hcases := fun x ox => @copyHeap_cases s.heap a (dest + kHeaderBytes) o (o.copied age false)
    ho rfl x ox
  refine
    { moves := hm, start := hstart, object := ho, unpinned := hpin, size := rfl, layout := rfl
      hostBits := rfl, words := rfl, notForwarded := rfl, pinned := hpin, resident := rfl
      fresh := ?_, inHeap := ?_, heap := rfl, roots := rfl, gray := rfl, cards := rfl
      regions := rfl, marked := fun _ hb => hb, shades := .refl, copiedHi := ?_, shaded := ?_
      place := ?_, toSpace := ?_, fits := ?_, heads := fun _ _ hh => .inl hh }
  · intro x ox hox
    have := havoid x ox hox
    simp only at this
    unfold Apart
    omega
  · rw [Geometry.contains_iff]
    have h1 := c.geo.matureLo_le_largeLo
    have h2 := c.geo.largeLo_le_heapHi
    have h3 : c.geo.base ≤ c.geo.edenHi := Nat.le_add_right _ _
    omega
  · show s.toCopiedHi ≤ dest + (kHeaderBytes + o.size)
    omega
  · intro _ hold
    rw [Geometry.isOld_iff] at hold
    omega
  · right
    show _ ∧ _ ≤ dest + (kHeaderBytes + o.size)
    omega
  · show ToSpace c (copyHeap s.heap a o (dest + kHeaderBytes) (o.copied age false))
      (⟨dest + (kHeaderBytes + o.size), limit⟩ :: rest) (dest + (kHeaderBytes + o.size))
    have hasc := pairwise_cons.mp hspace.ascending
    have hrest : ∀ f ∈ rest, limit ≤ f.lo := fun f hf => hasc.1 f hf
    refine { avoids := ?_, within := ?_, ascending := ?_, copied := ?_, bounds := ?_ }
    · intro f hf x ox hox
      rcases mem_cons.mp hf with rfl | hf
      · rcases hcases x ox hox with ⟨rfl, hsize⟩ | ⟨o₀, ho₀, hsize⟩ <;> rw [hsize] <;> simp only
        · omega
        · have := havoid x o₀ ho₀
          simp only at this
          omega
      · rcases hcases x ox hox with ⟨rfl, hsize⟩ | ⟨o₀, ho₀, hsize⟩ <;> rw [hsize]
        · have := hrest f hf
          omega
        · exact hspace.avoids f (mem_cons_of_mem _ hf) x o₀ ho₀
    · intro f hf
      rcases mem_cons.mp hf with rfl | hf
      · simp only
        omega
      · exact hspace.within f (mem_cons_of_mem _ hf)
    · exact pairwise_cons.mpr ⟨hasc.1, hasc.2⟩
    · intro f hf
      rcases mem_cons.mp hf with rfl | hf
      · exact Nat.le_refl _
      · have := hrest f hf
        omega
    · omega
  · refine c.space.fits_congr h.fits ?_
    intro b hold
    show sizes (copyHeap s.heap a o (dest + kHeaderBytes) (o.copied age false)) b = sizes s.heap b
    rw [Geometry.isOld_iff] at hold
    have hbm : b ≠ dest + kHeaderBytes := by omega
    by_cases hba : b = a
    · subst hba
      simp [sizes, copyHeap_left, ho, Obj.forwardedTo, Obj.setWord]
    · simp [sizes, copyHeap_of_ne hba hbm]

theorem sizes_copyHeap {a moved : Nat} {o o' : Obj} (ho : heap a = some o) (hne : moved ≠ a)
    (hsize : o'.size = o.size) :
    sizes (copyHeap heap a o moved o') = Function.update (sizes heap) moved (some o.size) := by
  funext x
  by_cases hxa : x = a
  · subst hxa
    rw [Function.update_of_ne hne.symm]
    simp [sizes, copyHeap_left, ho, Obj.forwardedTo, Obj.setWord]
  · by_cases hxm : x = moved
    · subst hxm
      rw [Function.update_self]
      simp [sizes, copyHeap_moved hxa, hsize]
    · rw [Function.update_of_ne hxm]
      simp [sizes, copyHeap_of_ne hxa hxm]

theorem copies_promote {a age dest : Nat} {old : A} {o : Obj} (hb : Base c H R)
    (h : Shape c H R s) (hm : Moves c H a) (hstart : H a = some o) (ho : s.heap a = some o)
    (hpin : o.pinned = false)
    (halloc : c.space.allocate s.old (kHeaderBytes + o.size) = some (dest, old)) :
    Copies c H s a o (dest + kHeaderBytes) (o.copied age true)
      (placeCopy c a o dest age true { s with old := old }).2 := by
  have h8 : kHeaderBytes = 8 := rfl
  have h8' : kGranuleBytes = 8 := rfl
  obtain ⟨hpos, hmod⟩ := hb.sized a o hstart
  have hleast : 2 * kGranuleBytes ≤ kHeaderBytes + o.size := by omega
  have hmod' : (kHeaderBytes + o.size) % kGranuleBytes = 0 := by
    rw [h8'] at hmod ⊢
    omega
  have hpayload : kHeaderBytes + o.size - kHeaderBytes = o.size := by omega
  obtain ⟨hlo, hhi, hapart⟩ := c.space.allocate_apart h.fits hleast hmod' halloc
  have hfits := c.space.allocate_fits h.fits hleast hmod' halloc
  have hheads := fun p head => @OldSpace.allocate_head A c.geo c.space s.old (sizes s.heap)
    (kHeaderBytes + o.size) dest old h.fits hleast hmod' halloc p head
  rw [hpayload] at hapart hfits
  have hold : c.geo.isOld (dest + kHeaderBytes) = true := by
    rw [Geometry.isOld_iff]
    omega
  have hfresh : ∀ x ox, s.heap x = some ox → Apart (dest + kHeaderBytes) o.size x ox.size := by
    intro x ox hox
    rcases Geometry.contains_iff_or.mp (h.inHeap x ox hox) with hyoung | hxold
    · have := h.youngEnd hb hox hyoung
      unfold Apart
      omega
    · exact hapart x ox.size hxold (by simp [sizes, hox])
  have hne : dest + kHeaderBytes ≠ a := by
    rintro rfl
    rcases hfresh _ _ ho with hbad | hbad <;> omega
  have hheap : (placeCopy c a o dest age true { s with old := old }).2.heap =
      copyHeap s.heap a o (dest + kHeaderBytes) (o.copied age true) := by
    unfold placeCopy
    simp only [if_true, Bool.true_and]
    split <;> rfl
  have hspace := h.toSpace
  have hsame : ∀ {α : Type} (f : State A M → α), (∀ t m, f { t with marks := m } = f t) →
      f (placeCopy c a o dest age true { s with old := old }).2 =
        f { s with
            heap := copyHeap s.heap a o (dest + kHeaderBytes) (o.copied age true)
            old := c.space.noteLargeAllocated old dest
            gray := (dest + kHeaderBytes) :: s.gray } := by
    intro α f hf
    unfold placeCopy
    simp only [if_true, Bool.true_and]
    split
    · exact hf { s with
            heap := copyHeap s.heap a o (dest + kHeaderBytes) (o.copied age true)
            old := c.space.noteLargeAllocated old dest
            gray := (dest + kHeaderBytes) :: s.gray } _
    · rfl
  refine
    { moves := hm, start := hstart, object := ho, unpinned := hpin, size := rfl, layout := rfl
      hostBits := rfl, words := rfl, notForwarded := rfl, pinned := hpin, resident := rfl
      fresh := hfresh, inHeap := Geometry.contains_iff_or.mpr (.inr hold), heap := hheap
      roots := hsame (·.roots) fun _ _ => rfl
      gray := hsame (·.gray) fun _ _ => rfl
      cards := hsame (·.cards) fun _ _ => rfl
      regions := hsame (·.regions) fun _ _ => rfl
      marked := ?_, shades := ?_
      copiedHi := Nat.le_of_eq (hsame (·.toCopiedHi) fun _ _ => rfl).symm
      shaded := ?_, place := .inl ⟨hold, by omega⟩, toSpace := ?_, fits := ?_, heads := ?_ }
  · intro b hmarked
    unfold placeCopy
    simp only [if_true, Bool.true_and]
    split
    · exact c.marker.marked_mono _ _ _ hmarked
    · exact hmarked
  · have hsome : ((placeCopy c a o dest age true { s with old := old }).2.heap
        (dest + kHeaderBytes)).isSome = true := by
      rw [hheap, copyHeap_moved hne]
      rfl
    revert hsome
    unfold placeCopy
    simp only [if_true, Bool.true_and]
    split
    · exact fun hsome => .shade .refl hold hsome
    · exact fun _ => .refl
  · intro hshade _
    simp only [placeCopy, if_true, Bool.true_and, hshade]
    exact c.marker.marked_shade _ _
  · rw [hheap, hsame (·.toCursor) fun _ _ => rfl, hsame (·.toLimit) fun _ _ => rfl,
      hsame (·.toFrags) fun _ _ => rfl, hsame (·.toCopiedHi) fun _ _ => rfl]
    refine { within := hspace.within, ascending := hspace.ascending, copied := hspace.copied
             bounds := hspace.bounds, avoids := ?_ }
    intro f hf x ox hox
    have hcopy : (o.copied age true).size = o.size := rfl
    rcases copyHeap_cases ho hcopy hox with ⟨rfl, hsize⟩ | ⟨o₀, ho₀, hsize⟩ <;> rw [hsize]
    · have := (hspace.within f hf).2.1
      have := c.geo.survivorHi_le (!c.fromSpace)
      omega
    · exact hspace.avoids f hf x o₀ ho₀
  · have hcopy : (o.copied age true).size = o.size := rfl
    rw [hheap, hsame (·.old) fun _ _ => rfl, sizes_copyHeap ho hne hcopy]
    exact hfits
  · rw [hsame (·.old) fun _ _ => rfl]
    exact fun p head hh => hheads p head hh

theorem Inv.moveOn {cursor limit : Nat} (h : Inv c H R want W s)
    (hspace : ToSpace c s.heap (⟨cursor, limit⟩ :: rest) s.toCopiedHi) :
    Inv c H R want W { s with
      toFrags := rest, toCursor := cursor, toLimit := limit, survivorOverflow := true } ∧
    Grows c H s { s with
      toFrags := rest, toCursor := cursor, toLimit := limit, survivorOverflow := true } := by
  have hg : Grows c H s { s with
      toFrags := rest, toCursor := cursor, toLimit := limit, survivorOverflow := true } :=
    { forwards := fun _ _ _ hf => hf, kept := fun _ o ho => ⟨o, ho, rfl, rfl⟩
      dirty := fun _ hd => hd, unclean := fun _ hd => hd, regions := fun _ hr => hr
      marked := fun _ hm => hm, shaded := .refl
      stable := fun slot hl => by cases slot <;> exact ⟨hl, fun _ => rfl⟩
      potential := Nat.le_refl _ }
  refine ⟨{ toShape := { h.toShape with toSpace := hspace }, region := h.region, live := h.live
            slots := ?_ }, hg⟩
  intro slot hl
  have hl' : Live c H s slot := by
    cases slot <;> exact hl
  rcases h.slots slot hl' with hset | hgray | hw
  · refine .inl (hset.grows hg ?_ fun x i heq => hl'.some heq)
    cases slot <;> rfl
  · exact .inr (.inl hgray)
  · exact .inr (.inr hw)

theorem promote_spec {a : Nat} {o : Obj} (age : Nat) (hb : Base c H R) (h : Inv c H R want W s)
    (hm : Moves c H a) (hstart : H a = some o) (ho : s.heap a = some o) (hpin : o.pinned = false) :
    match promote c a o age s with
    | .error e => e = .oldExhausted
    | .ok (now, s') => Evacuated c H R want W s a now s' := by
  unfold promote
  cases halloc : c.space.allocate s.old (kHeaderBytes + o.size) with
  | none => rfl
  | some r =>
    obtain ⟨dest, old⟩ := r
    exact (copies_promote hb h.toShape hm hstart ho hpin halloc).evacuated hb h

/-- An object that is collected and has not been copied yet is copied, unless the old
generation has no room for it. -/
theorem evacuateYoung_spec {a : Nat} {o : Obj} (hb : Base c H R) (h : Inv c H R want W s)
    (hm : Moves c H a) (hstart : H a = some o) (ho : s.heap a = some o) :
    match evacuateYoung c a s with
    | .error e => e = .oldExhausted
    | .ok (now, s') => Evacuated c H R want W s a now s' := by
  have hpin : o.pinned = false := by
    obtain ⟨o₁, ho₁, _, hp⟩ := hm
    obtain rfl := some.inj (hstart.symm.trans ho₁)
    exact hp
  have hpos := (hb.sized a o hstart).1
  unfold evacuateYoung
  simp only [ho, hpin, Bool.false_eq_true, if_false]
  by_cases hage : min (o.age + 1) 7 < c.tenureAge
  · simp only [hage, if_true]
    cases hr : toSpaceAllocate (kHeaderBytes + o.size) s.toFrags s.toCursor s.toLimit with
    | mk dest r =>
      obtain ⟨rest, cursor, limit⟩ := r
      cases dest with
      | some dest =>
        obtain ⟨rfl, hlimit, hspace⟩ := toSpaceAllocate_some h.toSpace hr
        exact (copies_toSpace h.toShape hm hstart ho hpin hpos hspace hlimit).evacuated hb h
      | none =>
        obtain ⟨h', hg⟩ := h.moveOn (toSpaceAllocate_none h.toSpace hr)
        have hp := promote_spec (min (o.age + 1) 7) hb h' hm hstart ho hpin
        simp only
        revert hp
        cases promote c a o (min (o.age + 1) 7) { s with
          toFrags := rest, toCursor := cursor, toLimit := limit, survivorOverflow := true } with
        | error e => exact id
        | ok r =>
          intro hp
          refine { inv := hp.inv, grows := hg.trans hp.grows, forwards := hp.forwards
                   gray := hp.gray, live_read := ?_ }
          intro slot hl
          have hl' : Live c H { s with
              toFrags := rest, toCursor := cursor, toLimit := limit
              survivorOverflow := true } slot := by
            cases slot <;> exact hl
          have hread := hp.live_read slot hl'
          refine ⟨hread.1, hread.2.trans ?_⟩
          cases slot <;> rfl
  · simp only [hage, if_false]
    exact promote_spec _ hb h hm hstart ho hpin

end Brass.Gc.Heap
