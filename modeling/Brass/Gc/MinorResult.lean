import Brass.Gc.MinorStart

/-!
# What a minor collection leaves

The reachable objects are where the evacuation put them, each named by the slots that named
it before; the objects that the stacks name have not moved; and what the next collection
needs of the heap holds again, the remembered set among it.
-/

namespace Brass.Gc.Heap

open List Option Geometry

variable {A M : Type} {e : Env A M} {h h' : HeapState A M} {stackObjects : List Nat}

/-! ## The graph -/

variable {a x : Nat} {o o' : Obj}

/-- The objects that the roots and the stacks reach. -/
inductive HeapState.Reach (e : Env A M) (h : HeapState A M) (stackObjects : List Nat) :
    Nat → Prop where
  | root {r : Root} (hmem : r ∈ h.roots) (hrefers : e.geo.refers (r.word e.geo) = true) :
      HeapState.Reach e h stackObjects (addressOf (r.word e.geo))
  | stack {a : Nat} (hmem : a ∈ stackObjects) : HeapState.Reach e h stackObjects a
  | slot {x i : Nat} {o : Obj} (hreach : HeapState.Reach e h stackObjects x)
      (hobject : h.heap x = some o) (hslot : i ∈ slotsOf e.layouts o)
      (hrefers : e.geo.refers (o.words i) = true) :
      HeapState.Reach e h stackObjects (addressOf (o.words i))

/-- A slot's word once what it names is at `φ` of its address. -/
def mapWord (g : Geometry) (φ : Nat → Nat) (w : Nat) : Nat :=
  if g.refers w then retarget w (φ (addressOf w)) else w

/-- An object and the one that stands for it once the objects are at `φ` of their
addresses. -/
structure Stands (e : Env A M) (φ : Nat → Nat) (o o' : Obj) : Prop where
  size : o'.size = o.size
  layout : o'.layout = o.layout
  hostBits : o'.hostBits = o.hostBits
  slotsOf : slotsOf e.layouts o' = slotsOf e.layouts o
  slots : ∀ i ∈ Heap.slotsOf e.layouts o, o'.words i = mapWord e.geo φ (o.words i)
  other : ∀ i, i ∉ Heap.slotsOf e.layouts o → o'.words i = o.words i

/-- The graph that is reachable in `h'` is the one that is reachable in `h`, with the objects
at `φ` of their addresses. -/
structure Isomorphic (e : Env A M) (h h' : HeapState A M) (stackObjects : List Nat)
    (φ : Nat → Nat) : Prop where
  injective : ∀ a b, h.Reach e stackObjects a → h.Reach e stackObjects b → φ a = φ b → a = b
  named : ∀ a ∈ stackObjects, φ a = a
  reach : ∀ b, h'.Reach e stackObjects b ↔ ∃ a, h.Reach e stackObjects a ∧ φ a = b
  objects : ∀ a o, h.Reach e stackObjects a → h.heap a = some o →
    ∃ o', h'.heap (φ a) = some o' ∧ Stands e φ o o'
  roots : List.Forall₂ (fun r r' => r'.isRaw = r.isRaw ∧
    r'.word e.geo = mapWord e.geo φ (r.word e.geo)) h.roots h'.roots

/-! ## The evacuated heap -/

section Done

variable {c : Setup A M} {H : Nat → Option Obj} {R : List Root} {want : Nat → Nat → Prop}
  {s : State A M}
variable {pinned : List Nat} {inSpace : Nat → Bool} {lo : Nat} {l : List (Nat × Nat)}

/-- Where the object that was at `a` is. -/
def movedTo (heap : Nat → Option Obj) (a : Nat) : Nat :=
  match heap a with
  | some o => if o.forwarded then o.words 0 else a
  | none => a

theorem Shape.movedTo_eq (hs : Shape c H R s) (hp : Place c H s.heap a x) :
    movedTo s.heap a = x := by
  unfold movedTo
  cases hp with
  | stays hsome hstays =>
    obtain ⟨_, o', _, ho', hr⟩ := hs.place_some (.stays hsome hstays)
    simp only [ho', hr.forwarded, Bool.false_eq_true, if_false]
  | moved _ hf =>
    obtain ⟨o, ho, hfwd, rfl⟩ := hf
    simp only [ho, hfwd, if_true]

/-- A word as the evacuation started, and the one that names what it named at its present
place. -/
structure Follows (c : Setup A M) (H heap : Nat → Option Obj) (w w' : Nat) : Prop where
  word : w' = mapWord c.geo (movedTo heap) w
  refers : c.geo.refers w' = c.geo.refers w
  place : c.geo.refers w = true → Place c H heap (addressOf w) (movedTo heap (addressOf w))
  address : c.geo.refers w = true → addressOf w' = movedTo heap (addressOf w)

theorem Shape.follows (hs : Shape c H R s) {w w' : Nat} (hw : MovedWord c H s.heap w w')
    (hsome : c.geo.refers w = true → (H (addressOf w)).isSome = true)
    (htarget : c.geo.refers w' = true → ¬ Moves c H (addressOf w')) :
    Follows c H s.heap w w' := by
  rcases hw with rfl | ⟨hrefers, hm, b, hf, rfl⟩
  · by_cases hrefers : c.geo.refers w' = true
    · have hp : Place c H s.heap (addressOf w') (addressOf w') :=
        .stays (hsome hrefers) (htarget hrefers)
      have heq := hs.movedTo_eq hp
      refine ⟨?_, rfl, fun _ => heq.symm ▸ hp, fun _ => heq.symm⟩
      rw [mapWord, if_pos hrefers, heq, retarget_addressOf]
    · refine ⟨?_, rfl, fun hr => absurd hr hrefers, fun hr => absurd hr hrefers⟩
      rw [mapWord, if_neg hrefers]
  · have hp : Place c H s.heap (addressOf w) b := .moved hm hf
    have hin := hs.forward_contains _ _ hm hf
    have hlt := lt_of_contains hin
    have hrefers' : c.geo.refers (retarget w b) = true := by
      unfold refers isReferenceTag at hrefers ⊢
      rw [tagOf_retarget hlt, addressOf_retarget hlt, hin, Bool.and_true]
      exact (Bool.and_eq_true _ _ ▸ hrefers).1
    have heq := hs.movedTo_eq hp
    refine ⟨?_, hrefers'.trans hrefers.symm, fun _ => heq.symm ▸ hp, fun _ => ?_⟩
    · rw [mapWord, if_pos hrefers, heq]
    · rw [addressOf_retarget hlt, heq]

theorem Shape.place_of_stays (hs : Shape c H R s) (hsome : (s.heap x).isSome = true)
    (hstays : ¬ Moves c H x) : ∃ a, Place c H s.heap a x := by
  obtain ⟨o, ho⟩ := isSome_iff_exists.mp hsome
  rcases hs.domain x o ho with hH | ⟨a, hm, hf⟩
  · exact ⟨x, .stays hH hstays⟩
  · exact ⟨a, .moved hm hf⟩

theorem Place.injective (hs : Shape c H R s) {b : Nat} (ha : Place c H s.heap a x)
    (hb : Place c H s.heap b x) : a = b := by
  cases ha with
  | stays hsome hstays =>
    cases hb with
    | stays _ _ => rfl
    | moved hm hf =>
      rw [(hs.copy _ _ hm hf).1] at hsome
      exact absurd hsome (by simp)
  | moved hm hf =>
    cases hb with
    | stays hsome _ =>
      rw [(hs.copy _ _ hm hf).1] at hsome
      exact absurd hsome (by simp)
    | moved hm' hf' => exact hs.injective _ _ _ hm hm' hf hf'

structure Pins (H : Nat → Option Obj) (pinned : List Nat) : Prop where
  mem : ∀ a ∈ pinned, ∃ o, H a = some o ∧ o.pinned = true
  all : ∀ a o, H a = some o → o.pinned = true → a ∈ pinned

theorem Pins.not_moves (hpin : Pins H pinned) (ha : a ∈ pinned) : ¬ Moves c H a := by
  rintro ⟨o, ho, _, hfalse⟩
  obtain ⟨o', ho', htrue⟩ := hpin.mem a ha
  obtain rfl := some.inj (ho.symm.trans ho')
  rw [hfalse] at htrue
  exact absurd htrue (by simp)

theorem reclaimHeap_place (hpin : Pins H pinned) (hb : Base c H R) (hs : Shape c H R s)
    (hp : Place c H s.heap a x) (ho : s.heap x = some o) :
    reclaimHeap c s.heap pinned x = some (if x ∈ pinned then o.settle else o) := by
  unfold reclaimHeap
  by_cases hx : x ∈ pinned
  · simp only [if_pos hx, ho, map_some]
  · have hfrom : ¬ inFrom c s.heap x = true := by
      intro hfrom
      obtain ⟨hsome, hfrom'⟩ := (hs.inFrom_eq hb (by rw [ho]; rfl)).mp hfrom
      obtain ⟨o₀, ho₀⟩ := isSome_iff_exists.mp hsome
      refine hs.place_not_moves hp ⟨o₀, ho₀, hfrom', ?_⟩
      by_contra htrue
      exact hx (hpin.all x o₀ ho₀ (by simpa using htrue))
    simp only [if_neg hx, if_neg hfrom, ho]

theorem reclaimHeap_some (hpin : Pins H pinned) (hb : Base c H R) (hs : Shape c H R s)
    (ho' : reclaimHeap c s.heap pinned x = some o') :
    ∃ a o, Place c H s.heap a x ∧ s.heap x = some o ∧ o' = if x ∈ pinned then o.settle else o := by
  have hplace : ∃ a o, Place c H s.heap a x ∧ s.heap x = some o := by
    by_cases hx : x ∈ pinned
    · obtain ⟨o₀, ho₀, _⟩ := hpin.mem x hx
      have hp : Place c H s.heap x x := .stays (by rw [ho₀]; rfl) (hpin.not_moves hx)
      obtain ⟨_, o, _, ho, _⟩ := hs.place_some hp
      exact ⟨x, o, hp, ho⟩
    · unfold reclaimHeap at ho'
      rw [if_neg hx] at ho'
      split at ho'
      · exact absurd ho' (by simp)
      · next hfrom =>
        have hsome : (s.heap x).isSome = true := by rw [ho']; rfl
        obtain ⟨a, hp⟩ := hs.place_of_stays hsome (by
          rintro ⟨o₀, ho₀, hfrom', _⟩
          exact hfrom ((hs.inFrom_eq hb hsome).mpr ⟨by rw [ho₀]; rfl, hfrom'⟩))
        exact ⟨a, o', hp, ho'⟩
  obtain ⟨a, o, hp, ho⟩ := hplace
  refine ⟨a, o, hp, ho, ?_⟩
  rw [reclaimHeap_place hpin hb hs hp ho] at ho'
  exact (some.inj ho').symm

/-! ## The tops of the spaces -/

theorem lastEnd_none (hnone : ∀ r ∈ l, inSpace r.1 = false) : lastEnd inSpace lo l = lo := by
  unfold lastEnd
  induction l with
  | nil => rfl
  | cons r l ih =>
    simp only [foldl_cons, hnone r mem_cons_self, Bool.false_eq_true, if_false]
    exact ih fun r' hr' => hnone r' (mem_cons_of_mem _ hr')

theorem lastEnd_le {hi : Nat} (hlo : lo ≤ hi)
    (hall : ∀ r ∈ l, inSpace r.1 = true → r.1 + r.2 ≤ hi) : lastEnd inSpace lo l ≤ hi := by
  unfold lastEnd
  induction l generalizing lo with
  | nil => exact hlo
  | cons r l ih =>
    refine ih ?_ fun r' hr' => hall r' (mem_cons_of_mem _ hr')
    simp only
    split
    · next hin => exact hall r mem_cons_self hin
    · exact hlo

/-- In ascending order the last resident of a space is the highest. -/
theorem le_lastEnd (hl : l.Pairwise fun r r' => r.1 + r.2 + kHeaderBytes ≤ r'.1)
    (hlo : ∀ r ∈ l, inSpace r.1 = true → lo ≤ r.1) : lo ≤ lastEnd inSpace lo l ∧
      ∀ r ∈ l, inSpace r.1 = true → r.1 + r.2 ≤ lastEnd inSpace lo l := by
  unfold lastEnd
  induction l generalizing lo with
  | nil => exact ⟨Nat.le_refl _, fun r hr => absurd hr (by simp)⟩
  | cons r l ih =>
    obtain ⟨hafter, hl'⟩ := pairwise_cons.mp hl
    simp only [foldl_cons]
    by_cases hin : inSpace r.1 = true
    · rw [if_pos hin]
      have hr := hlo r mem_cons_self hin
      obtain ⟨hle, hall⟩ := ih hl' fun r' hr' _ => by
        have := hafter r' hr'
        exact (by omega : r.1 + r.2 ≤ r'.1)
      refine ⟨by omega, fun r' hr' hin' => ?_⟩
      rcases mem_cons.mp hr' with rfl | hr'
      · exact hle
      · exact hall r' hr' hin'
    · rw [if_neg hin]
      obtain ⟨hle, hall⟩ := ih hl' fun r' hr' => hlo r' (mem_cons_of_mem _ hr')
      refine ⟨hle, fun r' hr' hin' => ?_⟩
      rcases mem_cons.mp hr' with rfl | hr'
      · exact absurd hin' hin
      · exact hall r' hr' hin'

theorem highestEnd_le {hi : Nat} (hlo : lo ≤ hi)
    (hall : ∀ r ∈ l, inSpace r.1 = true → r.1 + r.2 ≤ hi) : highestEnd inSpace lo l ≤ hi := by
  unfold highestEnd
  induction l generalizing lo with
  | nil => exact hlo
  | cons r l ih =>
    refine ih ?_ fun r' hr' => hall r' (mem_cons_of_mem _ hr')
    simp only
    split
    · next hin => exact Nat.max_le.mpr ⟨hlo, hall r mem_cons_self hin⟩
    · exact hlo

theorem le_highestEnd (lo : Nat) : lo ≤ highestEnd inSpace lo l ∧
      ∀ r ∈ l, inSpace r.1 = true → r.1 + r.2 ≤ highestEnd inSpace lo l := by
  unfold highestEnd
  induction l generalizing lo with
  | nil => exact ⟨Nat.le_refl _, fun r hr => absurd hr (by simp)⟩
  | cons r l ih =>
    simp only [foldl_cons]
    by_cases hin : inSpace r.1 = true
    · rw [if_pos hin]
      obtain ⟨hle, hall⟩ := ih (max lo (r.1 + r.2))
      refine ⟨by omega, fun r' hr' hin' => ?_⟩
      rcases mem_cons.mp hr' with rfl | hr'
      · exact Nat.le_trans (Nat.le_max_right _ _) hle
      · exact hall r' hr' hin'
    · rw [if_neg hin]
      obtain ⟨hle, hall⟩ := ih lo
      refine ⟨hle, fun r' hr' hin' => ?_⟩
      rcases mem_cons.mp hr' with rfl | hr'
      · exact absurd hin' hin
      · exact hall r' hr' hin'

end Done

section Collected

variable {span : Nat} {frags : List YoungFragment} {want : Nat → Nat → Prop} {s : State A M}

theorem pins_start (hw : h.WellFormed e) :
    Pins (startHeap e h span stackObjects) (pinnedOf e h span stackObjects) where
  mem := by
    intro a ha
    obtain ⟨_, _, _, hsome⟩ := (mem_pinnedOf hw).mp ha
    obtain ⟨o₀, ho₀⟩ := isSome_iff_exists.mp hsome
    obtain ⟨o, ho⟩ := pinHeap_of_some (pinnedOf e h span stackObjects) ho₀
    obtain ⟨_, _, _, _, _, _, _, _, ⟨_, htrue⟩ | ⟨hout, _⟩⟩ := pinHeap_some ho
    · exact ⟨o, ho, htrue⟩
    · exact absurd ha hout
  all := by
    intro a o ho htrue
    obtain ⟨o₀, ho₀, _, _, _, _, _, _, ⟨hin, _⟩ | ⟨_, heq⟩⟩ := pinHeap_some ho
    · exact hin
    · rw [heq, (hw.plain a o₀ ho₀).2] at htrue
      exact absurd htrue (by simp)

theorem survivorTop_to (e : Env A M) (h : HeapState A M) (span : Nat) (pinned : List Nat)
    (s : State A M) :
    (reclaimYoung (e.setup h span) pinned s).survivorTop (!h.fromSurvivor) =
      max s.toCopiedHi (highestEnd (fun p => !e.geo.inEden p && !e.geo.inSurvivor h.fromSurvivor p)
        (e.geo.survivorLo (!h.fromSurvivor)) (reclaimYoung (e.setup h span) pinned s).residents) := by
  have hne : ¬ ((!h.fromSurvivor) = h.fromSurvivor) := by simp
  exact if_neg hne

structure Done (e : Env A M) (h : HeapState A M) (stackObjects : List Nat)
    (frags : List YoungFragment) (span : Nat) (want : Nat → Nat → Prop) (s : State A M) : Prop where
  wellFormed : h.WellFormed e
  names : h.Names stackObjects
  prepared : Prepared e h frags span
  inv : Inv (e.setup h span) (startHeap e h span stackObjects) h.roots want (fun _ => False) s
  gray : s.gray = []
  shades : Shades (e.setup h span) s.heap h.marks s.marks

/-- The heap after the collection that ends with `s`. -/
abbrev reclaimed (e : Env A M) (h : HeapState A M) (span : Nat) (stackObjects : List Nat)
    (s : State A M) : HeapState A M :=
  reclaimYoung (e.setup h span) (pinnedOf e h span stackObjects) s

namespace Done

variable (d : Done e h stackObjects frags span want s)

include d

theorem base : Base (e.setup h span) (startHeap e h span stackObjects) h.roots :=
  base_start d.wellFormed d.prepared

theorem settled {u : Slot} (hu : Live (e.setup h span) (startHeap e h span stackObjects) s u) :
    Settled (e.setup h span) (startHeap e h span stackObjects) want s u := by
  rcases d.inv.slots u hu with hset | ⟨x, hx, _⟩ | hf
  · exact hset
  · rw [d.gray] at hx
    exact absurd hx (by simp)
  · exact hf.elim

theorem follows_roots : List.Forall₂ (fun r r' => r'.isRaw = r.isRaw ∧
    Follows (e.setup h span) (startHeap e h span stackObjects) s.heap
      (r.word e.geo) (r'.word e.geo)) h.roots s.roots := by
  rw [forall₂_iff_get]
  have hroots := d.inv.roots
  refine ⟨hroots.length_eq, fun k hk hk' => ?_⟩
  obtain ⟨hraw, hword⟩ := hroots.get hk hk'
  have hset := d.settled (u := .root k) hk'
  have hread : readSlot (e.setup h span) s (.root k) = (s.roots.get ⟨k, hk'⟩).word e.geo := by
    have hget : s.roots[k]? = some (s.roots.get ⟨k, hk'⟩) := getElem?_eq_getElem hk'
    simp only [readSlot, hget]
    rfl
  refine ⟨hraw, d.inv.follows hword (fun hrefers => ?_) ?_⟩
  · exact d.base.rootsClosed _ (get_mem _ _) hrefers
  · have := hset.target
    rw [hread] at this
    exact this

theorem stands (ho : h.heap a = some o)
    (hp : Place (e.setup h span) (startHeap e h span stackObjects) s.heap a x) :
    ∃ o', (reclaimed e h span stackObjects s).heap x = some o' ∧
      Stands e (movedTo s.heap) o o' ∧ ∀ i ∈ slotsOf e.layouts o,
        Follows (e.setup h span) (startHeap e h span stackObjects) s.heap (o.words i)
          (o'.words i) := by
  obtain ⟨o₀, o₁, ho₀, ho₁, hr⟩ := d.inv.place_some hp
  obtain ⟨o', ho', hsize, hlayout, hhost, hwords, _⟩ := pinHeap_some ho₀
  obtain rfl := some.inj (ho.symm.trans ho')
  have hslots₀ : slotsOf e.layouts o₀ = slotsOf e.layouts o := slotsOf_congr hlayout hsize hwords
  have hslots₁ : slotsOf e.layouts o₁ = slotsOf e.layouts o :=
    (hr.slotsOf_eq d.base d.inv.forward_contains).trans hslots₀
  have hfollows : ∀ i ∈ slotsOf e.layouts o,
      Follows (e.setup h span) (startHeap e h span stackObjects) s.heap (o.words i)
        (o₁.words i) := by
    intro i hi
    have hset := d.settled (u := .field x i) ⟨a, o₁, hp, ho₁, by
      rw [show slotsOf (e.setup h span).layouts o₁ = slotsOf e.layouts o from hslots₁]
      exact hi⟩
    have hread : readSlot (e.setup h span) s (.field x i) = o₁.words i := by
      simp only [readSlot, ho₁]
      rfl
    have hmoved := hr.slots i (show i ∈ slotsOf e.layouts o₀ by rw [hslots₀]; exact hi)
    rw [hwords] at hmoved
    refine d.inv.follows hmoved (fun hrefers => ?_) ?_
    · exact pinHeap_isSome.trans (d.wellFormed.closed a o ho i hi hrefers)
    · have := hset.target
      rw [hread] at this
      exact this
  have hsame : ∀ o₂ : Obj, o₂.size = o₁.size → o₂.layout = o₁.layout →
      o₂.hostBits = o₁.hostBits → o₂.words = o₁.words →
      Stands e (movedTo s.heap) o o₂ ∧ ∀ i ∈ slotsOf e.layouts o,
        Follows (e.setup h span) (startHeap e h span stackObjects) s.heap (o.words i)
          (o₂.words i) := by
    intro o₂ h1 h2 h3 h4
    refine ⟨{ size := h1.trans (hr.size.trans hsize), layout := h2.trans (hr.layout.trans hlayout)
              hostBits := h3.trans (hr.hostBits.trans hhost)
              slotsOf := (slotsOf_congr h2 h1 h4).trans hslots₁
              slots := ?_, other := ?_ }, ?_⟩
    · intro i hi
      rw [h4]
      exact (hfollows i hi).word
    · intro i hi
      rw [h4, hr.other i (show i ∉ slotsOf e.layouts o₀ by rw [hslots₀]; exact hi), hwords]
    · rw [h4]
      exact hfollows
  refine ⟨_, reclaimHeap_place (pins_start d.wellFormed) d.base d.inv.toShape hp ho₁, ?_⟩
  split
  · exact hsame _ rfl rfl rfl rfl
  · exact hsame _ rfl rfl rfl rfl

/-- Every reachable object is at its present place. -/
theorem reach_place (hreach : h.Reach e stackObjects a) :
    Place (e.setup h span) (startHeap e h span stackObjects) s.heap a (movedTo s.heap a) := by
  have hstays : ∀ {x : Nat}, (h.heap x).isSome = true →
      ¬ Moves (e.setup h span) (startHeap e h span stackObjects) x →
      Place (e.setup h span) (startHeap e h span stackObjects) s.heap x (movedTo s.heap x) := by
    intro x hsome hm
    have hp : Place (e.setup h span) (startHeap e h span stackObjects) s.heap x x :=
      .stays (pinHeap_isSome.trans hsome) hm
    rw [d.inv.movedTo_eq hp]
    exact hp
  induction hreach with
  | root hmem hrefers =>
    obtain ⟨k, hk, rfl⟩ := mem_iff_get.mp hmem
    have hk' : (k : Nat) < s.roots.length := by
      rw [← d.follows_roots.length_eq]
      exact k.isLt
    exact (d.follows_roots.get k.isLt hk').2.place hrefers
  | stack hmem =>
    refine hstays (d.names.objects _ hmem) fun hm => ?_
    obtain ⟨hsome, hfrom, hout⟩ := (moves_start d.wellFormed).mp hm
    exact hout ((mem_pinnedOf d.wellFormed).mpr ⟨hmem, hm.young d.base, hfrom, hsome⟩)
  | slot _ hobject hslot hrefers ih =>
    obtain ⟨_, _, _, hfollows⟩ := d.stands hobject ih
    exact (hfollows _ hslot).place hrefers

theorem reach_some (hreach : h.Reach e stackObjects a) : ∃ o, h.heap a = some o := by
  apply isSome_iff_exists.mp
  cases hreach with
  | root hmem hrefers => exact d.wellFormed.rootsClosed _ hmem hrefers
  | stack hmem => exact d.names.objects _ hmem
  | slot _ hobject hslot hrefers => exact d.wellFormed.closed _ _ hobject _ hslot hrefers

theorem named (ha : a ∈ stackObjects) : movedTo s.heap a = a := by
  apply d.inv.movedTo_eq
  refine .stays (pinHeap_isSome.trans (d.names.objects a ha)) fun hm => ?_
  obtain ⟨hsome, hfrom, hout⟩ := (moves_start d.wellFormed).mp hm
  exact hout ((mem_pinnedOf d.wellFormed).mpr ⟨ha, hm.young d.base, hfrom, hsome⟩)

theorem isomorphic : Isomorphic e h (reclaimed e h span stackObjects s) stackObjects
    (movedTo s.heap) := by
  refine
    { injective := ?_, named := fun a ha => d.named ha, reach := ?_, objects := ?_, roots := ?_ }
  · intro a b ha hb heq
    have hpa := d.reach_place ha
    rw [heq] at hpa
    exact hpa.injective d.inv.toShape (d.reach_place hb)
  · intro b
    constructor
    · intro hreach
      induction hreach with
      | root hmem hrefers =>
        obtain ⟨k, hk, rfl⟩ := mem_iff_get.mp hmem
        have hk' : (k : Nat) < h.roots.length := by
          rw [d.follows_roots.length_eq]
          exact k.isLt
        have hfollows := (d.follows_roots.get hk' k.isLt).2
        have hrefers' := hfollows.refers.symm.trans hrefers
        exact ⟨_, .root (get_mem h.roots ⟨k, hk'⟩) hrefers', (hfollows.address hrefers').symm⟩
      | stack hmem => exact ⟨_, .stack hmem, d.named hmem⟩
      | slot _ hobject hslot hrefers ih =>
        obtain ⟨a, ha, rfl⟩ := ih
        obtain ⟨o, ho⟩ := d.reach_some ha
        obtain ⟨o', ho', hstands, hfollows⟩ := d.stands ho (d.reach_place ha)
        obtain rfl := some.inj (ho'.symm.trans hobject)
        rw [hstands.slotsOf] at hslot
        have hrefers' := (hfollows _ hslot).refers.symm.trans hrefers
        exact ⟨_, .slot ha ho hslot hrefers', ((hfollows _ hslot).address hrefers').symm⟩
    · rintro ⟨a, hreach, rfl⟩
      induction hreach with
      | root hmem hrefers =>
        obtain ⟨k, hk, rfl⟩ := mem_iff_get.mp hmem
        have hk' : (k : Nat) < s.roots.length := by
          rw [← d.follows_roots.length_eq]
          exact k.isLt
        have hfollows := (d.follows_roots.get k.isLt hk').2
        rw [← hfollows.address hrefers]
        exact .root (get_mem s.roots ⟨k, hk'⟩) (hfollows.refers.trans hrefers)
      | stack hmem =>
        rw [d.named hmem]
        exact .stack hmem
      | slot hreach hobject hslot hrefers ih =>
        obtain ⟨o', ho', hstands, hfollows⟩ := d.stands hobject (d.reach_place hreach)
        rw [← (hfollows _ hslot).address hrefers]
        exact .slot ih ho' (hstands.slotsOf ▸ hslot) ((hfollows _ hslot).refers.trans hrefers)
  · intro a o hreach ho
    obtain ⟨o', ho', hstands, _⟩ := d.stands ho (d.reach_place hreach)
    exact ⟨o', ho', hstands⟩
  · exact d.follows_roots.imp fun r r' hr => ⟨hr.1, hr.2.word⟩

theorem remembers : (reclaimed e h span stackObjects s).Remembers e := by
  intro x o' i ho' hold hi hrefers hyoung
  obtain ⟨a, o, hp, ho, rfl⟩ := reclaimHeap_some (pins_start d.wellFormed) d.base d.inv.toShape ho'
  have hout : x ∉ pinnedOf e h span stackObjects := by
    intro hin
    have := ((mem_pinnedOf d.wellFormed).mp hin).2.1
    rw [not_young_of_old hold] at this
    exact absurd this (by simp)
  rw [if_neg hout] at hi hrefers hyoung ⊢
  have hset := d.settled (u := .field x i) ⟨a, o, hp, ho, hi⟩
  have hread : readSlot (e.setup h span) s (.field x i) = o.words i := by
    simp only [readSlot, ho]
    rfl
  have := hset.remembered x i o rfl ho hold
  rw [hread] at this
  exact this hrefers hyoung

theorem left
    (ho' : reclaimHeap (e.setup h span) s.heap (pinnedOf e h span stackObjects) x = some o') :
    (e.geo.isOld x = true ∧ e.geo.matureLo + kHeaderBytes ≤ x) ∨
    (x ∈ pinnedOf e h span stackObjects ∧ o'.resident = true ∧
      ∃ o, h.heap x = some o ∧ o'.size = o.size) ∨
    (e.geo.survivorLo (!h.fromSurvivor) + kHeaderBytes ≤ x ∧ x + o'.size ≤ s.toCopiedHi) := by
  obtain ⟨a, o, hp, ho, rfl⟩ := reclaimHeap_some (pins_start d.wellFormed) d.base d.inv.toShape ho'
  by_cases hin : x ∈ pinnedOf e h span stackObjects
  · rw [if_pos hin]
    obtain ⟨_, _, _, hsome⟩ := (mem_pinnedOf d.wellFormed).mp hin
    obtain ⟨o₀, ho₀⟩ := isSome_iff_exists.mp hsome
    obtain ⟨o₁, ho₁⟩ := pinHeap_of_some (pinnedOf e h span stackObjects) ho₀
    obtain ⟨o₂, ho₂, hsize, _⟩ := pinHeap_some ho₁
    obtain rfl := some.inj (ho₀.symm.trans ho₂)
    exact .inr (.inl ⟨hin, rfl, o₀, ho₀, (d.inv.start_size ho ho₁).trans hsize⟩)
  · rw [if_neg hin]
    cases hp with
    | stays hsome hstays =>
      obtain ⟨o₁, ho₁⟩ := isSome_iff_exists.mp hsome
      obtain ⟨o₀, ho₀, _⟩ := pinHeap_some ho₁
      have hold := (stays_start d.wellFormed d.prepared ho₀ hstays).resolve_right hin
      rcases d.wellFormed.bounds ho₀ with hb | hb
      · have h8 := (d.wellFormed.sized x o₀ ho₀).1
        have h9 : kGranuleBytes = 8 := rfl
        have := (isOld_iff.mp hold).1
        omega
      · exact .inl hb
    | moved hm hf =>
      obtain ⟨_, o₁, ho₁, _, _, hwhere⟩ := d.inv.copy _ _ hm hf
      obtain rfl := some.inj (ho.symm.trans ho₁)
      exact hwhere.imp_right .inr

theorem left_flags
    (ho' : reclaimHeap (e.setup h span) s.heap (pinnedOf e h span stackObjects) x = some o') :
    o'.forwarded = false ∧ o'.pinned = false ∧ kGranuleBytes ≤ o'.size ∧
      o'.size % kGranuleBytes = 0 := by
  obtain ⟨a, o, hp, ho, rfl⟩ := reclaimHeap_some (pins_start d.wellFormed) d.base d.inv.toShape ho'
  obtain ⟨o₀, o₁, ho₀, ho₁, hr⟩ := d.inv.place_some hp
  obtain rfl := some.inj (ho.symm.trans ho₁)
  have hsized := d.base.sized a o₀ ho₀
  rw [← hr.size] at hsized
  by_cases hin : x ∈ pinnedOf e h span stackObjects
  · rw [if_pos hin]
    exact ⟨hr.forwarded, rfl, hsized⟩
  · rw [if_neg hin]
    refine ⟨hr.forwarded, ?_, hsized⟩
    cases hp with
    | stays hsome hstays =>
      obtain ⟨o₂, ho₂, hpin, _⟩ := d.inv.flags x o₀ ho₀ hstays
      obtain rfl := some.inj (ho.symm.trans ho₂)
      rw [hpin]
      by_contra htrue
      exact hin ((pins_start d.wellFormed).all x o₀ ho₀ (by simpa using htrue))
    | moved hm hf =>
      obtain ⟨_, o₂, ho₂, hpin, _⟩ := d.inv.copy _ _ hm hf
      obtain rfl := some.inj (ho.symm.trans ho₂)
      exact hpin

theorem left_some (hsome : (s.heap x).isSome = true)
    (hstays : ¬ Moves (e.setup h span) (startHeap e h span stackObjects) x) :
    (reclaimHeap (e.setup h span) s.heap (pinnedOf e h span stackObjects) x).isSome = true := by
  obtain ⟨a, hp⟩ := d.inv.place_of_stays hsome hstays
  obtain ⟨o, ho⟩ := isSome_iff_exists.mp hsome
  rw [reclaimHeap_place (pins_start d.wellFormed) d.base d.inv.toShape hp ho]
  rfl

theorem left_old (hold : e.geo.isOld x = true) :
    reclaimHeap (e.setup h span) s.heap (pinnedOf e h span stackObjects) x = s.heap x := by
  have hnot : e.geo.isYoung x = false := not_young_of_old hold
  unfold reclaimHeap
  rw [if_neg, if_neg]
  · intro hfrom
    have hyoung : e.geo.isYoung x = true := inFrom_young d.base hfrom
    rw [hnot] at hyoung
    exact absurd hyoung (by simp)
  · intro hin
    have := ((mem_pinnedOf d.wellFormed).mp hin).2.1
    rw [hnot] at this
    exact absurd this (by simp)

theorem pinned_size (hin : x ∈ pinnedOf e h span stackObjects) :
    ∃ o, h.heap x = some o ∧ ((s.heap x).map (·.size)).getD 0 = o.size := by
  obtain ⟨_, _, _, hsome⟩ := (mem_pinnedOf d.wellFormed).mp hin
  obtain ⟨o₀, ho₀⟩ := isSome_iff_exists.mp hsome
  obtain ⟨o₁, ho₁⟩ := pinHeap_of_some (pinnedOf e h span stackObjects) ho₀
  obtain ⟨o₂, ho₂, hsize, _⟩ := pinHeap_some ho₁
  obtain rfl := some.inj (ho₀.symm.trans ho₂)
  obtain ⟨o, ho⟩ := isSome_iff_exists.mp (d.inv.start_some (a := x) (by
    rw [show startHeap e h span stackObjects x = some o₁ from ho₁]
    rfl))
  refine ⟨o₀, ho₀, ?_⟩
  rw [ho]
  exact (d.inv.start_size ho ho₁).trans hsize

theorem resident_mem {r : Nat × Nat} (hr : r ∈ (reclaimed e h span stackObjects s).residents) :
    r.1 ∈ pinnedOf e h span stackObjects ∧ ∃ o, h.heap r.1 = some o ∧ r.2 = o.size := by
  obtain ⟨p, hp, rfl⟩ := mem_map.mp hr
  obtain ⟨o, ho, hsize⟩ := d.pinned_size hp
  exact ⟨hp, o, ho, hsize⟩

theorem residents_ascending : (reclaimed e h span stackObjects s).residents.Pairwise
      fun r r' => r.1 + r.2 + kHeaderBytes ≤ r'.1 := by
  have hsorted : (pinnedOf e h span stackObjects).Pairwise (· < ·) :=
    d.names.ascending.sublist filter_sublist
  refine pairwise_map.mpr (hsorted.imp_of_mem ?_)
  intro p p' hp hp' hlt
  obtain ⟨o, ho, hsize⟩ := d.pinned_size hp
  obtain ⟨o', ho', _⟩ := d.pinned_size hp'
  simp only [hsize]
  rcases d.wellFormed.apart p p' o o' ho ho' (Nat.ne_of_lt hlt) with hap | hap
  · exact hap
  · omega

/-- Where the residents are: those of eden, of the survivor space that was collected, and of
the other one. -/
theorem resident_lies {r : Nat × Nat} (hr : r ∈ (reclaimed e h span stackObjects s).residents) :
    (e.geo.edenLo + kHeaderBytes ≤ r.1 ∧ r.1 + r.2 ≤ e.geo.edenHi) ∨
    (e.geo.survivorLo h.fromSurvivor + kHeaderBytes ≤ r.1 ∧
      r.1 + r.2 ≤ e.geo.survivorHi h.fromSurvivor) ∨
    (e.geo.survivorLo (!h.fromSurvivor) + kHeaderBytes ≤ r.1 ∧
      r.1 + r.2 ≤ e.geo.survivorHi (!h.fromSurvivor)) := by
  obtain ⟨hin, o, ho, hsize⟩ := d.resident_mem hr
  have h1 := d.wellFormed.edenEnd
  have h2 := d.wellFormed.survivorTop
  rw [hsize]
  rcases d.wellFormed.lies _ o ho with hl | hl | ⟨hto, _, hmem⟩ | ⟨hold, _⟩
  · exact .inl (by omega)
  · exact .inr (.inl (by omega))
  · exact .inr (.inr (d.wellFormed.residentIn _ hmem hto))
  · have := ((mem_pinnedOf d.wellFormed).mp hin).2.1
    rw [not_young_of_old hold] at this
    exact absurd this (by simp)

theorem left_lies
    (ho' : reclaimHeap (e.setup h span) s.heap (pinnedOf e h span stackObjects) x = some o') :
    Lies e.geo (reclaimed e h span stackObjects s) x o' := by
  have hh : kHeaderBytes = 8 := rfl
  have hg : kGranuleBytes = 8 := rfl
  have hsize := (d.left_flags ho').2.2.1
  have htop := survivorTop_to e h span (pinnedOf e h span stackObjects) s
  rcases d.left ho' with hold | ⟨hin, hres, o, ho, heq⟩ | ⟨hlo, hhi⟩
  · exact .inr (.inr (.inr hold))
  · have hmem : (x, o'.size) ∈ (reclaimed e h span stackObjects s).residents := by
      obtain ⟨o₀, ho₀, hsize₀⟩ := d.pinned_size hin
      obtain rfl := some.inj (ho.symm.trans ho₀)
      refine mem_map.mpr ⟨x, hin, ?_⟩
      rw [hsize₀, heq]
    have h2 := e.geo.edenHi_le (!h.fromSurvivor)
    have h3 := e.geo.survivors_apart h.fromSurvivor
    rcases d.resident_lies hmem with hl | hl | hl
    · refine .inl ⟨hl.1, ?_⟩
      have hend := (le_lastEnd d.residents_ascending (fun r _ hr => (inEden_iff.mp hr).1) :
        e.geo.edenLo ≤ lastEnd e.geo.inEden e.geo.edenLo _ ∧ _)
      refine hend.2 _ hmem ?_
      rw [inEden_iff]
      simp only at hl ⊢
      omega
    · refine .inr (.inr (.inl ⟨?_, hres, hmem⟩))
      show e.geo.inSurvivor (!(!h.fromSurvivor)) x = true
      rw [Bool.not_not, inSurvivor_iff]
      simp only at hl
      omega
    · refine .inr (.inl ⟨hl.1, ?_⟩)
      show x + o'.size ≤ (reclaimed e h span stackObjects s).survivorTop (!h.fromSurvivor)
      rw [htop]
      refine Nat.le_trans ?_ (Nat.le_max_right _ _)
      refine (le_highestEnd _).2 _ hmem ?_
      simp only at hl
      rw [Bool.and_eq_true, Bool.not_eq_true', Bool.not_eq_true', ← Bool.not_eq_true,
        ← Bool.not_eq_true, inEden_iff, inSurvivor_iff]
      omega
  · refine .inr (.inl ⟨hlo, ?_⟩)
    show x + o'.size ≤ (reclaimed e h span stackObjects s).survivorTop (!h.fromSurvivor)
    rw [htop]
    exact Nat.le_trans hhi (Nat.le_max_left _ _)

/-- The heap that a collection leaves is one that a collection can start from. -/
theorem leaves : (reclaimed e h span stackObjects s).WellFormed e := by
  have hh : kHeaderBytes = 8 := rfl
  have h1 := e.geo.edenHi_le h.fromSurvivor
  have h2 := e.geo.edenHi_le (!h.fromSurvivor)
  have h3 := e.geo.survivors_apart h.fromSurvivor
  have hpin : Pins (startHeap e h span stackObjects) (pinnedOf e h span stackObjects) :=
    pins_start d.wellFormed
  have hsized : ∀ {r : Nat × Nat}, r ∈ (reclaimed e h span stackObjects s).residents → 8 ≤ r.2 := by
    intro r hr
    obtain ⟨_, o, ho, hsize⟩ := d.resident_mem hr
    rw [hsize]
    exact (d.wellFormed.sized _ o ho).1
  refine
    { lawful := d.wellFormed.lawful, closed := ?_, rootsClosed := ?_, sized := ?_, plain := ?_
      lies := fun a o ho => d.left_lies ho, apart := ?_, fits := ?_, cardRegion := d.inv.region
      cardLive := ?_, edenEnd := ?_, survivorTop := ?_, residents := d.residents_ascending
      residentIn := ?_, toTop := ?_, unpinned := rfl }
  · intro x o' ho' i hi hrefers
    obtain ⟨a, o, hp, ho, rfl⟩ := reclaimHeap_some hpin d.base d.inv.toShape ho'
    have hword : (if x ∈ pinnedOf e h span stackObjects then o.settle else o).words = o.words := by
      split <;> rfl
    have hslots : slotsOf e.layouts (if x ∈ pinnedOf e h span stackObjects then o.settle else o) =
        slotsOf e.layouts o := by
      split
      · exact slotsOf_congr rfl rfl rfl
      · rfl
    rw [hslots] at hi
    rw [hword] at hrefers ⊢
    have hlive : Live (e.setup h span) (startHeap e h span stackObjects) s (.field x i) :=
      ⟨a, o, hp, ho, hi⟩
    have hread : readSlot (e.setup h span) s (.field x i) = o.words i := by
      simp only [readSlot, ho]
      rfl
    have hset := (d.settled hlive).target
    have hsome := d.inv.target_some d.base hlive
    rw [hread] at hset hsome
    exact d.left_some (hsome hrefers) (hset hrefers)
  · intro r hr hrefers
    obtain ⟨k, hk, rfl⟩ := mem_iff_get.mp hr
    have hlive : Live (e.setup h span) (startHeap e h span stackObjects) s (.root k) := k.isLt
    have hread : readSlot (e.setup h span) s (.root k) = (s.roots.get k).word e.geo := by
      have hget : s.roots[(k : Nat)]? = some (s.roots.get k) := getElem?_eq_getElem k.isLt
      simp only [readSlot, hget]
      rfl
    have hset := (d.settled hlive).target
    have hsome := d.inv.target_some d.base hlive
    rw [hread] at hset hsome
    exact d.left_some (hsome hrefers) (hset hrefers)
  · intro x o' ho'
    exact (d.left_flags ho').2.2
  · intro x o' ho'
    exact ⟨(d.left_flags ho').1, (d.left_flags ho').2.1⟩
  · intro x y ox oy hox hoy hne
    obtain ⟨_, o, _, ho, rfl⟩ := reclaimHeap_some hpin d.base d.inv.toShape hox
    obtain ⟨_, o', _, ho', rfl⟩ := reclaimHeap_some hpin d.base d.inv.toShape hoy
    have hsize : ∀ (z : Nat) (o : Obj),
        (if z ∈ pinnedOf e h span stackObjects then o.settle else o).size = o.size := by
      intro z o
      split <;> rfl
    rw [hsize, hsize]
    exact d.inv.apart x y o o' ho ho' hne
  · refine e.space.fits_congr d.inv.fits fun a hold => ?_
    unfold sizes
    rw [show (reclaimed e h span stackObjects s).heap a = s.heap a from d.left_old hold]
  · intro a ha hcard head hhead
    have hsome := d.inv.live a ha hcard head hhead
    have hold := old_of_large (head_inLarge (c := e.setup h span) d.inv.fits hhead)
    exact (congrArg isSome (d.left_old hold)).trans hsome
  · show lastEnd e.geo.inEden e.geo.edenLo _ ≤ e.geo.edenHi
    refine lastEnd_le (Nat.le_add_right _ _) fun r hr hin => ?_
    have := inEden_iff.mp hin
    rcases d.resident_lies hr with hl | hl | hl <;> omega
  · show (reclaimed e h span stackObjects s).survivorTop
      (!h.fromSurvivor) ≤ e.geo.survivorHi (!h.fromSurvivor)
    rw [survivorTop_to]
    refine Nat.max_le.mpr ⟨d.inv.toSpace.bounds.2,
      highestEnd_le (Nat.le_add_right _ _) fun r hr hin => ?_⟩
    rw [Bool.and_eq_true, Bool.not_eq_true', Bool.not_eq_true', ← Bool.not_eq_true,
      ← Bool.not_eq_true, inEden_iff, inSurvivor_iff] at hin
    have hsize := hsized hr
    rcases d.resident_lies hr with hl | hl | hl <;> omega
  · intro r hr hin
    have hin' : e.geo.inSurvivor (!(!h.fromSurvivor)) r.1 = true := hin
    show e.geo.survivorLo (!(!h.fromSurvivor)) + kHeaderBytes ≤ r.1 ∧
      r.1 + r.2 ≤ e.geo.survivorHi (!(!h.fromSurvivor))
    rw [Bool.not_not] at hin' ⊢
    have := inSurvivor_iff.mp hin'
    have hsize := hsized hr
    rcases d.resident_lies hr with hl | hl | hl <;> omega
  · intro hnone
    show (reclaimed e h span stackObjects s).survivorTop
      (!(!h.fromSurvivor)) = e.geo.survivorLo (!(!h.fromSurvivor))
    have hnone' : ∀ r ∈ (reclaimed e h span stackObjects s).residents,
        e.geo.inSurvivor (!(!h.fromSurvivor)) r.1 = false := hnone
    rw [Bool.not_not] at hnone' ⊢
    exact (if_pos rfl).trans (lastEnd_none hnone')

end Done

theorem collectMinor_done (e : Env A M) (stackObjects : List Nat) (h : HeapState A M)
    (hw : h.WellFormed e) (hr : h.Remembers e) (hn : h.Names stackObjects) :
    collectMinor e stackObjects h = .error .oldExhausted ∨
    ∃ frags span s, collectMinor e stackObjects h = .ok (reclaimed e h span stackObjects s) ∧
      Done e h stackObjects frags span (rescanned e h) s := by
  obtain ⟨frags, span, hsetup, hp⟩ := setupToSpace_spec hw
  have hevac := evacuate_spec hw hr hn hp
  have hcollect : collectMinor e stackObjects h =
      (evacuate (e.setup h span) stackObjects
        (startState h (e.geo.survivorLo (!h.fromSurvivor)) frags
          (startHeap e h span stackObjects) (pinnedOf e h span stackObjects))).map
        (reclaimed e h span stackObjects) := by
    simp only [collectMinor, hsetup, hw.unpinned, isEmpty_nil, Bool.not_true,
      Bool.false_eq_true, if_false, hn.pinStackObjects_eq]
    split <;> rename_i hr <;> rw [hr] <;> rfl
  rw [hcollect]
  revert hevac
  cases evacuate (e.setup h span) stackObjects
      (startState h (e.geo.survivorLo (!h.fromSurvivor)) frags
        (startHeap e h span stackObjects) (pinnedOf e h span stackObjects)) with
  | error f =>
    intro hf
    exact .inl (congrArg Except.error hf)
  | ok s =>
    rintro ⟨hinv, hgray, hshades⟩
    exact .inr ⟨frags, span, s, rfl,
      { wellFormed := hw, names := hn, prepared := hp, inv := hinv, gray := hgray
        shades := hshades }⟩

end Collected

section Sample

def sampleGeometry : Geometry where
  base := 4096
  edenBytes := 1024
  survivorBytes := 512
  matureBlocks := 0
  largeRegions := 0
  referenceTag := fun tag => tag == 1
  rawTag := 1
  base_pos := by omega
  raw_reference := rfl
  addressable := by
    show 4096 + 1024 + 2 * 512 + (0 + 0) * 32768 ≤ 2 ^ 48
    omega

/-- The old generation of a reservation that has no room for it. -/
def emptySpace : OldSpace Unit sampleGeometry where
  allocate _ _ := none
  noteLargeAllocated s _ := s
  blockCount _ := 0
  inUse _ _ := false
  starts _ _ _ := []
  largeFrontier _ := 0
  pageHead _ _ := none
  runPages _ _ := 0
  Fits _ sizes := ∀ a, sampleGeometry.isOld a = true → sizes a = none
  fits_congr h heq a ha := (heq a ha).trans (h a ha)
  allocate_fits _ _ _ h := absurd h (by simp)
  allocate_apart _ _ _ h := absurd h (by simp)
  allocate_head _ _ _ h := absurd h (by simp)
  mature_start h ha _ hsize := absurd ((h _ ha).symm.trans hsize) (by simp)
  start_mature _ _ h := absurd h (by simp)
  blocks_le _ := Nat.le_refl _
  large_run h ha hsize := absurd ((h _ (Geometry.old_of_large ha)).symm.trans hsize) (by simp)
  page_run _ h := absurd h (by simp)
  frontier_le _ := Nat.le_refl _

def sampleEnv : Env Unit Unit where
  geo := sampleGeometry
  layouts := fun id => if id = 0 then .words else .leaf
  space := emptySpace
  marker :=
    { shade := fun m _ => m, Marked := fun _ _ => True, marked_shade := fun _ _ => trivial
      marked_mono := fun _ _ _ h => h }
  tenureAge := 3
  shade := false

/-- Two objects in eden: a root names the first, which names the second. -/
def sampleHeap : HeapState Unit Unit where
  heap := fun a =>
    if a = 4104 then some ⟨16, 0, 0, 0, false, false, false, fun i =>
      if i = 0 then 2 ^ 48 + 4128 else 5⟩
    else if a = 4128 then some ⟨8, 1, 0, 0, false, false, false, fun _ => 9⟩
    else none
  old := ()
  cards := fun _ => .clean
  regions := fun _ => false
  roots := [.slot (2 ^ 48 + 4104)]
  marks := ()
  edenEnd := 4136
  survivorTop := fun which => sampleGeometry.survivorLo which
  fromSurvivor := false
  residents := []
  pinned := []

theorem sample_cases (h : sampleHeap.heap a = some o) :
    (a = 4104 ∧ o = ⟨16, 0, 0, 0, false, false, false, fun i =>
      if i = 0 then 2 ^ 48 + 4128 else 5⟩) ∨
    (a = 4128 ∧ o = ⟨8, 1, 0, 0, false, false, false, fun _ => 9⟩) := by
  simp only [sampleHeap] at h
  split at h
  · next heq => exact .inl ⟨heq, (some.inj h).symm⟩
  · split at h
    · next heq => exact .inr ⟨heq, (some.inj h).symm⟩
    · exact absurd h (by simp)

theorem sample_lawful (id : Nat) : (sampleEnv.layouts id).Lawful sampleEnv.geo := by
  have hne : ∀ trace range, sampleEnv.layouts id ≠ .custom trace range := by
    intro trace range
    simp only [sampleEnv]
    split <;> simp
  exact
    { stable := fun trace range h => absurd h (hne trace range)
      covers := fun trace range h => absurd h (hne trace _)
      within := fun trace range h => absurd h (hne trace _) }

theorem sample_wellFormed : sampleHeap.WellFormed sampleEnv := by
  have hold : ∀ a, sampleEnv.geo.isOld a = false := by
    intro a
    rw [Bool.eq_false_iff, Ne, isOld_iff]
    simp only [matureLo, heapHi, largeLo, sampleEnv, sampleGeometry]
    omega
  refine
    { lawful := sample_lawful, closed := ?_, rootsClosed := ?_, sized := ?_, plain := ?_
      lies := ?_, apart := ?_, fits := ?_, cardRegion := ?_, cardLive := ?_, edenEnd := ?_
      survivorTop := ?_, residents := .nil, residentIn := fun r hr => absurd hr (by simp [sampleHeap])
      toTop := fun _ => rfl, unpinned := rfl }
  · intro a o ho i hi hrefers
    rcases sample_cases ho with ⟨rfl, rfl⟩ | ⟨rfl, rfl⟩
    · by_cases hi0 : i = 0
      · subst hi0
        rfl
      · simp only [if_neg hi0] at hrefers
        exact absurd hrefers (by decide)
    · exact absurd hi (by simp [slotsOf, sampleEnv])
  · intro r hr _
    rw [mem_singleton.mp hr]
    rfl
  · intro a o ho
    rcases sample_cases ho with ⟨rfl, rfl⟩ | ⟨rfl, rfl⟩ <;> decide
  · intro a o ho
    rcases sample_cases ho with ⟨rfl, rfl⟩ | ⟨rfl, rfl⟩ <;> exact ⟨rfl, rfl⟩
  · intro a o ho
    rcases sample_cases ho with ⟨rfl, rfl⟩ | ⟨rfl, rfl⟩ <;> exact .inl (by decide)
  · intro x y o o' ho ho' hne
    rcases sample_cases ho with ⟨rfl, rfl⟩ | ⟨rfl, rfl⟩ <;>
      rcases sample_cases ho' with ⟨rfl, rfl⟩ | ⟨rfl, rfl⟩
    · exact absurd rfl hne
    · exact .inl (by decide)
    · exact .inr (by decide)
    · exact absurd rfl hne
  · intro a ha
    rw [show sampleGeometry.isOld a = false from hold a] at ha
    exact absurd ha (by simp)
  · intro a _ hdirty
    exact absurd hdirty (by simp [sampleHeap])
  · intro a _ hdirty
    exact absurd rfl hdirty
  · decide
  · decide

theorem sample_remembers : sampleHeap.Remembers sampleEnv := by
  intro x o i ho hold
  rcases sample_cases ho with ⟨rfl, rfl⟩ | ⟨rfl, rfl⟩ <;> exact absurd hold (by decide)

theorem sample_names : sampleHeap.Names [4128] where
  ascending := pairwise_singleton _ _
  objects := by
    intro a ha
    rw [mem_singleton.mp ha]
    rfl

theorem sample_ok : (collectMinor sampleEnv [4128] sampleHeap).toBool = true := by
  decide +kernel

end Sample

end Brass.Gc.Heap
