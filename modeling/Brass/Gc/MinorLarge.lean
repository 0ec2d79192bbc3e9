import Brass.Gc.MinorCards

/-!
# The cards of the large objects

`gather_large_ranges` walks the large objects' cards in order and turns them into ranges of
payload bytes: the whole object where its first card is dirty, or else one card of it. Every
slot that lies behind a card that is not clean is in one of the ranges, and scanning the
ranges visits it.
-/

namespace Brass.Gc.Heap

open Function (update update_of_ne update_self)

open List

variable {A M : Type} {c : Setup A M} {H : Nat → Option Obj} {R : List Root}
  {want : Nat → Nat → Prop} {W W' : Slot → Prop} {s s' s'' : State A M}

/-- Slot `j` of the large object `x` lies behind card `k`. -/
def Via (c : Setup A M) (s : State A M) (x j k : Nat) : Prop :=
  ∃ o, s.heap x = some o ∧ c.geo.inLarge x = true ∧ s.regions (k / kCardsPerRegion) = true ∧
    ((k = c.geo.cardOf x ∧ s.cards k = .dirty) ∨
      (kGranuleBytes * j < o.size ∧ k = c.geo.cardOf (x + kGranuleBytes * j) ∧ s.cards k ≠ .clean))

theorem Via.not_clean {x j k : Nat} (h : Via c s x j k) : s.cards k ≠ .clean := by
  obtain ⟨_, _, _, _, ⟨_, hdirty⟩ | ⟨_, _, hne⟩⟩ := h
  · rw [hdirty]
    simp
  · exact hne

theorem via_of_behind {x j : Nat} {o : Obj} (ho : s.heap x = some o)
    (hlarge : c.geo.inLarge x = true) (h : Behind c.geo s.cards s.regions o.size x j) :
    ∃ k, Via c s x j k := by
  rcases h with ⟨hcard, hregion⟩ | ⟨_, hsize, hcard, hregion⟩
  · exact ⟨_, o, ho, hlarge, by rw [cardOf_div]; exact hregion, .inl ⟨rfl, hcard⟩⟩
  · exact ⟨_, o, ho, hlarge, by rw [cardOf_div]; exact hregion, .inr ⟨hsize, rfl, hcard⟩⟩

/-- Whether a range has a slot: it is the whole of the object, or has the slot's bytes. -/
def Covers (heap : Nat → Option Obj) (r : CardRange) (u : Slot) : Prop :=
  ∃ j o, u = .field r.object j ∧ heap r.object = some o ∧
    ((r.lo = 0 ∧ r.hi = o.size) ∨
      (kGranuleBytes * j < o.size ∧ r.lo ≤ kGranuleBytes * j ∧ kGranuleBytes * j < r.hi))

def Covered (heap : Nat → Option Obj) (out : List CardRange) (u : Slot) : Prop :=
  ∃ r ∈ out, Covers heap r u

theorem Covered.cons {heap : Nat → Option Obj} {out : List CardRange} {u : Slot} (r : CardRange)
    (h : Covered heap out u) : Covered heap (r :: out) u := by
  obtain ⟨r', hr', hc⟩ := h
  exact ⟨r', mem_cons_of_mem _ hr', hc⟩

/-- A range appended loses no slot and has its own. -/
theorem pushRange_covered {heap : Nat → Option Obj} {out : List CardRange} {object lo hi : Nat}
    {o : Obj} (ho : heap object = some o) (hlt : lo < hi) (hle : hi ≤ o.size)
    (hout : ∀ r ∈ out, r.lo ≤ r.hi) {u : Slot}
    (h : Covered heap out u ∨ ∃ j, u = .field object j ∧ lo ≤ kGranuleBytes * j ∧
      kGranuleBytes * j < hi) :
    Covered heap (pushRange out object lo hi) u := by
  have hown : ∀ {first : Nat} {rest : List CardRange}, first ≤ lo →
      (∃ j, u = .field object j ∧ lo ≤ kGranuleBytes * j ∧ kGranuleBytes * j < hi) →
      Covered heap (⟨object, first, hi⟩ :: rest) u := by
    rintro first rest hfirst ⟨j, rfl, h1, h2⟩
    exact ⟨_, mem_cons_self, j, o, rfl, ho, .inr ⟨by omega, Nat.le_trans hfirst h1, h2⟩⟩
  unfold pushRange
  cases out with
  | nil =>
    rcases h with ⟨r, hr, _⟩ | h
    · exact absurd hr (by simp)
    · exact hown (Nat.le_refl _) h
  | cons last rest =>
    obtain ⟨object', first, end_⟩ := last
    have hfirst := hout _ mem_cons_self
    simp only at hfirst ⊢
    by_cases hjoin : object' = object ∧ end_ = lo
    · rw [if_pos hjoin]
      obtain ⟨rfl, rfl⟩ := hjoin
      rcases h with ⟨r, hr, hc⟩ | h
      · rcases mem_cons.mp hr with rfl | hr
        · obtain ⟨j, o', rfl, ho', hcase⟩ := hc
          obtain rfl := Option.some.inj (ho.symm.trans ho')
          refine ⟨_, mem_cons_self, j, o, rfl, ho, .inr ?_⟩
          simp only at hcase ⊢
          omega
        · exact ⟨r, mem_cons_of_mem _ hr, hc⟩
      · exact hown hfirst h
    · rw [if_neg hjoin]
      rcases h with h | h
      · exact h.cons _
      · exact hown (Nat.le_refl _) h

theorem pushRange_mem {P : CardRange → Prop} {out : List CardRange} {object lo hi : Nat}
    (hout : ∀ r ∈ out, P r) (hnew : P ⟨object, lo, hi⟩)
    (hjoin : ∀ first, P ⟨object, first, lo⟩ → P ⟨object, first, hi⟩) :
    ∀ r ∈ pushRange out object lo hi, P r := by
  unfold pushRange
  cases out with
  | nil => simpa using hnew
  | cons last rest =>
    obtain ⟨object', first, end_⟩ := last
    simp only
    split
    · next hcase =>
      obtain ⟨rfl, rfl⟩ := hcase
      intro r hr
      rcases mem_cons.mp hr with rfl | hr
      · exact hjoin first (hout _ mem_cons_self)
      · exact hout r (mem_cons_of_mem _ hr)
    · intro r hr
      rcases mem_cons.mp hr with rfl | hr
      · exact hnew
      · exact hout r hr

/-! ## The walk -/

theorem Geometry.old_of_large {g : Geometry} {a : Nat} (h : g.inLarge a = true) :
    g.isOld a = true := by
  have h1 := g.matureLo_le_largeLo
  have h2 := Geometry.inLarge_iff.mp h
  rw [Geometry.isOld_iff]
  omega

theorem head_inLarge (hfits : c.space.Fits s.old (sizes s.heap)) {p head : Nat}
    (hhead : c.space.pageHead s.old p = some head) :
    c.geo.inLarge (c.geo.largeObjectAt head) = true := by
  obtain ⟨hrun, _, hfront⟩ := c.space.page_run hfits hhead
  have hfrontier := c.space.frontier_le hfits
  have hat := largeObjectAt_eq c.geo head
  rw [show kPageBytes = 4096 from rfl] at hfrontier
  rw [Geometry.inLarge_iff]
  omega

def RangeOk (c : Setup A M) (s : State A M) (r : CardRange) : Prop :=
  r.lo ≤ r.hi ∧ c.geo.isOld r.object = true ∧ (s.heap r.object).isSome = true

structure Gathered (c : Setup A M) (s : State A M) (clean : Bool) (Todo : Nat → Prop)
    (g : Gather) : Prop where
  cards : ∀ k, g.cards k = s.cards k ∨ (g.cards k = .clean ∧ 64 * c.geo.matureBlocks ≤ k)
  regions : ∀ r, r < c.geo.matureBlocks ∨ clean = false → g.regions r = s.regions r
  ranges : ∀ r ∈ g.out, RangeOk c s r
  cover : ∀ x j k, Via c s x j k →
    Covered s.heap g.out (.field x j) ∨ (g.cards k = s.cards k ∧ Todo k)
  whole : ∀ x j k, Via c s x j k → Todo k → c.geo.matureLo + kCardBytes * k < g.wholeEnd →
    Covered s.heap g.out (.field x j)
  flags : ∀ k, g.cards k ≠ .clean → g.regions (k / kCardsPerRegion) =
    s.regions (k / kCardsPerRegion) ∨ Todo k
  cleaning : clean = true → g.wholeEnd = 0

theorem Via.head (hfits : c.space.Fits s.old (sizes s.heap)) {x j k : Nat} (h : Via c s x j k) :
    ∃ head, x = c.geo.largeObjectAt head ∧ 64 * c.geo.matureBlocks ≤ k ∧
      c.space.pageHead s.old ((k - 64 * c.geo.matureBlocks) / 8) = some head := by
  obtain ⟨o, ho, hlarge, _, hcase⟩ := h
  obtain ⟨head, rfl, hsize, hpages⟩ := c.space.large_run hfits hlarge
    (show sizes s.heap x = some o.size by simp [sizes, ho])
  have h1 := largeLo_eq c.geo
  have h2 := largeObjectAt_eq c.geo head
  have h8 : kHeaderBytes = 8 := rfl
  have h4096 : kPageBytes = 4096 := rfl
  rw [h8, h4096] at hsize
  have hk : 64 * c.geo.matureBlocks ≤ k ∧ head ≤ (k - 64 * c.geo.matureBlocks) / 8 ∧
      (k - 64 * c.geo.matureBlocks) / 8 < head + c.space.runPages s.old head := by
    rcases hcase with ⟨hk, _⟩ | ⟨hj, hk, _⟩
    · rw [cardOf_eq] at hk
      omega
    · rw [cardOf_eq, show kGranuleBytes = 8 from rfl] at hk
      rw [show kGranuleBytes = 8 from rfl] at hj
      omega
  exact ⟨head, rfl, hk.1, hpages _ hk.2.1 hk.2.2⟩

section Walk

variable {clean : Bool} {Todo : Nat → Prop} {g : Gather}

theorem Gathered.mono {Todo' : Nat → Prop} (h : Gathered c s clean Todo g)
    (hcover : ∀ x j k, Via c s x j k → Todo k → Covered s.heap g.out (.field x j) ∨ Todo' k)
    (hback : ∀ k, Todo' k → Todo k)
    (hflag : ∀ k, g.cards k ≠ .clean → Todo k → g.regions (k / kCardsPerRegion) =
      s.regions (k / kCardsPerRegion) ∨ Todo' k) : Gathered c s clean Todo' g where
  cards := h.cards
  regions := h.regions
  ranges := h.ranges
  cover := by
    intro x j k hvia
    rcases h.cover x j k hvia with hc | ⟨heq, htodo⟩
    · exact .inl hc
    · rcases hcover x j k hvia htodo with hc | htodo'
      · exact .inl hc
      · exact .inr ⟨heq, htodo'⟩
  whole x j k hvia htodo hlt := h.whole x j k hvia (hback k htodo) hlt
  flags := by
    intro k hk
    rcases h.flags k hk with heq | htodo
    · exact .inl heq
    · exact hflag k hk htodo
  cleaning := h.cleaning

/-- A card that no live object's slot lies behind, or whose slots the ranges have, is passed
over. -/
theorem Gathered.pass {k₀ : Nat} (h : Gathered c s clean (fun k => k = k₀ ∨ Todo k) g)
    (hcover : ∀ x j, Via c s x j k₀ → Covered s.heap g.out (.field x j))
    (hflag : g.cards k₀ = .clean ∨
      g.regions (k₀ / kCardsPerRegion) = s.regions (k₀ / kCardsPerRegion)) :
    Gathered c s clean Todo g := by
  refine h.mono ?_ (fun k hk => .inr hk) ?_
  · rintro x j k hvia (rfl | htodo)
    · exact .inl (hcover x j hvia)
    · exact .inr htodo
  · rintro k hk (rfl | htodo)
    · rcases hflag with hclean | heq
      · exact absurd hclean hk
      · exact .inl heq
    · exact .inr htodo

theorem Gathered.clear {r : Nat} (h : Gathered c s true Todo g) (hr : c.geo.matureBlocks ≤ r)
    (htodo : ∀ k, k / kCardsPerRegion = r → Todo k) :
    Gathered c s true Todo { g with regions := update g.regions r false } where
  cards := h.cards
  regions := by
    intro r' hr'
    have hlt : r' < c.geo.matureBlocks := hr'.resolve_right (by simp)
    exact (update_of_ne (by omega) _ _).trans (h.regions r' hr')
  ranges := h.ranges
  cover := h.cover
  whole := h.whole
  flags := by
    intro k hk
    by_cases heq : k / kCardsPerRegion = r
    · exact .inr (htodo k heq)
    · rcases h.flags k hk with hsame | ht
      · exact .inl ((update_of_ne heq _ _).trans hsame)
      · exact .inr ht
  cleaning := h.cleaning

theorem Gathered.advance {k₀ wholeEnd : Nat} {cards : Nat → Card} {out : List CardRange}
    (h : Gathered c s clean (fun k => k = k₀ ∨ Todo k) g)
    (hcards : ∀ k, cards k = g.cards k ∨ (cards k = .clean ∧ 64 * c.geo.matureBlocks ≤ k))
    (hout : ∀ r ∈ out, RangeOk c s r)
    (hold : ∀ u, Covered s.heap g.out u → Covered s.heap out u)
    (hnew : ∀ x j k, Via c s x j k → g.cards k = s.cards k → k = k₀ ∨ cards k = .clean ∨
      (Todo k ∧ c.geo.matureLo + kCardBytes * k < wholeEnd ∧
        g.wholeEnd ≤ c.geo.matureLo + kCardBytes * k) → Covered s.heap out (.field x j))
    (hflag : cards k₀ = .clean ∨ clean = false) (hend : clean = true → wholeEnd = 0) :
    Gathered c s clean Todo { g with cards := cards, out := out, wholeEnd := wholeEnd } where
  cards := by
    intro k
    rcases hcards k with heq | hc
    · rcases h.cards k with hs | hs
      · exact .inl (heq.trans hs)
      · exact .inr ⟨heq.trans hs.1, hs.2⟩
    · exact .inr hc
  regions := h.regions
  ranges := hout
  cover := by
    intro x j k hvia
    rcases h.cover x j k hvia with hc | ⟨heq, rfl | htodo⟩
    · exact .inl (hold _ hc)
    · exact .inl (hnew x j k hvia heq (.inl rfl))
    · rcases hcards k with hsame | ⟨hclean, _⟩
      · exact .inr ⟨hsame.trans heq, htodo⟩
      · exact .inl (hnew x j k hvia heq (.inr (.inl hclean)))
  whole := by
    intro x j k hvia htodo hlt
    by_cases hle : c.geo.matureLo + kCardBytes * k < g.wholeEnd
    · exact hold _ (h.whole x j k hvia (.inr htodo) hle)
    · rcases h.cover x j k hvia with hc | ⟨heq, _⟩
      · exact hold _ hc
      · exact hnew x j k hvia heq (.inr (.inr ⟨htodo, hlt, by omega⟩))
  flags := by
    intro k hk
    have hne : g.cards k ≠ .clean := by
      rcases hcards k with heq | hc
      · exact heq ▸ hk
      · exact absurd hc.1 hk
    rcases h.flags k hne with heq | rfl | htodo
    · exact .inl heq
    · rcases hflag with hclean | hfalse
      · exact absurd hclean hk
      · exact .inl (h.regions _ (.inr hfalse))
    · exact .inr htodo
  cleaning := hend

section

variable (hc : CardsOk c s) (hfits : c.space.Fits s.old (sizes s.heap))
include hc hfits

theorem gatherDirty_spec {k₀ cardLo : Nat} (hlo : cardLo = c.geo.matureLo + kCardBytes * k₀)
    (hlarge : c.geo.inLarge cardLo = true) (hne : g.cards k₀ ≠ .clean)
    (hafter : ∀ k, Todo k → k₀ < k)
    (h : Gathered c s clean (fun k => k = k₀ ∨ Todo k) g) :
    ∃ g', gatherDirty c s clean cardLo g = .ok g' ∧ Gathered c s clean Todo g' ∧
      g'.regions = g.regions := by
  have h512 : kCardBytes = 512 := rfl
  have h4096 : kPageBytes = 4096 := rfl
  have h8 : kHeaderBytes = 8 := rfl
  have hg8 : kGranuleBytes = 8 := rfl
  have hcpp : kCardsPerPage = 8 := rfl
  have hl := Geometry.inLarge_iff.mp hlarge
  have h1 := largeLo_eq c.geo
  rw [h512] at hlo
  have hcard : c.geo.cardOf cardLo = k₀ := by
    rw [cardOf_eq]
    omega
  have hpage : (cardLo - c.geo.largeLo) / kPageBytes = (k₀ - 64 * c.geo.matureBlocks) / 8 := by
    rw [h4096]
    omega
  have hk₀ : 64 * c.geo.matureBlocks ≤ k₀ := by omega
  have hsame : g.cards k₀ = s.cards k₀ := by
    rcases h.cards k₀ with heq | ⟨hclean, _⟩
    · exact heq
    · exact absurd hclean hne
  have hcleaned : ∀ k, update g.cards k₀ .clean k = g.cards k ∨
      (update g.cards k₀ .clean k = .clean ∧ 64 * c.geo.matureBlocks ≤ k) := by
    intro k
    by_cases hk : k = k₀
    · subst hk
      exact .inr ⟨update_self .., hk₀⟩
    · exact .inl (update_of_ne hk _ _)
  unfold gatherDirty
  simp only [hcard, hpage]
  cases hhead : c.space.pageHead s.old ((k₀ - 64 * c.geo.matureBlocks) / 8) with
  | none =>
    refine ⟨_, rfl, ?_, rfl⟩
    refine h.advance hcleaned h.ranges (fun _ hu => hu) ?_ (.inl (update_self ..)) h.cleaning
    rintro x j k hvia heq (rfl | hclean | ⟨_, h1, h2⟩)
    · obtain ⟨head, _, _, hsome⟩ := hvia.head hfits
      rw [hhead] at hsome
      exact absurd hsome (by simp)
    · by_cases hk : k = k₀
      · subst hk
        obtain ⟨head, _, _, hsome⟩ := hvia.head hfits
        rw [hhead] at hsome
        exact absurd hsome (by simp)
      · rw [update_of_ne hk, heq] at hclean
        exact absurd hclean hvia.not_clean
    · omega
  | some head =>
    have hlive := hc.live cardLo hlarge (by rw [hcard, ← hsame]; exact hne) head
      (by rw [hpage]; exact hhead)
    obtain ⟨o, ho⟩ := Option.isSome_iff_exists.mp hlive
    obtain ⟨hrun₁, hrun₂, _⟩ := c.space.page_run hfits hhead
    have hat := largeObjectAt_eq c.geo head
    have hin := head_inLarge hfits hhead
    have hisOld := Geometry.old_of_large hin
    have hfirst : c.geo.cardOf (c.geo.largeObjectAt head - kHeaderBytes) =
        64 * c.geo.matureBlocks + 8 * head := by
      rw [cardOf_eq, h8]
      omega
    -- Every slot behind a card of the run is the object's.
    have hown : ∀ x j k, Via c s x j k → 64 * c.geo.matureBlocks + 8 * head ≤ k →
        k < 64 * c.geo.matureBlocks + 8 * head + c.space.runPages s.old head * 8 →
        x = c.geo.largeObjectAt head := by
      intro x j k hvia hge hlt
      obtain ⟨head', rfl, _, hsome⟩ := hvia.head hfits
      obtain ⟨head₂, heq, _, hpages⟩ := c.space.large_run hfits hin
        (show sizes s.heap (c.geo.largeObjectAt head) = some o.size by simp [sizes, ho])
      have hat₂ := largeObjectAt_eq c.geo head₂
      obtain rfl : head₂ = head := by omega
      rw [hpages _ (by omega) (by omega)] at hsome
      rw [Option.some.inj hsome]
    have hwhole : ∀ x j k, Via c s x j k → 64 * c.geo.matureBlocks + 8 * head ≤ k →
        k < 64 * c.geo.matureBlocks + 8 * head + c.space.runPages s.old head * 8 →
        Covered s.heap (⟨c.geo.largeObjectAt head, 0, o.size⟩ :: g.out) (.field x j) := by
      intro x j k hvia hge hlt
      rw [hown x j k hvia hge hlt]
      exact ⟨_, mem_cons_self, j, o, rfl, ho, .inl ⟨rfl, rfl⟩⟩
    have hranges : ∀ r ∈ (⟨c.geo.largeObjectAt head, 0, o.size⟩ :: g.out : List CardRange),
        RangeOk c s r := by
      intro r hr
      rcases mem_cons.mp hr with rfl | hr
      · exact ⟨Nat.zero_le _, hisOld, hlive⟩
      · exact h.ranges r hr
    simp only [ho, hfirst, hcpp, h4096]
    by_cases hdirty : g.cards (64 * c.geo.matureBlocks + 8 * head) = .dirty
    · rw [if_pos hdirty]
      cases clean with
      | true =>
        refine ⟨_, rfl, ?_, rfl⟩
        refine h.advance ?_ hranges (fun _ hu => hu.cons _) ?_ (.inl ?_) h.cleaning
        · intro k
          unfold cleanCards
          split
          · exact .inr ⟨rfl, by omega⟩
          · exact .inl rfl
        · rintro x j k hvia heq (rfl | hclean | ⟨_, h1, h2⟩)
          · exact hwhole x j k hvia (by omega) (by omega)
          · unfold cleanCards at hclean
            split at hclean
            · exact hwhole x j k hvia (by omega) (by omega)
            · rw [heq] at hclean
              exact absurd hclean hvia.not_clean
          · omega
        · unfold cleanCards
          rw [if_pos (by omega)]
      | false =>
        refine ⟨_, rfl, ?_, rfl⟩
        refine h.advance (fun _ => .inl rfl) hranges (fun _ hu => hu.cons _) ?_ (.inr rfl)
          fun htrue => absurd htrue (by simp)
        rintro x j k hvia heq (rfl | hclean | ⟨htodo, h1, h2⟩)
        · exact hwhole x j k hvia (by omega) (by omega)
        · rw [heq] at hclean
          exact absurd hclean hvia.not_clean
        · have := hafter k htodo
          rw [h512, h8] at h1
          exact hwhole x j k hvia (by omega) (by omega)
    · rw [if_neg hdirty]
      have hcards : ∀ k, (if clean then update g.cards k₀ .clean else g.cards) k =
          g.cards k ∨ ((if clean then update g.cards k₀ .clean else g.cards) k = .clean ∧
            64 * c.geo.matureBlocks ≤ k) := by
        intro k
        cases clean with
        | true => exact hcleaned k
        | false => exact .inl rfl
      have hflag : (if clean then update g.cards k₀ .clean else g.cards) k₀ = .clean ∨
          clean = false := by
        cases clean with
        | true => exact .inl (update_self ..)
        | false => exact .inr rfl
      have hclean' : ∀ k, (if clean then update g.cards k₀ .clean else g.cards) k = .clean →
          g.cards k ≠ .clean → k = k₀ := by
        intro k hk hk'
        by_contra hkne
        cases clean with
        | true => exact hk' (by rwa [if_pos rfl, update_of_ne hkne] at hk)
        | false => exact hk' hk
      have hslot : ∀ x j, Via c s x j k₀ → x = c.geo.largeObjectAt head ∧
          max cardLo (c.geo.largeObjectAt head) ≤ c.geo.largeObjectAt head + 8 * j ∧
          c.geo.largeObjectAt head + 8 * j <
            min (cardLo + kCardBytes) (c.geo.largeObjectAt head + o.size) := by
        intro x j hvia
        obtain rfl := hown x j k₀ hvia (by omega) (by omega)
        obtain ⟨o', ho', _, _, hcase⟩ := hvia
        obtain rfl := Option.some.inj (ho.symm.trans ho')
        refine ⟨rfl, ?_⟩
        rcases hcase with ⟨hk, hd⟩ | ⟨hj, hk, _⟩
        · refine absurd ?_ hdirty
          rw [cardOf_eq] at hk
          rw [show 64 * c.geo.matureBlocks + 8 * head = k₀ by omega, hsame]
          exact hd
        · rw [cardOf_eq, hg8] at hk
          rw [hg8] at hj
          rw [h512]
          omega
      by_cases hempty : min (cardLo + kCardBytes) (c.geo.largeObjectAt head + o.size) ≤
          max cardLo (c.geo.largeObjectAt head)
      · rw [if_pos hempty]
        refine ⟨_, rfl, ?_, rfl⟩
        refine h.advance hcards h.ranges (fun _ hu => hu) ?_ hflag h.cleaning
        rintro x j k hvia heq (rfl | hclean | ⟨_, h1, h2⟩)
        · have := hslot x j hvia
          omega
        · obtain rfl := hclean' k hclean (heq ▸ hvia.not_clean)
          have := hslot x j hvia
          omega
        · omega
      · rw [if_neg hempty]
        refine ⟨_, rfl, ?_, rfl⟩
        have hpush : ∀ {u : Slot}, (Covered s.heap g.out u ∨
            ∃ j, u = .field (c.geo.largeObjectAt head) j ∧
              max cardLo (c.geo.largeObjectAt head) - c.geo.largeObjectAt head ≤ kGranuleBytes * j ∧
              kGranuleBytes * j < min (cardLo + kCardBytes) (c.geo.largeObjectAt head + o.size) -
                c.geo.largeObjectAt head) →
            Covered s.heap (pushRange g.out (c.geo.largeObjectAt head)
              (max cardLo (c.geo.largeObjectAt head) - c.geo.largeObjectAt head)
              (min (cardLo + kCardBytes) (c.geo.largeObjectAt head + o.size) -
                c.geo.largeObjectAt head)) u := by
          intro u hu
          exact pushRange_covered ho (by omega) (by omega) (fun r hr => (h.ranges r hr).1) hu
        have hin' : ∀ x j, Via c s x j k₀ → Covered s.heap
            (pushRange g.out (c.geo.largeObjectAt head)
              (max cardLo (c.geo.largeObjectAt head) - c.geo.largeObjectAt head)
              (min (cardLo + kCardBytes) (c.geo.largeObjectAt head + o.size) -
                c.geo.largeObjectAt head)) (.field x j) := by
          intro x j hvia
          obtain ⟨rfl, hge, hlt⟩ := hslot x j hvia
          refine hpush (.inr ⟨j, rfl, ?_, ?_⟩)
          · rw [hg8]
            omega
          · rw [hg8]
            omega
        refine h.advance hcards ?_ (fun _ hu => hpush (.inl hu)) ?_ hflag h.cleaning
        · refine pushRange_mem h.ranges ⟨by simp only; omega, hisOld, hlive⟩ ?_
          rintro first ⟨hle, _, _⟩
          exact ⟨by simp only at hle ⊢; omega, hisOld, hlive⟩
        · rintro x j k hvia heq (rfl | hclean | ⟨_, h1, h2⟩)
          · exact hin' x j hvia
          · obtain rfl := hclean' k hclean (heq ▸ hvia.not_clean)
            exact hin' x j hvia
          · omega

theorem gatherCards_spec {r : Nat}
    (hr : r < c.geo.largeRegions) (l : List Nat) (hlt : ∀ i ∈ l, i < 64) (hl : l.Pairwise (· < ·))
    (hafter : ∀ k, Todo k → 64 * (c.geo.matureBlocks + r) + 64 ≤ k)
    (h : Gathered c s clean
      (fun k => (∃ i ∈ l, k = 64 * (c.geo.matureBlocks + r) + i) ∨ Todo k) g) :
    ∃ g', gatherCards c s clean (c.geo.largeLo + r * kRegionBytes) l g = .ok g' ∧
      Gathered c s clean Todo g' ∧ g'.regions = g.regions := by
  induction l generalizing g with
  | nil =>
    refine ⟨g, rfl, ?_, rfl⟩
    simpa using h
  | cons i l ih =>
    obtain ⟨hbefore, hl'⟩ := pairwise_cons.mp hl
    have hi := hlt i mem_cons_self
    have h1 := largeLo_eq c.geo
    have hhi : c.geo.heapHi = c.geo.largeLo + c.geo.largeRegions * 32768 := rfl
    have h512 : kCardBytes = 512 := rfl
    have hbytes : kRegionBytes = 32768 := rfl
    have hlo : c.geo.largeLo + r * kRegionBytes + i * kCardBytes =
        c.geo.matureLo + kCardBytes * (64 * (c.geo.matureBlocks + r) + i) := by
      rw [h512, hbytes]
      omega
    have hlarge : c.geo.inLarge (c.geo.largeLo + r * kRegionBytes + i * kCardBytes) = true := by
      rw [Geometry.inLarge_iff, h512, hbytes]
      omega
    have hcard : c.geo.cardOf (c.geo.largeLo + r * kRegionBytes + i * kCardBytes) =
        64 * (c.geo.matureBlocks + r) + i := by
      rw [cardOf_eq, hlo, h512]
      omega
    have hdiv : (64 * (c.geo.matureBlocks + r) + i) / kCardsPerRegion = c.geo.matureBlocks + r := by
      rw [show kCardsPerRegion = 64 from rfl]
      omega
    have h' : Gathered c s clean (fun k => k = 64 * (c.geo.matureBlocks + r) + i ∨
        ((∃ i' ∈ l, k = 64 * (c.geo.matureBlocks + r) + i') ∨ Todo k)) g := by
      simpa [or_assoc] using h
    have hlt' : ∀ i' ∈ l, i' < 64 := fun i' hi' => hlt i' (mem_cons_of_mem _ hi')
    unfold gatherCards
    simp only [hcard]
    by_cases hskip : g.cards (64 * (c.geo.matureBlocks + r) + i) = .clean ∨
        c.geo.largeLo + r * kRegionBytes + i * kCardBytes < g.wholeEnd
    · rw [if_pos hskip]
      refine ih hlt' hl' (h'.pass ?_ ?_)
      · intro x j hvia
        rcases h'.cover x j _ hvia with hcov | ⟨heq, htodo⟩
        · exact hcov
        · rcases hskip with hclean | hwhole
          · rw [heq] at hclean
            exact absurd hclean hvia.not_clean
          · exact h'.whole x j _ hvia htodo (hlo ▸ hwhole)
      · rcases hskip with hclean | hwhole
        · exact .inl hclean
        · refine .inr (h.regions _ (.inr ?_))
          by_contra htrue
          rw [h.cleaning (by simpa using htrue)] at hwhole
          exact absurd hwhole (Nat.not_lt_zero _)
    · rw [if_neg hskip]
      obtain ⟨hne, _⟩ := not_or.mp hskip
      obtain ⟨g₁, hg₁, hinv, hreg⟩ := gatherDirty_spec hc hfits hlo hlarge hne (by
        rintro k (⟨i', hi', rfl⟩ | htodo)
        · have := hbefore i' hi'
          omega
        · have := hafter k htodo
          omega) h'
      rw [hg₁]
      obtain ⟨g₂, hg₂, hinv₂, hreg₂⟩ := ih hlt' hl' hinv
      exact ⟨g₂, hg₂, hinv₂, hreg₂.trans hreg⟩

theorem gatherRegions_spec
    (l : List Nat) (hlt : ∀ r ∈ l, r < c.geo.largeRegions) (hl : l.Pairwise (· < ·))
    (hsame : ∀ r ∈ l, g.regions (c.geo.matureBlocks + r) = s.regions (c.geo.matureBlocks + r))
    (h : Gathered c s clean (fun k => ∃ r ∈ l, k / kCardsPerRegion = c.geo.matureBlocks + r) g) :
    ∃ g', gatherRegions c s clean l g = .ok g' ∧ Gathered c s clean (fun _ => False) g' := by
  induction l generalizing g with
  | nil =>
    refine ⟨g, rfl, ?_⟩
    simpa using h
  | cons r l ih =>
    obtain ⟨hbefore, hl'⟩ := pairwise_cons.mp hl
    have hlt' : ∀ r' ∈ l, r' < c.geo.largeRegions := fun r' hr' => hlt r' (mem_cons_of_mem _ hr')
    have h64 : kCardsPerRegion = 64 := rfl
    have hregion : c.geo.regionOf (c.geo.largeLo + r * kRegionBytes) = c.geo.matureBlocks + r := by
      have h1 := largeLo_eq c.geo
      rw [regionOf_eq, show kRegionBytes = 32768 from rfl]
      omega
    unfold gatherRegions
    simp only [hregion]
    by_cases hset : g.regions (c.geo.matureBlocks + r) = true
    · rw [if_pos hset]
      -- The region's cards, and then the other regions.
      have hgo : ∀ {g₁ : Gather}, Gathered c s clean
            (fun k => ∃ r' ∈ r :: l, k / kCardsPerRegion = c.geo.matureBlocks + r') g₁ →
          (∀ r' ∈ l, g₁.regions (c.geo.matureBlocks + r') = g.regions (c.geo.matureBlocks + r')) →
          ∃ g₂, gatherCards c s clean (c.geo.largeLo + r * kRegionBytes)
              (range kCardsPerRegion) g₁ = .ok g₂ ∧
            ∃ g', gatherRegions c s clean l g₂ = .ok g' ∧
              Gathered c s clean (fun _ => False) g' := by
        intro g₁ h₁ hkeep
        have hsplit : ∀ k, (∃ r' ∈ r :: l, k / kCardsPerRegion = c.geo.matureBlocks + r') →
            (∃ i ∈ range kCardsPerRegion, k = 64 * (c.geo.matureBlocks + r) + i) ∨
              ∃ r' ∈ l, k / kCardsPerRegion = c.geo.matureBlocks + r' := by
          rintro k ⟨r', hr', hk⟩
          rcases mem_cons.mp hr' with rfl | hr'
          · rw [h64] at hk
            exact .inl ⟨k - 64 * (c.geo.matureBlocks + r'), mem_range.mpr (by omega), by omega⟩
          · exact .inr ⟨r', hr', hk⟩
        obtain ⟨g₂, hg₂, hinv, hreg⟩ := gatherCards_spec hc hfits (hlt r mem_cons_self)
          (range kCardsPerRegion) (fun i hi => mem_range.mp hi) pairwise_lt_range
          (by
            rintro k ⟨r', hr', hk⟩
            have := hbefore r' hr'
            rw [h64] at hk
            omega)
          (h₁.mono (fun _ _ k _ hk => .inr (hsplit k hk)) (by
            rintro k (⟨i, hi, rfl⟩ | ⟨r', hr', hk⟩)
            · have := mem_range.mp hi
              refine ⟨r, mem_cons_self, ?_⟩
              rw [h64] at this ⊢
              omega
            · exact ⟨r', mem_cons_of_mem _ hr', hk⟩) fun k _ hk => .inr (hsplit k hk))
        refine ⟨g₂, hg₂, ih hlt' hl' (fun r' hr' => ?_) hinv⟩
        rw [hreg, hkeep r' hr']
        exact hsame r' (mem_cons_of_mem _ hr')
      cases clean with
      | true =>
        obtain ⟨g₂, hg₂, hrest⟩ := hgo (h.clear (r := c.geo.matureBlocks + r) (by omega)
          fun k hk => ⟨r, mem_cons_self, hk⟩) fun r' hr' => by
            have := hbefore r' hr'
            exact update_of_ne (by omega) _ _
        simp only [if_true, hg₂]
        exact hrest
      | false =>
        obtain ⟨g₂, hg₂, hrest⟩ := hgo h fun _ _ => rfl
        simp only [Bool.false_eq_true, if_false, hg₂]
        exact hrest
    · rw [if_neg hset]
      refine ih hlt' hl' (fun r' hr' => hsame r' (mem_cons_of_mem _ hr')) (h.mono ?_ ?_ ?_)
      · rintro x j k ⟨_, _, _, hflag, _⟩ ⟨r', hr', hk⟩
        rcases mem_cons.mp hr' with rfl | hr'
        · rw [hk, ← hsame r' mem_cons_self] at hflag
          exact absurd hflag hset
        · exact .inr ⟨r', hr', hk⟩
      · rintro k ⟨r', hr', hk⟩
        exact ⟨r', mem_cons_of_mem _ hr', hk⟩
      · rintro k _ ⟨r', hr', hk⟩
        rcases mem_cons.mp hr' with rfl | hr'
        · rw [hk]
          exact .inl (hsame r' mem_cons_self)
        · exact .inr ⟨r', hr', hk⟩

end

end Walk

theorem gatherAll_spec (clean : Bool) (hc : CardsOk c s)
    (hfits : c.space.Fits s.old (sizes s.heap)) :
    ∃ g, gatherRegions c s clean (range
        ((c.space.largeFrontier s.old + kPagesPerRegion - 1) / kPagesPerRegion))
        ⟨s.cards, s.regions, [], 0⟩ = .ok g ∧ Gathered c s clean (fun _ => False) g ∧
      ∀ x j o, s.heap x = some o → c.geo.inLarge x = true →
        Behind c.geo s.cards s.regions o.size x j → Covered s.heap g.out.reverse (.field x j) := by
  have hfrontier := c.space.frontier_le hfits
  have h4096 : kPageBytes = 4096 := rfl
  have h8 : kPagesPerRegion = 8 := rfl
  have h64 : kCardsPerRegion = 64 := rfl
  have hhi : c.geo.heapHi = c.geo.largeLo + c.geo.largeRegions * 32768 := rfl
  rw [h4096] at hfrontier
  have hstart : Gathered c s clean (fun k => ∃ r ∈ range
      ((c.space.largeFrontier s.old + kPagesPerRegion - 1) / kPagesPerRegion),
      k / kCardsPerRegion = c.geo.matureBlocks + r) ⟨s.cards, s.regions, [], 0⟩ :=
    { cards := fun _ => .inl rfl
      regions := fun _ _ => rfl
      ranges := fun r hr => absurd hr (by simp)
      cover := by
        intro x j k hvia
        refine .inr ⟨rfl, ?_⟩
        obtain ⟨head, rfl, hk, hhead⟩ := hvia.head hfits
        obtain ⟨_, _, hlt⟩ := c.space.page_run hfits hhead
        refine ⟨k / 64 - c.geo.matureBlocks, mem_range.mpr ?_, ?_⟩
        · rw [h8]
          omega
        · rw [h64]
          omega
      whole := fun _ _ _ _ _ hlt => absurd hlt (Nat.not_lt_zero _)
      flags := fun _ _ => .inl rfl
      cleaning := fun _ => rfl }
  obtain ⟨g, hg, hdone⟩ := gatherRegions_spec hc hfits _ (fun r hr => by
    have := mem_range.mp hr
    rw [h8] at this
    omega) pairwise_lt_range (fun _ _ => rfl) hstart
  refine ⟨g, hg, hdone, fun x j o ho hlarge hbehind => ?_⟩
  obtain ⟨k, hvia⟩ := via_of_behind ho hlarge hbehind
  rcases hdone.cover x j k hvia with ⟨r, hr, hc⟩ | ⟨_, hf⟩
  · exact ⟨r, mem_reverse.mpr hr, hc⟩
  · exact hf.elim

/-- `gather_large_ranges`, with the cards cleaned: the ranges have every slot that lay behind
a card of a large object. -/
theorem gatherLargeRanges_spec
    (h : Inv c H R want (fun u => W u ∨ ∃ x j o, u = .field x j ∧ c.geo.inLarge x = true ∧
      s.heap x = some o ∧ Behind c.geo s.cards s.regions o.size x j) s) :
    ∃ ranges s', gatherLargeRanges c true s = .ok (ranges, s') ∧ Keeps c H s s' ∧
      (∀ r ∈ ranges, RangeOk c s' r) ∧
      Inv c H R want (fun u => W u ∨ Covered s'.heap ranges u) s' := by
  obtain ⟨g, hg, hdone, hcovered⟩ := gatherAll_spec true h.toCardsOk h.fits
  have hsame : ∀ k, g.cards k ≠ .clean → g.cards k = s.cards k := by
    intro k hk
    rcases hdone.cards k with heq | ⟨hclean, _⟩
    · exact heq
    · exact absurd hclean hk
  have hcards : CardsOk c { s with cards := g.cards, regions := g.regions } := by
    constructor
    · intro a ha hdirty
      have hne : g.cards (c.geo.cardOf a) ≠ .clean := by
        rw [show g.cards (c.geo.cardOf a) = .dirty from hdirty]
        simp
      have hregion := h.region a ha ((hsame _ hne).symm.trans hdirty)
      rcases hdone.flags _ hne with heq | hf
      · rw [cardOf_div] at heq
        exact heq.trans hregion
      · exact hf.elim
    · intro a ha hne
      exact h.live a ha (hsame _ hne ▸ hne)
  have hbehind : ∀ x j o, s.heap x = some o → c.geo.isOld x = true →
      Behind c.geo s.cards s.regions o.size x j →
      Behind c.geo g.cards g.regions o.size x j ∨
        (W (.field x j) ∨ Covered s.heap g.out.reverse (.field x j)) := by
    intro x j o ho hold hbehind
    by_cases hlarge : c.geo.inLarge x = true
    · exact .inr (.inr (hcovered x j o ho hlarge hbehind))
    · rcases hbehind with ⟨hdirty, hregion⟩ | ⟨hl, _⟩
      · refine .inl (.inl ?_)
        have h1 := largeLo_eq c.geo
        have hx : c.geo.matureLo ≤ x ∧ x < c.geo.largeLo := by
          have h2 := Geometry.isOld_iff.mp hold
          have h3 := mt Geometry.inLarge_iff.mpr hlarge
          omega
        have hcard : c.geo.cardOf x < 64 * c.geo.matureBlocks := by
          rw [cardOf_eq]
          omega
        refine ⟨?_, (hdone.regions _ (.inl ?_)).trans hregion⟩
        · rcases hdone.cards (c.geo.cardOf x) with heq | ⟨_, hle⟩
          · exact heq.trans hdirty
          · omega
        · rw [regionOf_eq]
          omega
      · exact absurd hl hlarge
  have himp : ∀ u, Live c H s u → (W u ∨ ∃ x j o, u = .field x j ∧ c.geo.inLarge x = true ∧
      s.heap x = some o ∧ Behind c.geo s.cards s.regions o.size x j) →
      W u ∨ Covered s.heap g.out.reverse u := by
    rintro u _ (hu | ⟨x, j, o, rfl, hlarge, ho, hb⟩)
    · exact .inl hu
    · exact .inr (hcovered x j o ho hlarge hb)
  obtain ⟨hinv, hkeeps⟩ := h.recard _ _ hcards hbehind himp
  refine ⟨g.out.reverse, _, ?_, hkeeps, ?_, hinv⟩
  · simp only [gatherLargeRanges, hg]
  · intro r hr
    exact hdone.ranges r (mem_reverse.mp hr)

theorem scanRanges_spec (hb : Base c H R) (l : List CardRange) (hl : ∀ r ∈ l, RangeOk c s r)
    (h : Inv c H R want (fun u => W u ∨ Covered s.heap l u) s) :
    Ends (scanRanges c l s) fun s' => Inv c H R want W s' ∧ Grows c H s s' := by
  induction l generalizing s with
  | nil =>
    refine ⟨h.weaken ?_, .refl s⟩
    rintro u (hu | ⟨r, hr, _⟩)
    · exact hu
    · exact absurd hr (by simp)
  | cons r l ih =>
    obtain ⟨hle, hold, hsome⟩ := hl r mem_cons_self
    obtain ⟨o, ho⟩ := Option.isSome_iff_exists.mp hsome
    have hp := h.toShape.place_of_old hb ho hold
    have hstep : ∀ {s₁ : State A M}, Grows c H s s₁ →
        Inv c H R want (fun u => W u ∨ Covered s.heap l u) s₁ →
        Ends (scanRanges c l s₁) fun s' => Inv c H R want W s' ∧ Grows c H s s' := by
      intro s₁ hg hinv
      have hl₁ : ∀ r ∈ l, RangeOk c s₁ r := by
        intro r' hr'
        obtain ⟨hle', hold', hsome'⟩ := hl r' (mem_cons_of_mem _ hr')
        obtain ⟨o', ho'⟩ := Option.isSome_iff_exists.mp hsome'
        obtain ⟨o'', ho'', _⟩ := hg.kept _ o' ho'
        exact ⟨hle', hold', by rw [ho'']; rfl⟩
      refine (ih hl₁ (hinv.weaken ?_)).mono fun s' hs' => ⟨hs'.1, hg.trans hs'.2⟩
      rintro u (hu | ⟨r', hr', j, o', rfl, ho', hcase⟩)
      · exact .inl hu
      · obtain ⟨o'', ho'', hsize, _⟩ := hg.kept _ o' ho'
        exact .inr ⟨r', hr', j, o'', rfl, ho'', hsize.symm ▸ hcase⟩
    obtain ⟨r', hr', hscanned⟩ : ∃ r',
        (if r.lo = 0 ∧ r.hi = ((s.heap r.object).map (·.size)).getD 0 then
          scanObject c kCopyDepth r.object true s
        else scanObjectRange c r.object r.lo r.hi s) = r' ∧ Ends r' fun s₁ =>
          Inv c H R want (fun u => W u ∨ Covered s.heap l u) s₁ ∧ Grows c H s s₁ := by
      refine ⟨_, rfl, ?_⟩
      by_cases hwhole : r.lo = 0 ∧ r.hi = ((s.heap r.object).map (·.size)).getD 0
      · rw [if_pos hwhole]
        have hscan := (scanObject_ok hb kCopyDepth : ScanOk c H R want _)
          (fun u => W u ∨ Covered s.heap l u) s r.object hp (h.weaken (by
            rintro u (hu | ⟨r', hr', hcov⟩)
            · exact .inl (.inl hu)
            · rcases mem_cons.mp hr' with rfl | hr'
              · obtain ⟨j, _, rfl, _⟩ := hcov
                exact .inr rfl
              · exact .inl (.inr ⟨r', hr', hcov⟩)))
        rw [hold] at hscan
        exact hscan
      · rw [if_neg hwhole]
        refine (scanObjectRange_spec r.lo r.hi hb h hp hold).mono ?_
        rintro s₁ ⟨hinv, hg⟩
        refine ⟨hinv.weaken ?_, hg⟩
        rintro u ⟨hu | ⟨r', hr', hcov⟩, hnot⟩
        · exact .inl hu
        · rcases mem_cons.mp hr' with rfl | hr'
          · obtain ⟨j, o', rfl, ho', hcase | hcase⟩ := hcov
            · refine absurd ⟨hcase.1, ?_⟩ hwhole
              rw [ho']
              exact hcase.2
            · exact absurd hcase (hnot j rfl o' ho')
          · exact .inr ⟨r', hr', hcov⟩
    unfold scanRanges
    dsimp only
    rw [hr']
    cases r' with
    | error e => exact hscanned
    | ok s₁ => exact hstep hscanned.2 hscanned.1

theorem scanDirtyCards_spec (hb : Base c H R)
    (h : Inv c H R want (fun u => W u ∨ ∃ x j o, u = .field x j ∧ c.geo.isOld x = true ∧
      s.heap x = some o ∧ Behind c.geo s.cards s.regions o.size x j) s) :
    Ends (scanDirtyCards c s) fun s' => Inv c H R want W s' ∧ Keeps c H s s' := by
  have hmature := scanMatureCards_spec (W := fun u => W u ∨ ∃ x j o, u = .field x j ∧
      c.geo.inLarge x = true ∧ s.heap x = some o ∧
      Behind c.geo s.cards s.regions o.size x j) hb (h.weaken (by
    rintro u (hu | ⟨x, j, o, rfl, hold, ho, hbehind⟩)
    · exact .inl (.inl hu)
    · cases hlarge : c.geo.inLarge x with
      | true => exact .inl (.inr ⟨x, j, o, rfl, hlarge, ho, hbehind⟩)
      | false =>
        rcases hbehind with ⟨hcard, hregion⟩ | ⟨hl, _⟩
        · exact .inr ⟨x, j, rfl, hold, hlarge, hcard, hregion⟩
        · exact absurd (hl.symm.trans hlarge) (by simp)))
  unfold scanDirtyCards
  revert hmature
  cases scanMatureCards c s with
  | error e => exact id
  | ok s₁ =>
    rintro ⟨hinv, hkeeps, hcards⟩
    obtain ⟨ranges, s₂, hgather, hkeeps₂, hranges, hinv₂⟩ :=
      gatherLargeRanges_spec (W := W) (hinv.weaken (by
        rintro u (hu | ⟨x, j, o, rfl, hlarge, ho, hbehind⟩)
        · exact .inl hu
        · obtain ⟨o', ho', hsize, _⟩ := hkeeps.kept x o ho
          have hl := (Geometry.inLarge_iff.mp hlarge).1
          refine .inr ⟨x, j, o', rfl, hlarge, ho', hsize.symm ▸ hcards.behind ?_ ?_ hbehind⟩
          · exact (large_card c.geo hl).2
          · intro _
            exact (large_card c.geo (Nat.le_trans hl (Nat.le_add_right _ _))).2))
    simp only [hgather]
    refine (scanRanges_spec hb ranges hranges hinv₂).mono ?_
    rintro s' ⟨hinv', hg⟩
    exact ⟨hinv', (hkeeps.trans hkeeps₂).trans hg.toKeeps⟩

end Brass.Gc.Heap
