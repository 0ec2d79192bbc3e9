import Mathlib.Data.List.Pairwise
import Brass.Gc.CodeStackMaps

/-!
# Every run of the registry keeps the index exact

The specification of the registry is the list of the live registrations with their
entries (`Spec`). A run whose live ranges never overlap does not abort, and in every
state it reaches

* each segment is sorted by start and its ranges are disjoint,
* the live entries of the segments are the entries of the live registrations, each once,
* the counters are the numbers of live entries and of dead entries still indexed,
* a lookup finds the live entry that contains the address, and nothing else.

Merging is the only operation that moves entries. `Compacts` says what it may do, and
every invariant is transported along it.
-/

namespace Brass.Gc.CodeStackMaps

open Brass.Util List

/-! ## Ranges -/

variable {id ip token : Nat} {es : List Entry} {ops : List Op} {d : RegistrationData} {r : Registry}

def Entry.Covers (e : Entry) (ip : Nat) : Prop := e.start ≤ ip ∧ ip < e.stop

instance (e : Entry) (ip : Nat) : Decidable (e.Covers ip) :=
  inferInstanceAs (Decidable (_ ∧ _))

/-- The range is not empty and does not wrap around the address space. -/
def Entry.Proper (e : Entry) : Prop := e.start < e.stop

instance (e : Entry) : Decidable e.Proper := inferInstanceAs (Decidable (_ < _))

def Entry.Disjoint (a b : Entry) : Prop := a.stop ≤ b.start ∨ b.stop ≤ a.start

instance (a b : Entry) : Decidable (a.Disjoint b) := inferInstanceAs (Decidable (_ ∨ _))

theorem Entry.Disjoint.symm {a b : Entry} (h : a.Disjoint b) : b.Disjoint a := Or.symm h

instance : Std.Symm Entry.Disjoint := ⟨fun _ _ h => h.symm⟩

theorem Entry.not_disjoint_of_covers {a b : Entry} (ha : a.Covers ip) (hb : b.Covers ip) :
    ¬ a.Disjoint b := by
  rintro (h | h)
  · exact absurd (lt_of_lt_of_le ha.2 h) (not_lt.mpr hb.1)
  · exact absurd (lt_of_lt_of_le hb.2 h) (not_lt.mpr ha.1)

/-- In a list of disjoint ranges at most one entry contains an address. -/
theorem eq_of_covers (hdis : es.Pairwise Entry.Disjoint) {a b : Entry} (ha : a ∈ es)
    (hb : b ∈ es) (hca : a.Covers ip) (hcb : b.Covers ip) : a = b := by
  by_contra hne
  exact Entry.not_disjoint_of_covers hca hcb (hdis.forall ha hb hne)

/-! ## The specification -/

/-- The live registrations, with the token that the next one gets. -/
structure Spec where
  next : Nat
  live : List (Nat × List Entry)

namespace Spec

def empty : Spec := ⟨0, []⟩

def entries (s : Spec) : List Entry := s.live.flatMap (·.2)

def register (s : Spec) (d : RegistrationData) : Spec :=
  if d.entryCount = 0 then s else ⟨s.next + 1, s.live ++ [(s.next, entriesOf s.next d)]⟩

def step (s : Spec) : Op → Spec
  | .registerCodeStackMaps maps => s.register (dataOfMaps maps)
  | .registerCodeStackMap map => s.register (dataOfMap map)
  | .registerEncodedCodeStackMaps ranges => s.register (dataOfEncoded ranges)
  | .unregister token => { s with live := s.live.filter (fun p => p.1 ≠ token) }

def run (s : Spec) (ops : List Op) : Spec := ops.foldl step s

def NonOverlapping (s : Spec) : Prop :=
  (∀ e ∈ s.entries, e.Proper) ∧ s.entries.Pairwise Entry.Disjoint

instance (s : Spec) : Decidable s.NonOverlapping := inferInstanceAs (Decidable (_ ∧ _))

end Spec

/-- The live ranges do not overlap after any number of the operations. -/
def NonOverlappingRun (s : Spec) : List Op → Prop
  | [] => s.NonOverlapping
  | op :: ops => s.NonOverlapping ∧ NonOverlappingRun (s.step op) ops

instance decidableNonOverlappingRun : (s : Spec) → (ops : List Op) →
    Decidable (NonOverlappingRun s ops)
  | s, [] => inferInstanceAs (Decidable s.NonOverlapping)
  | s, op :: ops =>
    have := decidableNonOverlappingRun (s.step op) ops
    inferInstanceAs (Decidable (_ ∧ _))

variable {s : Spec}

theorem NonOverlappingRun.head (h : NonOverlappingRun s ops) : s.NonOverlapping := by
  cases ops with
  | nil => exact h
  | cons op ops => exact h.1

/-! ## Segments -/

def SortedDisjoint (es : List Entry) : Prop :=
  (∀ e ∈ es, e.Proper) ∧ es.Pairwise (fun a b => a.stop ≤ b.start)

/-- A well-formed segment: its entries are sorted and disjoint, and every registration
they point into is kept alive by the segment. -/
structure Segment.Ok (seg : Segment) : Prop where
  sorted : SortedDisjoint seg.entries
  owned : ∀ e ∈ seg.entries, e.owner ∈ seg.owners

theorem SortedDisjoint.pairwise_start (h : SortedDisjoint es) :
    es.Pairwise (fun a b => a.start < b.start) :=
  h.2.imp_of_mem fun {_ _} ha _ hab => lt_of_lt_of_le (h.1 _ ha) hab

theorem sortEntries_perm (es : List Entry) : (sortEntries es).Perm es := mergeSort_perm es _

theorem sortEntries_sorted (es : List Entry) :
    (sortEntries es).Pairwise (fun a b => a.start ≤ b.start) := by
  have h : (sortEntries es).Pairwise (fun a b => decide (a.start ≤ b.start) = true) := by
    refine pairwise_mergeSort ?_ ?_ es
    · intro a b c hab hbc
      simp only [decide_eq_true_eq] at hab hbc ⊢
      omega
    · intro a b
      simp only [Bool.or_eq_true, decide_eq_true_eq]
      omega
  exact h.imp (fun hab => by simpa using hab)

theorem sortEntries_sortedDisjoint (hp : ∀ e ∈ es, e.Proper) (hdis : es.Pairwise Entry.Disjoint) :
    SortedDisjoint (sortEntries es) := by
  have hperm := sortEntries_perm es
  refine ⟨fun e he => hp e (hperm.mem_iff.mp he), ?_⟩
  have hdis' : (sortEntries es).Pairwise Entry.Disjoint :=
    hperm.symm.pairwise hdis (fun h => h.symm)
  refine (hdis'.and (sortEntries_sorted es)).imp_of_mem ?_
  rintro a b ha hb ⟨hd, hle⟩
  rcases hd with h | h
  · exact h
  · have hb' : b.start < b.stop := hp b (hperm.mem_iff.mp hb)
    exact absurd (lt_of_lt_of_le hb' (le_trans h hle)) (lt_irrefl _)

theorem findInSegment_eq_some_iff {regs : List RegistrationData} {seg : Segment} (hok : seg.Ok)
    {e : Entry} :
    findInSegment regs ip seg = some e ↔ e ∈ seg.entries ∧ e.Covers ip ∧ isAlive regs e = true := by
  have hlt := hok.sorted.pairwise_start
  have hmono : seg.entries.Pairwise
      (fun a b => (!decide (ip < b.start)) = true → (!decide (ip < a.start)) = true) := by
    refine hlt.imp ?_
    intro a b hab hb
    simp only [Bool.not_eq_true', decide_eq_false_iff_not, not_lt] at hb ⊢
    exact le_trans hab.le hb
  have hmem : ∀ x, x ∈ seg.entries.takeWhile (fun e => !decide (ip < e.start)) ↔
      x ∈ seg.entries ∧ x.start ≤ ip := by
    intro x
    rw [mem_takeWhile_iff hmono]
    simp
  unfold findInSegment
  simp only [take_partitionPoint hmono]
  constructor
  · intro h
    cases hlast : (seg.entries.takeWhile (fun e => !decide (ip < e.start))).getLast? with
    | none => simp [hlast] at h
    | some last =>
      simp only [hlast] at h
      split at h
      · rename_i hc
        cases h
        obtain ⟨h₁, h₂⟩ := (hmem e).mp (mem_of_getLast? hlast)
        exact ⟨h₁, ⟨h₂, hc.1⟩, hc.2⟩
      · cases h
  · rintro ⟨he, ⟨hs, ht⟩, ha⟩
    have hin := (hmem e).mpr ⟨he, hs⟩
    obtain ⟨front, last, hl⟩ : ∃ front last,
        seg.entries.takeWhile (fun e => !decide (ip < e.start)) = front ++ [last] :=
      ⟨_, _, (dropLast_append_getLast (ne_nil_of_mem hin)).symm⟩
    have hsub : (front ++ [last]).Pairwise (fun a b => a.stop ≤ b.start) := by
      rw [← hl]
      exact hok.sorted.2.sublist (takeWhile_sublist _)
    -- An entry before the last one ends where the last one starts, so it misses `ip`.
    have hlast : e = last := by
      rw [hl] at hin
      rcases mem_append.mp hin with hfront | hlast
      · have hstop := (pairwise_append.mp hsub).2.2 e hfront last (by simp)
        have hle := ((hmem last).mp (by rw [hl]; simp)).2
        exact absurd ht (not_lt.mpr (le_trans hstop hle))
      · simpa using hlast
    rw [hl]
    simp only [getLast?_append, getLast?_singleton, Option.some_or]
    rw [← hlast, if_pos ⟨ht, ha⟩]

/-- An overlap that is reported is a live entry that overlaps the range. -/
theorem liveOverlapWalk_some {regs : List RegistrationData} {start : Nat} {o : Entry}
    (h : liveOverlapWalk regs start es = some o) :
    o ∈ es ∧ start < o.stop ∧ isAlive regs o = true := by
  induction es with
  | nil => cases h
  | cons e rest ih =>
    unfold liveOverlapWalk at h
    split at h
    · cases h
    · rename_i hstop
      split at h
      · rename_i ha
        cases h
        exact ⟨by simp, not_le.mp hstop, ha⟩
      · obtain ⟨h₁, h₂⟩ := ih h
        exact ⟨by simp [h₁], h₂⟩

theorem liveOverlap_some {regs : List RegistrationData} {seg : Segment} (hok : seg.Ok)
    {start stop : Nat} {o : Entry} (h : liveOverlap regs seg start stop = some o) :
    o ∈ seg.entries ∧ isAlive regs o = true ∧ start < o.stop ∧ o.start < stop := by
  have hmono : seg.entries.Pairwise
      (fun a b => decide (b.start < stop) = true → decide (a.start < stop) = true) := by
    refine hok.sorted.pairwise_start.imp ?_
    intro a b hab hb
    simp only [decide_eq_true_eq] at hb ⊢
    exact lt_trans hab hb
  unfold liveOverlap at h
  simp only [take_partitionPoint hmono] at h
  obtain ⟨hmem, hstop, ha⟩ := liveOverlapWalk_some h
  obtain ⟨h₁, h₂⟩ := (mem_takeWhile_iff hmono).mp (mem_reverse.mp hmem)
  exact ⟨h₁, ha, hstop, by simpa using h₂⟩

/-! ## Merging -/

def liveOf (regs : List RegistrationData) (segs : List Segment) : List Entry :=
  (segs.flatMap (·.entries)).filter (isAlive regs)

def deadOf (regs : List RegistrationData) (segs : List Segment) : List Entry :=
  (segs.flatMap (·.entries)).filter (fun e => !isAlive regs e)

variable (regs : List RegistrationData)

theorem liveOf_append (xs ys : List Segment) :
    liveOf regs (xs ++ ys) = liveOf regs xs ++ liveOf regs ys := by simp [liveOf]

theorem deadOf_append (xs ys : List Segment) :
    deadOf regs (xs ++ ys) = deadOf regs xs ++ deadOf regs ys := by simp [deadOf]

theorem liveOf_perm {xs ys : List Segment} (h : xs.Perm ys) :
    (liveOf regs xs).Perm (liveOf regs ys) := (h.flatMap_right _).filter _

theorem deadOf_perm {xs ys : List Segment} (h : xs.Perm ys) :
    (deadOf regs xs).Perm (deadOf regs ys) := (h.flatMap_right _).filter _

/-- What merging may do to the segments and to the number of dead entries. -/
structure Compacts (regs : List RegistrationData) (segs : List Segment) (dead : Int)
    (segs' : List Segment) (dead' : Int) : Prop where
  live : (liveOf regs segs').Perm (liveOf regs segs)
  dead : dead' - (deadOf regs segs').length = dead - (deadOf regs segs).length
  mem : ∀ e ∈ segs'.flatMap (·.entries), e ∈ segs.flatMap (·.entries)
  ok : (∀ seg ∈ segs, seg.Ok) → (liveOf regs segs).Pairwise Entry.Disjoint →
    ∀ seg ∈ segs', seg.Ok

namespace Compacts

variable {regs : List RegistrationData} {a b c : List Segment} {i j k : Int}

theorem refl (a : List Segment) (i : Int) :
    Compacts regs a i a i := ⟨List.Perm.refl _, rfl, fun _ h => h, fun h _ => h⟩

theorem trans (h₁ : Compacts regs a i b j) (h₂ : Compacts regs b j c k) :
    Compacts regs a i c k where
  live := h₂.live.trans h₁.live
  dead := h₂.dead.trans h₁.dead
  mem := fun e he => h₁.mem e (h₂.mem e he)
  ok := fun hok hdis =>
    h₂.ok (h₁.ok hok hdis) (h₁.live.symm.pairwise hdis fun h => h.symm)

theorem of_perm (h : b.Perm a) : Compacts regs a i b i where
  live := liveOf_perm regs h
  dead := by rw [(deadOf_perm regs h).length_eq]
  mem := fun _ he => (h.flatMap_right _).mem_iff.mp he
  ok := fun hok _ seg hseg => hok seg (h.mem_iff.mp hseg)

theorem append (h : Compacts regs a i b j) (rest : List Segment) :
    Compacts regs (a ++ rest) i (b ++ rest) j where
  live := by
    rw [liveOf_append, liveOf_append]
    exact h.live.append_right _
  dead := by
    have := h.dead
    rw [deadOf_append, deadOf_append]
    simp only [length_append]
    omega
  mem := by
    intro e he
    rw [flatMap_append] at he ⊢
    rcases mem_append.mp he with h' | h'
    · exact mem_append_left _ (h.mem e h')
    · exact mem_append_right _ h'
  ok := by
    intro hok hdis seg hseg
    rw [liveOf_append] at hdis
    rcases mem_append.mp hseg with h' | h'
    · exact h.ok (fun s hs => hok s (mem_append_left _ hs)) (pairwise_append.mp hdis).1 seg h'
    · exact hok seg (mem_append_right _ h')

end Compacts

theorem mem_uniqueAdjacent {x : Nat} {xs : List Nat} : x ∈ uniqueAdjacent xs ↔ x ∈ xs := by
  fun_induction uniqueAdjacent xs with
  | case1 => rfl
  | case2 a => rfl
  | case3 a rest ih =>
    rw [ih]
    simp
  | case4 a b rest hne ih =>
    rw [mem_cons, ih, mem_cons (a := x) (b := a)]

theorem mem_merge_owners {regs : List RegistrationData} {parts : List Segment} :
    id ∈ (merge regs parts).1.owners ↔
      (∃ seg ∈ parts, id ∈ seg.owners) ∧ aliveIn regs id = true := by
  simp [merge, mem_uniqueAdjacent]

/-- Merging into a segment that is kept only if it has entries. -/
theorem merge_compacts (parts : List Segment) (dead : Int) : Compacts regs parts dead
      (if (merge regs parts).1.entries.isEmpty then [] else [(merge regs parts).1])
      (dead - (merge regs parts).2) := by
  have hperm : (merge regs parts).1.entries.Perm (liveOf regs parts) := sortEntries_perm _
  -- A merged segment without entries and no segment at all index the same entries.
  have hentries : (if (merge regs parts).1.entries.isEmpty then [] else [(merge regs parts).1]
      ).flatMap Segment.entries = (merge regs parts).1.entries := by
    split
    · rename_i h
      simpa using (isEmpty_iff.mp h).symm
    · simp
  have halive : ∀ e ∈ (merge regs parts).1.entries, isAlive regs e = true := by
    intro e he
    exact (mem_filter.mp (hperm.mem_iff.mp he)).2
  refine ⟨?_, ?_, ?_, ?_⟩
  · unfold liveOf
    rw [hentries, filter_eq_self.mpr halive]
    exact hperm
  · unfold deadOf
    rw [hentries, filter_eq_nil_iff.mpr (fun e he => by simp [halive e he])]
    simp [merge]
  · intro e he
    rw [hentries] at he
    exact (mem_filter.mp (hperm.mem_iff.mp he)).1
  · intro hok hdis seg hseg
    split at hseg
    · cases hseg
    · obtain rfl := mem_singleton.mp hseg
      refine ⟨sortEntries_sortedDisjoint ?_ hdis, ?_⟩
      · intro e he
        obtain ⟨p, hp, hep⟩ := mem_flatMap.mp (mem_filter.mp he).1
        exact (hok p hp).sorted.1 e hep
      · intro e he
        obtain ⟨hmem, hal⟩ := mem_filter.mp (hperm.mem_iff.mp he)
        obtain ⟨p, hp, hep⟩ := mem_flatMap.mp hmem
        exact mem_merge_owners.mpr ⟨⟨p, hp, (hok p hp).owned e hep⟩, hal⟩

theorem mergeNewest_compacts (dead : Int) (segs : List Segment) :
    Compacts regs segs dead (mergeNewest regs dead segs).1 (mergeNewest regs dead segs).2 := by
  fun_induction mergeNewest regs dead segs with
  | case1 dead top below rest _ m ih =>
    have hswap : Compacts regs (top :: below :: rest) dead ([below, top] ++ rest) dead :=
      Compacts.of_perm (List.Perm.swap top below rest)
    have hmerge := (merge_compacts regs [below, top] dead).append rest
    have hcons : (if m.1.entries.isEmpty then [] else [m.1]) ++ rest =
        if m.1.entries.isEmpty then rest else m.1 :: rest := by
      split <;> rfl
    rw [hcons] at hmerge
    exact (hswap.trans hmerge).trans ih
  | case2 dead top below rest _ => exact Compacts.refl ..
  | case3 dead segs _ => exact Compacts.refl ..

@[simp] theorem publishSegments_regs (r : Registry) (segs : List Segment) :
    (publishSegments r segs).regs = r.regs := rfl

theorem publishSegments_compacts (r : Registry) (segs : List Segment) :
    Compacts r.regs segs r.deadEntries (publishSegments r segs).segments
      (publishSegments r segs).deadEntries := by
  unfold publishSegments
  dsimp only
  split
  · refine (merge_compacts r.regs segs r.deadEntries).trans ?_
    exact ((Compacts.of_perm (reverse_perm _)).trans (mergeNewest_compacts ..)).trans
      (Compacts.of_perm (reverse_perm _))
  · exact ((Compacts.of_perm (reverse_perm _)).trans (mergeNewest_compacts ..)).trans
      (Compacts.of_perm (reverse_perm _))

/-! ## Registrations -/

theorem sortRecords_records_eq_nil (fn : FunctionStackMap) :
    fn.sortRecords.records = [] ↔ fn.records = [] := by
  rw [← length_eq_zero_iff, ← length_eq_zero_iff]
  simp [FunctionStackMap.sortRecords]

theorem codeRange_sortRecords_isSome (fn : FunctionStackMap) :
    (codeRange fn.sortRecords).isSome = (codeRange fn).isSome := by
  have hnil := sortRecords_records_eq_nil fn
  have haddr : fn.sortRecords.functionAddress = fn.functionAddress := rfl
  unfold codeRange
  rw [haddr]
  simp only [hnil]
  by_cases h0 : fn.functionAddress = 0 ∨ fn.records = []
  · simp [h0]
  · simp only [h0, if_false]
    split <;> split <;> rfl

/-- Every map of a registration has a code range, so it makes one entry. -/
def RegistrationData.Ranged (d : RegistrationData) : Prop :=
  d.alive = true ∧ ∀ fn ∈ d.maps, (codeRange fn).isSome = true

theorem ranged_filterMap {fns : List FunctionStackMap} {fn : FunctionStackMap}
    (h : fn ∈ fns.filterMap fun fn => if (codeRange fn).isSome then some fn.sortRecords else none) :
    (codeRange fn).isSome = true := by
  obtain ⟨f, -, hf⟩ := mem_filterMap.mp h
  split at hf
  · rename_i hsome
    cases hf
    rw [codeRange_sortRecords_isSome]
    exact hsome
  · cases hf

theorem dataOfMaps_ranged (maps : ModuleStackMap) : (dataOfMaps maps).Ranged :=
  ⟨rfl, fun _ h => ranged_filterMap h⟩

theorem dataOfMap_ranged (map : FunctionStackMap) : (dataOfMap map).Ranged := by
  refine ⟨rfl, ?_⟩
  intro fn h
  unfold dataOfMap at h
  dsimp only at h
  split at h
  · rename_i hsome
    obtain rfl := mem_singleton.mp h
    rw [codeRange_sortRecords_isSome]
    exact hsome
  · cases h

theorem dataOfEncoded_ranged (ranges : List EncodedCodeStackMap) :
    (dataOfEncoded ranges).Ranged := by
  refine ⟨rfl, ?_⟩
  intro fn h
  obtain ⟨r, -, hr⟩ := mem_flatMap.mp h
  unfold decodedNow at hr
  split at hr
  · cases hr
  · exact ranged_filterMap hr

theorem length_entriesOf (h : d.Ranged) (id : Nat) : (entriesOf id d).length = d.entryCount := by
  have hmaps : ∀ fns : List FunctionStackMap, (∀ fn ∈ fns, (codeRange fn).isSome = true) →
      (fns.filterMap fun fn => (codeRange fn).map (fun r => (⟨r.1, r.2, .map fn, id⟩ : Entry))).length
        = fns.length := by
    intro fns
    induction fns with
    | nil => simp
    | cons fn fns ih =>
      intro hall
      obtain ⟨range, hrange⟩ := Option.isSome_iff_exists.mp (hall fn (by simp))
      rw [filterMap_cons, hrange]
      simpa using ih (fun f hf => hall f (by simp [hf]))
  simp only [entriesOf, length_append, length_map, RegistrationData.entryCount]
  rw [hmaps d.maps h.2]

theorem owner_of_mem_entriesOf {e : Entry} (h : e ∈ entriesOf id d) : e.owner = id := by
  rcases mem_append.mp h with h | h
  · obtain ⟨fn, -, hfn⟩ := mem_filterMap.mp h
    obtain ⟨range, -, rfl⟩ := Option.map_eq_some_iff.mp hfn
    rfl
  · obtain ⟨l, -, rfl⟩ := mem_map.mp h
    rfl

/-! ## The invariant -/

/-- The registry indexes exactly the registrations that `s` lists as live. -/
structure Inv (r : Registry) (s : Spec) : Prop where
  next : s.next = r.regs.length
  alive : ∀ id, aliveIn r.regs id = true ↔ ∃ es, (id, es) ∈ s.live
  ids : (s.live.map (·.1)).Nodup
  data : ∀ id es, (id, es) ∈ s.live →
    ∃ d, r.regs[id]? = some d ∧ d.Ranged ∧ es = entriesOf id d
  ok : ∀ seg ∈ r.segments, seg.Ok
  owners : ∀ e ∈ r.segments.flatMap (·.entries), e.owner < r.regs.length
  indexed : (liveOf r.regs r.segments).Perm s.entries
  live : r.liveEntries = s.entries.length
  dead : r.deadEntries = (deadOf r.regs r.segments).length

theorem inv_empty : Inv .empty .empty where
  next := rfl
  alive := by simp [Registry.empty, Spec.empty, aliveIn]
  ids := by simp [Spec.empty]
  data := by simp [Spec.empty]
  ok := by simp [Registry.empty]
  owners := by simp [Registry.empty]
  indexed := by simp [Registry.empty, Spec.empty, liveOf, Spec.entries]
  live := by simp [Registry.empty, Spec.empty, Spec.entries]
  dead := by simp [Registry.empty, deadOf]

/-- Publishing segments transports the invariant: it only has to hold of the segments
that are handed in. -/
theorem Inv.publishSegments {segs : List Segment} (h : Inv { r with segments := segs } s)
    (hs : s.NonOverlapping) :
    Inv (publishSegments r segs) s := by
  have hc := publishSegments_compacts r segs
  have hdis : (liveOf r.regs segs).Pairwise Entry.Disjoint :=
    h.indexed.symm.pairwise hs.2 (fun h => h.symm)
  refine ⟨h.next, h.alive, h.ids, h.data, hc.ok h.ok hdis, fun e he => h.owners e (hc.mem e he),
    hc.live.trans h.indexed, h.live, ?_⟩
  have hd := hc.dead
  have hd' : r.deadEntries = (deadOf r.regs segs).length := h.dead
  simp only [publishSegments_regs]
  omega

/-! ## Registering -/

theorem adjacentOverlap_eq_none (h : es.Pairwise (fun a b => a.stop ≤ b.start)) :
    adjacentOverlap es = none := by
  fun_induction adjacentOverlap es with
  | case1 a b rest hlt =>
    have := (pairwise_cons.mp h).1 b (by simp)
    omega
  | case2 a b rest _ ih => exact ih (pairwise_cons.mp h).2
  | case3 es _ => rfl

theorem registeredOverlap_eq_none (hok : ∀ seg ∈ r.segments, seg.Ok)
    (hdis : ∀ e ∈ es, ∀ o ∈ liveOf r.regs r.segments, e.Disjoint o) :
    registeredOverlap r es = none := by
  unfold registeredOverlap
  simp only [findSome?_eq_none_iff, Option.map_eq_none_iff]
  intro e he seg hseg
  cases hov : liveOverlap r.regs seg e.start e.stop with
  | none => rfl
  | some o =>
    obtain ⟨hmem, ha, h₁, h₂⟩ := liveOverlap_some (hok seg hseg) hov
    have hlive : o ∈ liveOf r.regs r.segments :=
      mem_filter.mpr ⟨mem_flatMap.mpr ⟨seg, hseg, hmem⟩, ha⟩
    rcases hdis e he o hlive with h | h <;> omega

theorem aliveIn_append_self (d : RegistrationData) :
    aliveIn (regs ++ [d]) regs.length = d.alive := by simp [aliveIn]

theorem aliveIn_append_of_lt {regs : List RegistrationData} (d : RegistrationData)
    (h : id < regs.length) : aliveIn (regs ++ [d]) id = aliveIn regs id := by
  simp [aliveIn, getElem?_append_left h]

theorem aliveIn_eq_false_of_le {regs : List RegistrationData} (h : regs.length ≤ id) :
    aliveIn regs id = false := by simp [aliveIn, getElem?_eq_none h]

theorem isAlive_append (h : Inv r s) (d : RegistrationData) :
    ∀ e ∈ r.segments.flatMap (·.entries), isAlive (r.regs ++ [d]) e = isAlive r.regs e :=
  fun e he => aliveIn_append_of_lt d (h.owners e he)

/-- The registry with one more segment, before any merging. -/
def withSegment (r : Registry) (d : RegistrationData) (es : List Entry) : Registry :=
  { r with
    liveEntries := r.liveEntries + es.length
    regs := r.regs ++ [d]
    segments := r.segments ++ [⟨es, [r.regs.length]⟩] }

theorem alive_withSegment (h : Inv r s) (hd : d.alive = true) (es : List Entry) (id : Nat) :
    aliveIn (r.regs ++ [d]) id = true ↔ ∃ es', (id, es') ∈ s.live ++ [(r.regs.length, es)] := by
  simp only [mem_append, mem_singleton, Prod.mk.injEq]
  rcases lt_trichotomy id r.regs.length with hlt | rfl | hgt
  · rw [aliveIn_append_of_lt d hlt, h.alive id]
    constructor
    · rintro ⟨es', h'⟩
      exact ⟨es', Or.inl h'⟩
    · rintro ⟨es', h' | ⟨rfl, -⟩⟩
      · exact ⟨es', h'⟩
      · omega
  · rw [aliveIn_append_self, hd]
    exact ⟨fun _ => ⟨es, Or.inr ⟨rfl, rfl⟩⟩, fun _ => rfl⟩
  · have hdead : aliveIn r.regs id = false := aliveIn_eq_false_of_le hgt.le
    rw [aliveIn_eq_false_of_le (by simp only [length_append, length_singleton]; omega)]
    refine ⟨fun h' => Bool.noConfusion h', ?_⟩
    rintro ⟨es', h' | ⟨rfl, -⟩⟩
    · rw [(h.alive id).mpr ⟨es', h'⟩] at hdead
      cases hdead
    · omega

theorem nodup_withSegment (h : Inv r s) (es : List Entry) :
    ((s.live ++ [(r.regs.length, es)]).map (·.1)).Nodup := by
  rw [map_append, nodup_append]
  refine ⟨h.ids, by simp, ?_⟩
  intro id hid id' hid' heq
  obtain ⟨⟨i, es'⟩, hmem, rfl⟩ := mem_map.mp hid
  obtain rfl : id' = r.regs.length := by simpa using hid'
  have halive := (h.alive i).mpr ⟨es', hmem⟩
  rw [show i = r.regs.length from heq, aliveIn_eq_false_of_le le_rfl] at halive
  cases halive

theorem inv_withSegment (h : Inv r s) (hd : d.Ranged)
    (hperm : es.Perm (entriesOf r.regs.length d)) (hsorted : SortedDisjoint es) :
    Inv (withSegment r d es)
      ⟨r.regs.length + 1, s.live ++ [(r.regs.length, entriesOf r.regs.length d)]⟩ := by
  have hentries : Spec.entries
      ⟨r.regs.length + 1, s.live ++ [(r.regs.length, entriesOf r.regs.length d)]⟩ =
      s.entries ++ entriesOf r.regs.length d := by simp [Spec.entries]
  have hown : ∀ e ∈ es, e.owner = r.regs.length :=
    fun e he => owner_of_mem_entriesOf (hperm.mem_iff.mp he)
  have hold := isAlive_append h d
  have hnew : ∀ e ∈ es, isAlive (r.regs ++ [d]) e = true := by
    intro e he
    rw [isAlive, hown e he, aliveIn_append_self]
    exact hd.1
  have hlive : liveOf (r.regs ++ [d]) (withSegment r d es).segments =
      liveOf r.regs r.segments ++ es := by
    rw [withSegment, liveOf_append]
    congr 1
    · exact filter_congr hold
    · simpa [liveOf] using hnew
  have hdead : deadOf (r.regs ++ [d]) (withSegment r d es).segments = deadOf r.regs r.segments := by
    have h₁ : deadOf (r.regs ++ [d]) r.segments = deadOf r.regs r.segments :=
      filter_congr (fun e he => by rw [hold e he])
    have h₂ : deadOf (r.regs ++ [d]) [⟨es, [r.regs.length]⟩] = [] := by
      simpa [deadOf] using hnew
    rw [withSegment, deadOf_append, h₁, h₂, append_nil]
  refine ⟨by simp [withSegment], alive_withSegment h hd.1 _, nodup_withSegment h _, ?_, ?_, ?_,
    ?_, ?_, ?_⟩
  · intro id es' hmem
    rcases mem_append.mp hmem with hmem | hmem
    · obtain ⟨d', hd', hrest⟩ := h.data id es' hmem
      obtain ⟨hlt, -⟩ := List.getElem?_eq_some_iff.mp hd'
      exact ⟨d', by simpa [withSegment, List.getElem?_append_left hlt] using hd', hrest⟩
    · simp only [mem_singleton, Prod.mk.injEq] at hmem
      obtain ⟨rfl, rfl⟩ := hmem
      exact ⟨d, by simp [withSegment], hd, rfl⟩
  · intro seg hseg
    rcases mem_append.mp hseg with hseg | hseg
    · exact h.ok seg hseg
    · obtain rfl := mem_singleton.mp hseg
      exact ⟨hsorted, fun e he => by simp [hown e he]⟩
  · intro e he
    simp only [withSegment, flatMap_append, length_append, length_singleton] at he ⊢
    rcases mem_append.mp he with he | he
    · have := h.owners e he
      omega
    · have := hown e (by simpa using he)
      omega
  · rw [hentries]
    exact hlive ▸ h.indexed.append hperm
  · rw [hentries]
    simp [withSegment, h.live, hperm.length_eq]
  · exact h.dead.trans (by rw [← hdead]; rfl)

theorem inv_publish {r : Registry} {s : Spec} {d : RegistrationData} (h : Inv r s) (hd : d.Ranged)
    (hs : Spec.NonOverlapping
      ⟨r.regs.length + 1, s.live ++ [(r.regs.length, entriesOf r.regs.length d)]⟩) :
    ∃ r', publish r d = .ok r' ∧
      Inv r' ⟨r.regs.length + 1, s.live ++ [(r.regs.length, entriesOf r.regs.length d)]⟩ := by
  have hperm := sortEntries_perm (entriesOf r.regs.length d)
  have hentries : Spec.entries
      ⟨r.regs.length + 1, s.live ++ [(r.regs.length, entriesOf r.regs.length d)]⟩ =
      s.entries ++ entriesOf r.regs.length d := by simp [Spec.entries]
  have hs' := hs
  rw [Spec.NonOverlapping, hentries] at hs'
  obtain ⟨hp, hdis⟩ := hs'
  obtain ⟨-, hdisNew, hdisOld⟩ := pairwise_append.mp hdis
  have hsorted := sortEntries_sortedDisjoint (fun e he => hp e (mem_append_right _ he)) hdisNew
  have hnone : registeredOverlap r (sortEntries (entriesOf r.regs.length d)) = none := by
    refine registeredOverlap_eq_none h.ok ?_
    intro e he o ho
    exact (hdisOld o (h.indexed.mem_iff.mp ho) e (hperm.mem_iff.mp he)).symm
  refine ⟨publishSegments (withSegment r d (sortEntries (entriesOf r.regs.length d)))
    (withSegment r d (sortEntries (entriesOf r.regs.length d))).segments, ?_, ?_⟩
  · simp only [publish, adjacentOverlap_eq_none hsorted.2, hnone]
    rfl
  · exact Inv.publishSegments (inv_withSegment h hd hperm hsorted) hs

theorem inv_register (h : Inv r s) (hd : d.Ranged) (hs : (s.register d).NonOverlapping) :
    ∃ r', register r d = .ok r' ∧ Inv r' (s.register d) := by
  unfold register
  unfold Spec.register at hs ⊢
  split
  · exact ⟨r, rfl, h⟩
  · rename_i hne
    rw [if_neg hne, h.next] at hs
    rw [h.next]
    exact inv_publish h hd hs

/-! ## Dropping a token -/

theorem aliveIn_kill {regs : List RegistrationData} (hd : regs[token]? = some d) (id : Nat) :
    aliveIn (regs.set token d.kill) id = (aliveIn regs id && decide (id ≠ token)) := by
  obtain ⟨hlt, -⟩ := List.getElem?_eq_some_iff.mp hd
  by_cases heq : id = token
  · subst heq
    simp [aliveIn, hlt, RegistrationData.kill]
  · simp [aliveIn, getElem?_set_ne (Ne.symm heq), heq]

theorem filter_owner_flatMap {live : List (Nat × List Entry)}
    (hown : ∀ id es, (id, es) ∈ live → ∀ e ∈ es, e.owner = id) :
    (live.flatMap (·.2)).filter (fun e => decide (e.owner ≠ token)) =
      (live.filter (fun p => p.1 ≠ token)).flatMap (·.2) := by
  induction live with
  | nil => rfl
  | cons p live ih =>
    have hp : ∀ e ∈ p.2, e.owner = p.1 := fun e he => hown p.1 p.2 (by simp) e he
    have hrest := ih (fun id es h => hown id es (by simp [h]))
    rw [flatMap_cons, filter_append, hrest]
    by_cases heq : p.1 = token
    · have hnil : p.2.filter (fun e => decide (e.owner ≠ token)) = [] :=
        filter_eq_nil_iff.mpr (fun e he => by simp [hp e he, heq])
      rw [hnil]
      simp [heq]
    · have hall : p.2.filter (fun e => decide (e.owner ≠ token)) = p.2 :=
        filter_eq_self.mpr (fun e he => by simp [hp e he, heq])
      rw [hall]
      simp [heq]

theorem length_entries_unregister {live : List (Nat × List Entry)}
    (hids : (live.map (·.1)).Nodup) (hmem : (token, es) ∈ live) :
    (live.flatMap (·.2)).length =
      es.length + ((live.filter (fun p => p.1 ≠ token)).flatMap (·.2)).length := by
  induction live with
  | nil => cases hmem
  | cons p live ih =>
    obtain ⟨hnot, hids'⟩ := nodup_cons.mp hids
    have hne : ∀ q ∈ live, q.1 ≠ p.1 := fun q hq h => hnot (mem_map.mpr ⟨q, hq, h⟩)
    rcases mem_cons.mp hmem with rfl | hmem
    · have hall : live.filter (fun p => decide (p.1 ≠ token)) = live :=
        filter_eq_self.mpr (fun q hq => by simpa using hne q hq)
      rw [filter_cons_of_neg (by simp), hall, flatMap_cons, length_append]
    · have hne : p.1 ≠ token := (hne _ hmem).symm
      have := ih hids' hmem
      simp only [flatMap_cons, length_append]
      rw [filter_cons_of_pos (by simpa using hne), flatMap_cons, length_append]
      omega

/-- The registry with the flag of one registration cleared, before any compaction. -/
def withKilled (r : Registry) (token : Nat) (d : RegistrationData) : Registry :=
  { r with
    regs := r.regs.set token d.kill
    liveEntries := r.liveEntries - d.entryCount
    deadEntries := r.deadEntries + d.entryCount }

theorem inv_withKilled (h : Inv r s) (hmem : (token, es) ∈ s.live) (hd : r.regs[token]? = some d) :
    Inv (withKilled r token d) (s.step (.unregister token)) := by
  have hcount : d.entryCount = es.length := by
    obtain ⟨d', hd', hr, rfl⟩ := h.data token es hmem
    obtain rfl : d = d' := Option.some.inj (hd.symm.trans hd')
    exact (length_entriesOf hr token).symm
  have hown : ∀ id es, (id, es) ∈ s.live → ∀ e ∈ es, e.owner = id := by
    intro id es' hm e he
    obtain ⟨d', -, -, rfl⟩ := h.data id es' hm
    exact owner_of_mem_entriesOf he
  have hlen := length_entries_unregister h.ids hmem
  have halive : ∀ e, isAlive (r.regs.set token d.kill) e =
      (isAlive r.regs e && decide (e.owner ≠ token)) := fun e => aliveIn_kill hd e.owner
  have hlive : liveOf (r.regs.set token d.kill) r.segments =
      (liveOf r.regs r.segments).filter (fun e => decide (e.owner ≠ token)) := by
    unfold liveOf
    rw [filter_filter]
    exact filter_congr (fun e _ => by rw [halive, Bool.and_comm])
  have hperm : (liveOf (r.regs.set token d.kill) r.segments).Perm
      (s.step (.unregister token)).entries := by
    rw [hlive, show (s.step (.unregister token)).entries = _ from
      (filter_owner_flatMap hown).symm]
    exact h.indexed.filter _
  have hlen' : s.entries.length = es.length + (s.step (.unregister token)).entries.length := hlen
  refine ⟨by simpa [withKilled, Spec.step] using h.next, ?_, ?_, ?_, h.ok, ?_, hperm, ?_, ?_⟩
  · intro id
    simp only [withKilled, aliveIn_kill hd, Bool.and_eq_true, h.alive id, decide_eq_true_eq,
      Spec.step, mem_filter]
    exact ⟨fun ⟨⟨es', hm⟩, hne⟩ => ⟨es', hm, hne⟩, fun ⟨es', hm, hne⟩ => ⟨⟨es', hm⟩, hne⟩⟩
  · exact h.ids.sublist (filter_sublist.map _)
  · intro id es' hm
    obtain ⟨hm', hne⟩ := mem_filter.mp hm
    obtain ⟨d', hd', hrest⟩ := h.data id es' hm'
    have hne' : id ≠ token := by simpa using hne
    exact ⟨d', by simpa [withKilled, getElem?_set_ne (Ne.symm hne')] using hd', hrest⟩
  · simpa [withKilled] using h.owners
  · have := h.live
    simp only [withKilled]
    omega
  · -- The indexed entries are the live and the dead ones, before and after.
    have htotal : ∀ regs, (liveOf regs r.segments).length + (deadOf regs r.segments).length =
        (r.segments.flatMap (·.entries)).length := by
      intro regs
      unfold liveOf deadOf
      exact (length_eq_length_filter_add _).symm
    have h₁ := htotal r.regs
    have h₂ := htotal (r.regs.set token d.kill)
    have h₃ := h.indexed.length_eq
    have h₄ := hperm.length_eq
    have h₅ := h.dead
    simp only [withKilled]
    omega

theorem inv_dropToken (h : Inv r s) (token : Nat)
    (hs : (s.step (.unregister token)).NonOverlapping) :
    Inv (dropToken r token) (s.step (.unregister token)) := by
  by_cases hlive : ∃ es, (token, es) ∈ s.live
  · obtain ⟨es, hmem⟩ := hlive
    obtain ⟨d, hd, hr, -⟩ := h.data token es hmem
    have hkill := inv_withKilled h hmem hd
    have hdrop : dropToken r token = if compactionDue (withKilled r token d) then
          publishSegments (withKilled r token d) (withKilled r token d).segments
        else withKilled r token d := by
      simp only [dropToken, hd, hr.1, if_true]
      rfl
    rw [hdrop]
    split
    · exact Inv.publishSegments hkill hs
    · exact hkill
  · -- No live registration has this token: nothing is dropped.
    have hdead : ¬ aliveIn r.regs token = true := fun ha => hlive ((h.alive token).mp ha)
    have hdrop : dropToken r token = r := by
      unfold dropToken
      cases hd : r.regs[token]? with
      | none => rfl
      | some d =>
        have : d.alive = false := by simpa [aliveIn, hd] using hdead
        simp [this]
    have hspec : s.step (.unregister token) = s := by
      have hall : s.live.filter (fun p => decide (p.1 ≠ token)) = s.live := by
        refine filter_eq_self.mpr (fun p hp => ?_)
        have : p.1 ≠ token := fun h' => hlive ⟨p.2, h' ▸ hp⟩
        simpa using this
      simp only [Spec.step, hall]
    rw [hdrop, hspec]
    exact h

/-! ## Runs -/

theorem inv_step (h : Inv r s) (op : Op) (hs : (s.step op).NonOverlapping) :
    ∃ r', step r op = .ok r' ∧ Inv r' (s.step op) := by
  cases op with
  | registerCodeStackMaps maps => exact inv_register h (dataOfMaps_ranged maps) hs
  | registerCodeStackMap map => exact inv_register h (dataOfMap_ranged map) hs
  | registerEncodedCodeStackMaps ranges => exact inv_register h (dataOfEncoded_ranged ranges) hs
  | unregister token => exact ⟨_, rfl, inv_dropToken h token hs⟩

theorem inv_run : ∀ {r : Registry} {s : Spec}, Inv r s →
    NonOverlappingRun s ops → ∃ r', run r ops = .ok r' ∧ Inv r' (s.run ops) := by
  induction ops with
  | nil =>
    intro r s h _
    exact ⟨r, rfl, h⟩
  | cons op ops ih =>
    intro r s h hs
    obtain ⟨r₁, hstep, h₁⟩ := inv_step h op hs.2.head
    obtain ⟨r', hrun, h'⟩ := ih h₁ hs.2
    exact ⟨r', by simp only [run, hstep, hrun], h'⟩

theorem NonOverlappingRun.last : ∀ {s : Spec}, NonOverlappingRun s ops →
    (s.run ops).NonOverlapping := by
  induction ops with
  | nil => exact fun h => h
  | cons op ops ih => exact fun h => ih h.2

/-- A lookup finds the live entry that contains the address. -/
theorem findEntry_eq_some_iff (h : Inv r s) (hs : s.NonOverlapping) (ip : Nat) (e : Entry) :
    findEntry r ip = some e ↔ e ∈ s.entries ∧ e.Covers ip := by
  have hfind : ∀ seg ∈ r.segments, ∀ x, findInSegment r.regs ip seg = some x →
      x ∈ s.entries ∧ x.Covers ip := by
    intro seg hseg x hx
    obtain ⟨hmem, hc, ha⟩ := (findInSegment_eq_some_iff (h.ok seg hseg)).mp hx
    exact ⟨h.indexed.mem_iff.mp (mem_filter.mpr ⟨mem_flatMap.mpr ⟨seg, hseg, hmem⟩, ha⟩), hc⟩
  have hsound : ∀ x, findEntry r ip = some x → x ∈ s.entries ∧ x.Covers ip := by
    intro x hx
    obtain ⟨seg, hseg, hx⟩ := exists_of_findSome?_eq_some hx
    exact hfind seg (mem_reverse.mp hseg) x hx
  refine ⟨hsound e, ?_⟩
  rintro ⟨hmem, hc⟩
  obtain ⟨hidx, ha⟩ := mem_filter.mp (h.indexed.mem_iff.mpr hmem)
  obtain ⟨seg, hseg, hmem'⟩ := mem_flatMap.mp hidx
  have hin := (findInSegment_eq_some_iff (h.ok seg hseg)).mpr ⟨hmem', hc, ha⟩
  cases hfe : findEntry r ip with
  | none =>
    rw [findEntry, findSome?_eq_none_iff] at hfe
    rw [hfe seg (mem_reverse.mpr hseg)] at hin
    cases hin
  | some x =>
    obtain ⟨hx, hcx⟩ := hsound x hfe
    rw [eq_of_covers hs.2 hx hmem hcx hc]

/-- A run whose live ranges do not overlap never aborts. In the state it reaches every
segment is sorted and disjoint, the counters are exact, and a lookup finds an entry if and
only if the entry belongs to a live registration and contains the address. -/
theorem run_index_exact (ops : List Op) (h : NonOverlappingRun .empty ops) :
    ∃ r, run .empty ops = .ok r ∧
      (∀ seg ∈ r.segments, SortedDisjoint seg.entries) ∧
      r.liveEntries = (Spec.run .empty ops).entries.length ∧
      r.deadEntries = (deadOf r.regs r.segments).length ∧
      (liveOf r.regs r.segments).Perm (Spec.run .empty ops).entries ∧
      (∀ ip e, findEntry r ip = some e ↔
        e ∈ (Spec.run .empty ops).entries ∧ e.Covers ip) ∧
      (∀ ip, findCodeStackMap r ip = none ↔
        ∀ e ∈ (Spec.run .empty ops).entries, ¬ e.Covers ip) := by
  obtain ⟨r, hrun, hinv⟩ := inv_run inv_empty h
  have hfind := findEntry_eq_some_iff hinv h.last
  refine ⟨r, hrun, fun seg hseg => (hinv.ok seg hseg).sorted, hinv.live, hinv.dead, hinv.indexed,
    hfind, ?_⟩
  intro ip
  rw [findCodeStackMap, Option.map_eq_none_iff, Option.eq_none_iff_forall_ne_some]
  constructor
  · intro hnone e he hc
    exact hnone e ((hfind ip e).mpr ⟨he, hc⟩)
  · intro hnone e hsome
    obtain ⟨he, hc⟩ := (hfind ip e).mp hsome
    exact hnone e he hc

/-- A function of 16 bytes with one record. -/
def sampleFunction (address : UInt64) : FunctionStackMap := ⟨[], address, 0, 16, [⟨4, 0, [], 0⟩], false⟩

/-- Two functions side by side; the first is dropped and its address registered again. -/
def sampleOps : List Op :=
  [.registerCodeStackMap (sampleFunction 4096), .registerCodeStackMap (sampleFunction 4112),
    .unregister 0, .registerCodeStackMap (sampleFunction 4096)]

theorem run_index_exact_sampleOps :
    NonOverlappingRun .empty sampleOps ∧
      ∃ r e, run .empty sampleOps = .ok r ∧ r.liveEntries = 2 ∧
        findEntry r 4100 = some e ∧ e.owner = 2 ∧ findCodeStackMap r 4128 = none := by
  have hover : NonOverlappingRun .empty sampleOps := by decide +kernel
  obtain ⟨r, hrun, -, hlive, -, -, hfind, hnone⟩ := run_index_exact sampleOps hover
  refine ⟨hover, r, ⟨4096, 4112, .map (sampleFunction 4096).sortRecords, 2⟩, hrun, ?_, ?_, rfl, ?_⟩
  · rw [hlive]
    decide +kernel
  · rw [hfind]
    decide +kernel
  · rw [hnone]
    decide +kernel

end Brass.Gc.CodeStackMaps
