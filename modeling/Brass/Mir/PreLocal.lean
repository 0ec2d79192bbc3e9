import Brass.Mir.PreDataflow
import Brass.Util.Accumulate
import Mathlib.Data.List.Dedup

/-!
# The facts of a block

A full scan of a block meets at each instruction an evaluation first, then the definition of an
operand, then a writer. The replay of the sorted events of an active block is that scan; a block
that is not active has writers only, none of which stores what the expression loads.
-/

namespace Brass.Mir.Pre

open Brass.Util List Event

variable {e : Nat × EventKind} {f : Function} {α : Type} {b : Nat}

namespace Query

variable {q : Query}

def kills (q : Query) (p : Position) : Bool :=
  q.operands.any fun v => q.fn.definingPosition v = some p

/-- What a full scan meets at an instruction. -/
def eventsAt (q : Query) (b : Nat) (i : Instruction × Nat) : List (Nat × EventKind) :=
  (if i.1.expr = some q.expr then [(i.2, .evaluation)] else []) ++
    ((if q.kills (b, i.2) then [(i.2, .kill)] else []) ++
      if q.trackMemory && i.1.mayWrite then [(i.2, .writer)] else [])

def events (q : Query) (b : Nat) : List (Nat × EventKind) :=
  (q.fn.insts b).zipIdx.flatMap (q.eventsAt b)

def scanBlock (q : Query) (b : Nat) : Replay := (q.events b).foldl (q.apply b) .begin

def facts (q : Query) (b : Nat) : BlockLocalInfo := (q.scanBlock b).info

end Query

def eventKey (e : Nat × EventKind) : Nat := 3 * e.1 + e.2.rank

theorem EventKind.rank_lt (k : EventKind) : k.rank < 3 := by cases k <;> decide

theorem EventKind.rank_injective {k l : EventKind} (h : k.rank = l.rank) : k = l := by
  cases k <;> cases l <;> first | rfl | exact absurd h (by decide)

theorem eventKey_injective {f : Nat × EventKind} (h : eventKey e = eventKey f) : e = f := by
  have he := e.2.rank_lt
  have hf := f.2.rank_lt
  unfold eventKey at h
  exact Prod.ext (by omega) (EventKind.rank_injective (by omega))

namespace Event

def key (e : Event) : Nat × EventKind := (e.position, e.kind)

theorem le_iff {a b : Event} :
    le a b = true ↔ a.block < b.block ∨ a.block = b.block ∧ eventKey a.key ≤ eventKey b.key := by
  have ha := a.kind.rank_lt
  have hb := b.kind.rank_lt
  simp only [le, eventKey, key]
  split
  · rw [decide_eq_true_eq]
    omega
  · split
    · rw [decide_eq_true_eq]
      omega
    · rw [decide_eq_true_eq]
      omega

theorem le_trans (a b c : Event) (hab : le a b = true) (hbc : le b c = true) : le a c = true := by
  rw [le_iff] at hab hbc ⊢
  omega

theorem le_total (a b : Event) : (le a b || le b a) = true := by
  rw [Bool.or_eq_true, le_iff, le_iff]
  omega

end Event

namespace Query

variable {q : Query}
variable {p : Position}

theorem mem_sparse {e : Event} : e ∈ q.sparse ↔
    (e.block, e.position) ∈ q.fn.evaluations q.expr ∧ e.kind = .evaluation ∨
      q.kills (e.block, e.position) = true ∧ e.kind = .kill := by
  obtain ⟨b, i, k⟩ := e
  unfold sparse kills
  rw [mem_mergeSort, mem_append, mem_map, mem_map]
  simp only [Event.mk.injEq, mem_filterMap, any_eq_true, decide_eq_true_eq]
  constructor
  · rintro (⟨p, hp, rfl, rfl, rfl⟩ | ⟨p, ⟨v, hv, hp⟩, rfl, rfl, rfl⟩)
    · exact .inl ⟨hp, rfl⟩
    · exact .inr ⟨⟨v, hv, hp⟩, rfl⟩
  · rintro (⟨hp, rfl⟩ | ⟨⟨v, hv, hp⟩, rfl⟩)
    · exact .inl ⟨_, hp, rfl, rfl, rfl⟩
    · exact .inr ⟨_, ⟨v, hv, hp⟩, rfl, rfl, rfl⟩

theorem inst?_lt {i : Instruction} (h : f.inst? p = some i) : p.1 < f.blocks.length := by
  by_contra hge
  unfold Function.inst? Function.insts Function.block at h
  rw [getD_eq_getElem?_getD, getElem?_eq_none (Nat.le_of_not_lt hge)] at h
  cases h

theorem mem_evaluations {expr : PreExpression} :
    p ∈ f.evaluations expr ↔ ∃ i, f.inst? p = some i ∧ i.expr = some expr := by
  unfold Function.evaluations
  simp only [mem_flatMap, mem_range, mem_filterMap]
  constructor
  · rintro ⟨b, -, ⟨i, n⟩, hi, hp⟩
    split at hp
    · next hexpr =>
      obtain rfl := Option.some.inj hp
      exact ⟨i, mk_mem_zipIdx_iff_getElem?.1 hi, hexpr⟩
    · cases hp
  · rintro ⟨i, hi, hexpr⟩
    exact ⟨p.1, inst?_lt hi, (i, p.2), mk_mem_zipIdx_iff_getElem?.2 hi, if_pos hexpr⟩

theorem mem_memoryWriters {w : Nat} :
    w ∈ f.memoryWriters b ↔ ∃ i, f.inst? (b, w) = some i ∧ i.mayWrite = true := by
  unfold Function.memoryWriters
  simp only [mem_filterMap]
  constructor
  · rintro ⟨⟨i, n⟩, hi, hp⟩
    split at hp
    · next hw =>
      obtain rfl := Option.some.inj hp
      exact ⟨i, mk_mem_zipIdx_iff_getElem?.1 hi, hw⟩
    · cases hp
  · rintro ⟨i, hi, hw⟩
    exact ⟨(i, w), mk_mem_zipIdx_iff_getElem?.2 hi, if_pos hw⟩

theorem kills_lt (h : q.kills p = true) : ∃ i, q.fn.inst? p = some i := by
  obtain ⟨v, -, hv⟩ := any_eq_true.1 h
  obtain ⟨b, hb, hlt⟩ := q.fn.definingPosition_lt v p (of_decide_eq_true hv)
  refine ⟨b.insts[p.2], ?_⟩
  unfold Function.inst? Function.insts Function.block
  rw [getD_eq_getElem?_getD, hb]
  exact getElem?_eq_getElem hlt

theorem mem_writers {w : Nat} : w ∈ q.writers b ↔
    q.trackMemory = true ∧ ∃ i, q.fn.inst? (b, w) = some i ∧ i.mayWrite = true := by
  unfold writers
  split
  · next h => rw [mem_memoryWriters, and_iff_right h]
  · next h => simp only [h, not_mem_nil, Bool.false_eq_true, false_and]

theorem mem_events : e ∈ q.events b ↔
    ⟨b, e.1, e.2⟩ ∈ q.sparse ∨ e.1 ∈ q.writers b ∧ e.2 = .writer := by
  obtain ⟨n, k⟩ := e
  rw [mem_sparse, mem_evaluations, mem_writers]
  unfold events eventsAt
  simp only [mem_flatMap, mem_append, Prod.exists, mk_mem_zipIdx_iff_getElem?, mem_ite_nil_right,
    mem_singleton, Prod.mk.injEq, Bool.and_eq_true]
  constructor
  · rintro ⟨i, m, hi, ⟨hexpr, rfl, rfl⟩ | ⟨hkill, rfl, rfl⟩ | ⟨⟨ht, hw⟩, rfl, rfl⟩⟩
    · exact .inl (.inl ⟨⟨i, hi, hexpr⟩, rfl⟩)
    · exact .inl (.inr ⟨hkill, rfl⟩)
    · exact .inr ⟨⟨ht, i, hi, hw⟩, rfl⟩
  · rintro ((⟨⟨i, hi, hexpr⟩, rfl⟩ | ⟨hkill, rfl⟩) | ⟨⟨ht, i, hi, hw⟩, rfl⟩)
    · exact ⟨i, n, hi, .inl ⟨hexpr, rfl, rfl⟩⟩
    · obtain ⟨i, hi⟩ := kills_lt hkill
      exact ⟨i, n, hi, .inr (.inl ⟨hkill, rfl, rfl⟩)⟩
    · exact ⟨i, n, hi, .inr (.inr ⟨⟨ht, hw⟩, rfl, rfl⟩)⟩

end Query

/-! ### The order of events -/

theorem pairwise_zipIdx {l : List α} : l.zipIdx.Pairwise fun x y => x.2 < y.2 := by
  have h : (l.zipIdx.map (·.2)).Pairwise (· < ·) := by
    rw [zipIdx_map_snd]
    exact pairwise_lt_range'
  exact pairwise_map.1 h

namespace Query

variable {q : Query}
variable {es : List Event}

theorem mem_eventsAt_fst {i : Instruction × Nat} (h : e ∈ q.eventsAt b i) : e.1 = i.2 := by
  unfold eventsAt at h
  simp only [mem_append, mem_ite_nil_right, mem_singleton] at h
  rcases h with ⟨-, rfl⟩ | ⟨-, rfl⟩ | ⟨-, rfl⟩ <;> rfl

theorem pairwise_events : (q.events b).Pairwise fun x y => eventKey x < eventKey y := by
  refine pairwise_flatMap.2 ⟨fun i _ => ?_, pairwise_zipIdx.imp fun hlt x hx y hy => ?_⟩
  · unfold eventsAt
    split <;> split <;> split <;> simp [eventKey, EventKind.rank]
  · have hx' := x.2.rank_lt
    have hxi := mem_eventsAt_fst hx
    have hyi := mem_eventsAt_fst hy
    unfold eventKey
    omega

theorem pairwise_memoryWriters : (f.memoryWriters b).Pairwise (· < ·) := by
  refine pairwise_filterMap.2 (pairwise_zipIdx.imp fun {x y} hlt n hn m hm => ?_)
  split at hn
  · split at hm
    · rw [← Option.some.inj hn, ← Option.some.inj hm]
      exact hlt
    · cases hm
  · cases hn

theorem pairwise_writers : (q.writers b).Pairwise (· < ·) := by
  unfold writers
  split
  · exact pairwise_memoryWriters
  · exact List.Pairwise.nil

theorem nodup_evaluations {expr : PreExpression} : (f.evaluations expr).Nodup := by
  refine nodup_flatMap.2 ⟨fun b _ => ?_, nodup_range.imp fun hne => ?_⟩
  · refine pairwise_filterMap.2 (pairwise_zipIdx.imp fun {x y} hlt p hp r hr heq => ?_)
    subst heq
    split at hp
    · split at hr
      · have hx := congrArg (·.2) (Option.some.inj hp)
        have hy := congrArg (·.2) (Option.some.inj hr)
        exact absurd (hx.trans hy.symm) (Nat.ne_of_lt hlt)
      · cases hr
    · cases hp
  · intro p hp hr
    simp only [mem_filterMap] at hp hr
    obtain ⟨i, -, hi⟩ := hp
    obtain ⟨j, -, hj⟩ := hr
    split at hi
    · split at hj
      · obtain rfl := Option.some.inj hi
        exact hne (congrArg (·.1) (Option.some.inj hj)).symm
      · cases hj
    · cases hi

theorem pairwise_sparse : q.sparse.Pairwise fun x y => le x y = true :=
  pairwise_mergeSort le_trans le_total _

/-- An event stands twice among the sparse ones only if it defines an operand. -/
theorem pairwise_sparse_kill : q.sparse.Pairwise fun x y => x = y → x.kind = .kill := by
  refine (mergeSort_perm _ _).symm.pairwise ?_ ?_
  · refine pairwise_append.2 ⟨?_, ?_, ?_⟩
    · refine pairwise_map.2 (nodup_evaluations.imp fun {p r} hne heq => absurd ?_ hne)
      exact Prod.ext (congrArg block heq) (congrArg position heq)
    · exact pairwise_map.2 (pairwise_of_forall fun _ _ _ => rfl)
    · intro x hx y hy heq
      obtain ⟨p, -, rfl⟩ := mem_map.1 hx
      obtain ⟨r, -, rfl⟩ := mem_map.1 hy
      cases congrArg kind heq
  · rintro x y hxy rfl
    exact hxy rfl

theorem apply_idem (he : e.2 ≠ .evaluation) (r : Replay) :
    q.apply b (q.apply b r e) e = q.apply b r e := by
  obtain ⟨n, k⟩ := e
  cases k with
  | evaluation => exact absurd rfl he
  | kill => rfl
  | writer =>
    simp only [apply]
    split
    · cases q.fn.inst? (b, n) with
      | none => rfl
      | some i =>
        dsimp only
        split <;> rfl
    · rfl

def merged (b : Nat) (es : List Event) (ws : List Nat) : List (Nat × EventKind) :=
  List.merge ((es.takeWhile (·.block = b)).map Event.key) (ws.map (·, .writer))
    fun x y => eventKey x ≤ eventKey y

theorem replay_eq {ws : List Nat} {r : Replay} : q.replay b es ws r =
      ((merged b es ws).foldl (q.apply b) r, es.dropWhile (·.block = b)) := by
  have hkey : ∀ (p : Nat) (k : EventKind) (w : Nat),
      eventKey (p, k) ≤ eventKey (w, .writer) ↔ p ≤ w := by
    intro p k w
    have hk := k.rank_lt
    have hw : EventKind.writer.rank = 2 := rfl
    unfold eventKey
    dsimp only
    omega
  fun_induction q.replay b es ws r with
  | case1 r => simp [merged]
  | case2 w ws r ih =>
    rw [ih]
    simp [merged]
  | case3 r e es heq ih =>
    rw [ih]
    simp [merged, heq, key]
  | case4 r e es hne => simp [merged, hne]
  | case5 e es w ws r h ih =>
    rw [ih]
    simp [merged, h.1, hkey, h.2, key]
  | case6 e es w ws r h ih =>
    rw [ih]
    by_cases heq : e.block = b
    · have hgt : ¬ e.position ≤ w := fun hle => h ⟨heq, hle⟩
      simp [merged, heq, hkey, hgt, key]
    · simp [merged, heq]

/-! ### The replay of an active block is its scan -/

theorem takeWhile_eq_filter (hes : es.Pairwise fun x y => x.block ≤ y.block)
    (hb : ∀ e ∈ es, b ≤ e.block) :
    es.takeWhile (·.block = b) = es.filter (·.block = b) ∧
      es.dropWhile (·.block = b) = es.filter (·.block ≠ b) := by
  induction es with
  | nil => exact ⟨rfl, rfl⟩
  | cons e es ih =>
    obtain ⟨he, hes⟩ := pairwise_cons.1 hes
    obtain ⟨ih₁, ih₂⟩ := ih hes fun x hx => hb x (mem_cons_of_mem _ hx)
    by_cases heq : e.block = b
    · simp only [takeWhile_cons, dropWhile_cons, filter_cons, heq, decide_true,
        if_true, ih₁, ih₂, ne_eq, not_true_eq_false, decide_false, Bool.false_eq_true, if_false,
        and_self]
    · have hlt : ∀ x ∈ e :: es, ¬ x.block = b := by
        intro x hx
        have hbe := hb e mem_cons_self
        rcases mem_cons.1 hx with rfl | hx
        · exact heq
        · have hex := he x hx
          omega
      constructor
      · rw [takeWhile_cons_of_neg (by simpa using heq),
          filter_eq_nil_iff.2 fun x hx => by simpa using hlt x hx]
      · rw [dropWhile_cons_of_neg (by simpa using heq),
          filter_eq_self.2 fun x hx => by simpa using hlt x hx]

theorem sparse_blocks_le : q.sparse.Pairwise fun x y => x.block ≤ y.block := by
  refine pairwise_sparse.imp fun hle => ?_
  rw [le_iff] at hle
  omega

theorem pairwise_filter_key :
    ((q.sparse.filter (·.block = b)).map key).Pairwise fun x y => eventKey x ≤ eventKey y := by
  refine pairwise_map.2 ((pairwise_sparse.filter _).imp_of_mem fun {x y} hx hy hle => ?_)
  have hxb : x.block = b := by simpa using (mem_filter.1 hx).2
  have hyb : y.block = b := by simpa using (mem_filter.1 hy).2
  rw [le_iff] at hle
  omega

/-- Merged with the writers, the sparse events of a block are what a scan of it meets. -/
theorem foldl_merged (hes : es.takeWhile (·.block = b) = q.sparse.filter (·.block = b)) :
    (merged b es (q.writers b)).foldl (q.apply b) .begin = q.scanBlock b := by
  refine foldl_eq_of_sorted eventKey ?_ pairwise_events (fun e => ?_) _
  · have hle : (merged b es (q.writers b)).Pairwise fun x y => eventKey x ≤ eventKey y := by
      have h := @pairwise_merge _ (fun x y : Nat × EventKind => decide (eventKey x ≤ eventKey y))
        (fun x y z hxy hyz => by simp only [decide_eq_true_eq] at hxy hyz ⊢; omega)
        (fun x y => by simp only [Bool.or_eq_true, decide_eq_true_eq]; omega)
        ((es.takeWhile (·.block = b)).map key) ((q.writers b).map (·, EventKind.writer))
      refine (h ?_ ?_).imp fun hxy => by simpa using hxy
      · rw [hes]
        exact pairwise_filter_key.imp fun hxy => by simpa using hxy
      · refine pairwise_map.2 (pairwise_writers.imp fun hlt => decide_eq_true ?_)
        unfold eventKey
        dsimp only
        omega
    have hdup : (merged b es (q.writers b)).Pairwise fun x y => x = y → x.2 ≠ .evaluation := by
      refine (merge_perm_append _).symm.pairwise ?_ ?_
      · refine pairwise_append.2 ⟨?_, ?_, ?_⟩
        · rw [hes]
          refine pairwise_map.2 ((pairwise_sparse_kill.filter _).imp_of_mem
            fun {x y} hx hy hkill heq => ?_)
          have hxb : x.block = b := by simpa using (mem_filter.1 hx).2
          have hyb : y.block = b := by simpa using (mem_filter.1 hy).2
          obtain ⟨b', n, k⟩ := x
          obtain ⟨c', m, l⟩ := y
          obtain ⟨rfl, rfl⟩ := Prod.mk.inj heq
          have hk := hkill (by rw [show b' = c' from hxb.trans hyb.symm])
          rw [show k = .kill from hk]
          exact nofun
        · exact pairwise_map.2 (pairwise_of_forall fun _ _ _ => nofun)
        · intro x hx y hy heq
          obtain ⟨w, -, rfl⟩ := mem_map.1 hy
          rw [heq]
          exact nofun
      · rintro x y hxy rfl
        exact hxy rfl
    refine (hle.and hdup).imp fun {x y} ⟨hxy, hne⟩ => ?_
    rcases Nat.lt_or_eq_of_le hxy with hlt | heq
    · exact .inl hlt
    · have heq := eventKey_injective heq
      exact .inr ⟨heq, apply_idem (hne heq)⟩
  · unfold merged
    rw [mem_merge, mem_events, hes, mem_map, mem_map]
    obtain ⟨n, k⟩ := e
    simp only [mem_filter, decide_eq_true_eq, key, Prod.mk.injEq]
    constructor
    · rintro (⟨⟨b', m, l⟩, ⟨he, rfl⟩, rfl, rfl⟩ | ⟨w, hw, rfl, rfl⟩)
      · exact .inl he
      · exact .inr ⟨hw, rfl⟩
    · rintro (he | ⟨hw, rfl⟩)
      · exact .inl ⟨_, ⟨he, rfl⟩, rfl, rfl⟩
      · exact .inr ⟨n, hw, rfl, rfl⟩

/-! ### The active blocks -/

theorem mem_active : b ∈ q.active ↔ (∃ e ∈ q.sparse, e.block = b) ∨
    q.trackMemory = true ∧ ∃ β, q.aa.base q.expr.op0 = some β ∧ b ∈ q.fn.storesByBase q.aa β := by
  unfold active
  dsimp only
  split
  · next ht =>
    rw [and_iff_right ht]
    split
    · next β hβ =>
      rw [mem_dedup, mem_mergeSort, mem_append, mem_dedup, mem_map, hβ]
      simp only [Option.some.injEq, exists_eq_left']
    · next hβ =>
      rw [mem_dedup, mem_map, hβ]
      simp only [reduceCtorEq, false_and, exists_false, or_false]
  · next ht =>
    rw [mem_dedup, mem_map]
    simp only [ht, Bool.false_eq_true, false_and, or_false]

theorem pairwise_lt_dedup {l : List Nat} (hl : l.Pairwise (· ≤ ·)) : l.dedup.Pairwise (· < ·) :=
  ((hl.sublist (dedup_sublist l)).and (nodup_dedup l)).imp
    fun ⟨hle, hne⟩ => Nat.lt_of_le_of_ne hle hne

theorem pairwise_active : q.active.Pairwise (· < ·) := by
  have hown : (q.sparse.map (·.block)).dedup.Pairwise (· < ·) :=
    pairwise_lt_dedup (pairwise_map.2 sparse_blocks_le)
  unfold active
  dsimp only
  split
  · split
    · refine pairwise_lt_dedup ?_
      have h := @pairwise_mergeSort _ (fun a b : Nat => decide (a ≤ b))
        (fun a b c hab hbc => by simp only [decide_eq_true_eq] at hab hbc ⊢; omega)
        (fun a b => by simp only [Bool.or_eq_true, decide_eq_true_eq]; omega)
      exact (h _).imp fun hab => of_decide_eq_true hab
    · exact hown
  · exact hown

theorem mem_sparse_lt {e : Event} (he : e ∈ q.sparse) : ∃ i, q.fn.inst? (e.block, e.position) = some i := by
  rcases mem_sparse.1 he with ⟨hev, -⟩ | ⟨hkill, -⟩
  · obtain ⟨i, hi, -⟩ := mem_evaluations.1 hev
    exact ⟨i, hi⟩
  · exact kills_lt hkill

theorem mem_active_lt (hb : b ∈ q.active) : b < q.fn.blocks.length := by
  rcases mem_active.1 hb with ⟨e, he, rfl⟩ | ⟨-, β, -, hb⟩
  · obtain ⟨i, hi⟩ := mem_sparse_lt he
    exact inst?_lt hi
  · exact mem_range.1 (mem_filter.1 hb).1

theorem foldl_endBlock {bs : List Nat} {s : State} (hbs : bs.Pairwise (· < ·)) :
    (bs.foldl (fun acc b =>
        let r := q.replay b acc.2 (q.writers b) .begin
        (acc.1.endBlock b r.1.info, r.2)) (s, q.sparse.filter (·.block ∈ bs))).1 =
      { s with
        localInfo := fun o => if o ∈ bs then q.facts o else s.localInfo o
        touched := s.touched ++ bs
        isTouched := fun o => if o ∈ bs then true else s.isTouched o } := by
  induction bs generalizing s with
  | nil => simp
  | cons b bs ih =>
    obtain ⟨hb, hbs⟩ := pairwise_cons.1 hbs
    have hnot : b ∉ bs := fun h => Nat.lt_irrefl b (hb b h)
    obtain ⟨htake, hdrop⟩ := takeWhile_eq_filter (b := b)
      (sparse_blocks_le.filter fun e => decide (e.block ∈ b :: bs)) fun e he => by
        have he : e.block ∈ b :: bs := of_decide_eq_true (mem_filter.1 he).2
        rcases mem_cons.1 he with heq | h
        · exact heq.ge
        · exact (hb _ h).le
    have hcur : (q.sparse.filter (·.block ∈ b :: bs)).takeWhile (·.block = b) =
        q.sparse.filter (·.block = b) := by
      rw [htake, filter_filter]
      refine filter_congr fun e _ => ?_
      by_cases heq : e.block = b <;> simp [heq]
    have hrest : (q.sparse.filter (·.block ∈ b :: bs)).dropWhile (·.block = b) =
        q.sparse.filter (·.block ∈ bs) := by
      rw [hdrop, filter_filter]
      refine filter_congr fun e _ => ?_
      by_cases heq : e.block = b
      · simp [heq, hnot]
      · simp [heq]
    rw [foldl_cons]
    dsimp only
    rw [replay_eq, foldl_merged hcur, hrest, ih hbs]
    have hlocal : ∀ o, (if o ∈ bs then q.facts o
        else Function.update s.localInfo b (q.scanBlock b).info o) =
          if o ∈ b :: bs then q.facts o else s.localInfo o := by
      intro o
      by_cases ho : o = b
      · subst ho
        simp [hnot, facts]
      · simp [ho]
    have htouched : ∀ o, (if o ∈ bs then true else Function.update s.isTouched b true o) =
        if o ∈ b :: bs then true else s.isTouched o := by
      intro o
      by_cases ho : o = b
      · simp [ho]
      · simp [ho]
    simp only [State.endBlock, hlocal, htouched, append_assoc, singleton_append]

theorem computeLocalInfo_eq {s : State} : q.computeLocalInfo s = { s with
      localInfo := fun o => if o ∈ q.active then q.facts o else s.localInfo o
      touched := s.touched ++ q.active
      isTouched := fun o => if o ∈ q.active then true else s.isTouched o } := by
  have hall : q.sparse.filter (·.block ∈ q.active) = q.sparse :=
    filter_eq_self.2 fun e he => decide_eq_true (mem_active.2 (.inl ⟨e, he, rfl⟩))
  have h := foldl_endBlock (s := s) (pairwise_active (q := q)) (q := q)
  rw [hall] at h
  exact h

/-! ### Blocks that are not active -/

theorem base_of_mustStore {i : Instruction} (h : q.mustStore i = true) :
    i.isStore = true ∧ ∃ β, q.aa.base i.operand0 = some β ∧ q.aa.base q.expr.op0 = some β := by
  unfold mustStore at h
  simp only [Bool.and_eq_true, decide_eq_true_eq] at h
  obtain ⟨⟨⟨hstore, -⟩, -⟩, halias⟩ := h
  refine ⟨hstore, ?_⟩
  unfold AliasAnalysis.aliasAccess at halias
  split at halias
  · next p₁ p₂ hp₁ hp₂ =>
    split at halias
    · next hbase =>
      obtain ⟨β, hβ⟩ := Option.isSome_iff_exists.1 hbase.1
      refine ⟨β, ?_, ?_⟩
      · rw [hp₁]
        exact hβ
      · rw [hp₂]
        exact hbase.2.symm.trans hβ
    · split at halias <;> cases halias
  · cases halias

theorem foldl_clobbers {l : List (Nat × EventKind)} {r : Replay}
    (hl : ∀ e ∈ l, e.2 = .writer ∧ ∃ i, q.fn.inst? (b, e.1) = some i ∧ q.mustStore i = false)
    (hloc : r.info.availLoc = false) (hval : r.info.availVal = none) :
    (l.foldl (q.apply b) r).info =
      { r.info with transp := r.info.transp && !l.any fun e => q.canClobber (b, e.1) } := by
  induction l generalizing r with
  | nil => simp
  | cons e l ih =>
    obtain ⟨hk, i, hi, hmust⟩ := hl e mem_cons_self
    obtain ⟨n, k⟩ := e
    obtain rfl : k = .writer := hk
    have hl' := fun e he => hl e (mem_cons_of_mem _ he)
    rw [foldl_cons]
    by_cases hc : q.canClobber (b, n) = true
    · have happly : q.apply b r (n, .writer) = { r with
            memoryClobbered := true
            info := { r.info with transp := false, availLoc := false, availVal := none } } := by
        simp [apply, hc, hi, hmust]
      rw [happly, ih hl' rfl rfl]
      simp [hc, hloc, hval]
    · have happly : q.apply b r (n, .writer) = r := by simp [apply, hc]
      rw [happly, ih hl' hloc hval]
      simp [hc]

def clobbered (q : Query) (b : Nat) : Bool :=
  q.trackMemory && (q.fn.memoryWriters b).any fun w => q.canClobber (b, w)

theorem facts_of_not_active (hb : b ∉ q.active) :
    q.facts b = { BlockLocalInfo.default with transp := !q.clobbered b } := by
  have hwriter : ∀ e ∈ q.events b, e.1 ∈ q.writers b ∧ e.2 = .writer := fun e he =>
    (mem_events.1 he).resolve_left fun h => hb (mem_active.2 (.inl ⟨_, h, rfl⟩))
  have hevents : ∀ e ∈ q.events b,
      e.2 = .writer ∧ ∃ i, q.fn.inst? (b, e.1) = some i ∧ q.mustStore i = false := by
    intro e he
    obtain ⟨hw, hk⟩ := hwriter e he
    obtain ⟨ht, i, hi, hwrite⟩ := mem_writers.1 hw
    refine ⟨hk, i, hi, Bool.eq_false_iff.2 fun hmust => hb ?_⟩
    obtain ⟨hstore, β, hβ, hop⟩ := base_of_mustStore hmust
    refine mem_active.2 (.inr ⟨ht, β, hop, mem_filter.2 ⟨mem_range.2 (inst?_lt hi), ?_⟩⟩)
    refine any_eq_true.2 ⟨i, mem_of_getElem? hi, ?_⟩
    rw [hwrite, hstore, hβ, decide_eq_true rfl]
    rfl
  have hany : ((q.events b).any fun e => q.canClobber (b, e.1)) = q.clobbered b := by
    rw [Bool.eq_iff_iff]
    unfold clobbered
    rw [Bool.and_eq_true]
    constructor
    · intro h
      obtain ⟨e, he, hc⟩ := any_eq_true.1 h
      obtain ⟨ht, i, hi, hwrite⟩ := mem_writers.1 (hwriter e he).1
      exact ⟨ht, any_eq_true.2 ⟨e.1, mem_memoryWriters.2 ⟨i, hi, hwrite⟩, hc⟩⟩
    · rintro ⟨ht, h⟩
      obtain ⟨w, hw, hc⟩ := any_eq_true.1 h
      obtain ⟨i, hi, hwrite⟩ := mem_memoryWriters.1 hw
      exact any_eq_true.2 ⟨(w, .writer),
        mem_events.2 (.inr ⟨mem_writers.2 ⟨ht, i, hi, hwrite⟩, rfl⟩), hc⟩
  unfold facts scanBlock
  rw [foldl_clobbers hevents rfl rfl, hany]
  rfl

/-! ### What is known of the blocks while one expression is asked about -/

/-- The local facts are those of the scans: kept for the active blocks, found out one by one for
the others. -/
structure Known (q : Query) (s : State) : Prop where
  active : ∀ o ∈ q.active, s.localInfo o = q.facts o
  fresh : ∀ o, o ∉ q.active → s.localInfo o = .default
  touched : s.touched = q.active
  isTouched : ∀ o, s.isTouched o = true ↔ o ∈ q.active
  opacity : ∀ o, s.opacity o ≠ .kOpacityUnknown →
    (s.opacity o = .kTransparent ↔ (q.facts o).transp = true)
  opacitySet : ∀ o, s.opacity o ≠ .kOpacityUnknown → o ∈ s.opacitySet

theorem Known.localInfo_eq {s : State} (h : Known q s) (o : Nat) :
    s.localInfo o = { q.facts o with transp := (s.localInfo o).transp } := by
  by_cases ho : o ∈ q.active
  · rw [h.active o ho]
  · rw [h.fresh o ho, facts_of_not_active ho]

theorem Known.antLoc {s : State} (h : Known q s) (o : Nat) :
    (s.localInfo o).antLoc = (q.facts o).antLoc := by
  rw [h.localInfo_eq]

theorem Known.availLoc {s : State} (h : Known q s) (o : Nat) :
    (s.localInfo o).availLoc = (q.facts o).availLoc := by
  rw [h.localInfo_eq]

theorem Known.availVal {s : State} (h : Known q s) (o : Nat) :
    (s.localInfo o).availVal = (q.facts o).availVal := by
  rw [h.localInfo_eq]

theorem Known.evaluations {s : State} (h : Known q s) (o : Nat) :
    (s.localInfo o).evaluations = (q.facts o).evaluations := by
  rw [h.localInfo_eq]

/-- What is found out about transparency is what the scan finds; nothing else changes. -/
theorem Known.transparent {s : State} (h : Known q s) (o : Nat) :
    (q.transparent s o).1 = (q.facts o).transp ∧ Known q (q.transparent s o).2 ∧
      ∃ v l, (q.transparent s o).2 = { s with opacity := v, opacitySet := l } := by
  unfold Query.transparent
  split
  · next ho => exact ⟨by rw [h.active o ((h.isTouched o).1 ho)], h, _, _, rfl⟩
  · next ho =>
    have hfacts := facts_of_not_active fun hmem => ho ((h.isTouched o).2 hmem)
    split
    · next ht =>
      refine ⟨?_, h, _, _, rfl⟩
      rw [hfacts, clobbered, (Bool.not_eq_true' _).mp ht]
      rfl
    · next ht =>
      have ht : q.trackMemory = true := by simpa using ht
      split
      · refine ⟨?_, ⟨h.active, h.fresh, h.touched, h.isTouched, fun p hp => ?_, fun p hp => ?_⟩,
          _, _, rfl⟩
        · rw [hfacts, clobbered, ht, Bool.true_and]
        · by_cases hpo : p = o
          · subst hpo
            rw [hfacts, clobbered, ht, Bool.true_and]
            dsimp only
            rw [Function.update_self]
            split
            · next hc => simp only [hc]
            · next hc => simp only [hc, reduceCtorEq]
          · dsimp only at hp ⊢
            rw [Function.update_of_ne hpo] at hp ⊢
            exact h.opacity p hp
        · by_cases hpo : p = o
          · rw [hpo]
            exact mem_append.2 (.inr (mem_singleton.2 rfl))
          · dsimp only at hp
            rw [Function.update_of_ne hpo] at hp
            exact mem_append.2 (.inl (h.opacitySet p hp))
      · next hknown =>
        refine ⟨?_, h, _, _, rfl⟩
        rw [Bool.eq_iff_iff, decide_eq_true_eq]
        exact h.opacity o hknown

end Query

/-! ### From one expression to the next -/

theorem clear_apply {v : Nat → α} {os : List Nat} {x : α} {o : Nat} :
    clear v os x o = if o ∈ os then x else v o := by
  unfold clear
  induction os generalizing v with
  | nil => rfl
  | cons p os ih =>
    rw [foldl_cons, ih]
    by_cases hmem : o ∈ os
    · simp [hmem]
    · by_cases hp : o = p
      · subst hp
        simp
      · simp [hmem, hp]

/-- What an expression has set is recorded where the next one resets it. -/
structure State.Clean (s : State) : Prop where
  localInfo : ∀ o, s.localInfo o ≠ .default → o ∈ s.touched
  isTouched : ∀ o, s.isTouched o = true → o ∈ s.touched
  opacity : ∀ o, s.opacity o ≠ .kOpacityUnknown → o ∈ s.opacitySet
  antIn : ∀ o, s.antIn o = true → o ∈ s.antSet
  availAtExit : ∀ o, s.availAtExit o ≠ none → o ∈ s.availSet

theorem State.clean_init : State.init.Clean where
  localInfo _ h := absurd rfl h
  isTouched _ h := absurd h Bool.false_ne_true
  opacity _ h := absurd rfl h
  antIn _ h := absurd h Bool.false_ne_true
  availAtExit _ h := absurd rfl h

namespace Query

variable {q : Query} {s : State}

/-- The local facts of an expression do not depend on those asked about before. -/
theorem known_computeLocalInfo (hs : s.Clean) : Known q (q.computeLocalInfo s.resetLocal) := by
  have hinfo : ∀ o, clear s.localInfo s.touched .default o = .default := by
    intro o
    rw [clear_apply]
    split
    · rfl
    · next ho =>
      by_contra hne
      exact ho (hs.localInfo o hne)
  have htouched : ∀ o, clear s.isTouched s.touched false o = false := by
    intro o
    rw [clear_apply]
    split
    · rfl
    · next ho => exact Bool.eq_false_iff.2 fun h => ho (hs.isTouched o h)
  have hopacity : ∀ o, clear s.opacity s.opacitySet .kOpacityUnknown o = .kOpacityUnknown := by
    intro o
    rw [clear_apply]
    split
    · rfl
    · next ho =>
      by_contra hne
      exact ho (hs.opacity o hne)
  rw [computeLocalInfo_eq]
  refine ⟨fun o ho => if_pos ho, fun o ho => (if_neg ho).trans (hinfo o), nil_append _,
    fun o => ?_, fun o ho => absurd (hopacity o) ho, fun o ho => absurd (hopacity o) ho⟩
  dsimp only [State.resetLocal]
  rw [htouched]
  simp only [Bool.if_false_right, Bool.and_true, decide_eq_true_eq]

theorem Known.clean (h : Known q s) (hant : ∀ o, s.antIn o = true → o ∈ s.antSet)
    (havail : ∀ o, s.availAtExit o ≠ none → o ∈ s.availSet) : s.Clean where
  localInfo o ho := by
    rw [h.touched]
    by_contra hnot
    exact ho (h.fresh o hnot)
  isTouched o ho := by
    rw [h.touched]
    exact (h.isTouched o).1 ho
  opacity := h.opacitySet
  antIn := hant
  availAtExit := havail

end Query

end Brass.Mir.Pre
