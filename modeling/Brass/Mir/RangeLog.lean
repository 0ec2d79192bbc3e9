import Brass.Mir.RangeRollback

/-!
# The log of the writes

A write is in effect from its block to the end of the subtree of the block, in the numbers of
the walk. The link of an entry leads to the last entry of its value that is in effect at its
block (`Log.linked`). Staging a write keeps that, and a block has one entry for each value it
has written (`stageWrite_spec`). The index keeps the order of the entries of a value and their
links, so a query finds the last write that is in effect at a block (`find_spec`).
-/

namespace Brass.Mir

open Option WriteIndex

open Function (update update_of_ne update_self)

open Brass.Util Brass.Util.LinkedLog List

variable {v u m n t i j k : Nat} {r q : ValueRange} {w : Pass3Write} {l : Option Nat}

namespace Pass3

variable {s s' : Pass3}

def ends (s : Pass3) (block : Nat) : Option Nat := s.subtreeEnd.getD block none

/-- The entries of the log for `v`, each with its block and its link. -/
def entryOf (s : Pass3) (v i : Nat) : Option (Nat × Option Nat) :=
  s.staged[i]?.bind fun e => if e.1 = v then some (e.2.block, e.2.enclosing) else none

/-- The log has `r` for the value `v` and the block `n`. -/
def Written (s : Pass3) (v n : Nat) (r : ValueRange) : Prop :=
  ∃ (i : Nat) (l : Option Nat), s.staged[i]? = some (v, ({ block := n, enclosing := l, range := r } : Pass3Write))

structure Log (s : Pass3) : Prop where
  last : ∀ v, IsLast (fun i => (s.entryOf v i).isSome) (s.lastStaged v)
  lt : ∀ v i b l, s.entryOf v i = some (b, l) → b < s.subtreeEnd.length
  linked : ∀ v, Linked s.ends (s.entryOf v)

theorem entryOf_eq_some : s.entryOf v i = some (n, l) ↔
    ∃ r, s.staged[i]? = some (v, ({ block := n, enclosing := l, range := r } : Pass3Write)) := by
  unfold entryOf
  constructor
  · intro h
    obtain ⟨⟨v', b, l', r⟩, he, heq⟩ := bind_eq_some_iff.mp h
    split at heq
    · rename_i hv
      cases heq
      exact ⟨r, hv ▸ he⟩
    · cases heq
  · rintro ⟨r, he⟩
    rw [he, bind_some, if_pos rfl]

theorem lt_of_entryOf (h : s.entryOf v i = some (n, l)) : i < s.staged.length := by
  obtain ⟨r, hr⟩ := entryOf_eq_some.mp h
  exact (List.getElem?_eq_some_iff.mp hr).1

theorem Log.congr (h : Log s) (hstaged : s'.staged = s.staged)
    (hlast : s'.lastStaged = s.lastStaged) (hlen : s.subtreeEnd.length ≤ s'.subtreeEnd.length)
    (hends : ∀ a b, a < s.subtreeEnd.length → b < s.subtreeEnd.length →
      (InEffect s'.ends a b ↔ InEffect s.ends a b)) : Log s' := by
  have hentry : s'.entryOf = s.entryOf := by
    funext v i
    rw [entryOf, entryOf, hstaged]
  refine ⟨fun v => ?_, fun v i b l hi => ?_, fun v => ?_⟩
  · rw [hlast, hentry]
    exact h.last v
  · rw [hentry] at hi
    exact (h.lt v i b l hi).trans_le hlen
  · rw [hentry]
    exact (h.linked v).congr fun i j b b' l l' hi hj =>
      hends b b' (h.lt v i b l hi) (h.lt v j b' l' hj)

/-! ## Staging a write -/

/-- The block `n` has been entered last. -/
structure Newest (s : Pass3) (n : Nat) : Prop where
  length : s.subtreeEnd.length = n + 1
  opened : s.ends n = none
  closed : ∀ b last, s.ends b = some last → last < n

theorem Newest.inEffect_iff (hn : Newest s n) (hm : m ≤ n) :
    InEffect s.ends m n ↔ s.isOpen m = true := by
  unfold InEffect isOpen
  rw [beq_iff_eq]
  constructor
  · intro h
    refine eq_none_iff_forall_ne_some.mpr fun last hlast => ?_
    have := h.2 last hlast
    have := hn.closed m last hlast
    omega
  · intro h
    refine ⟨hm, fun last hlast => ?_⟩
    rw [mem_def, ends, h] at hlast
    cases hlast

theorem Log.nearestOpen_isLast (h : Log s) (hn : Newest s n) (hi : s.lastStaged v = some i) :
    IsLast (EntryAt s.ends (s.entryOf v) n) (s.nearestOpen (some i)) := by
  have hlast := h.last v
  rw [hi] at hlast
  obtain ⟨hvalid, hmax⟩ := hlast
  refine (h.linked v).climb (fun j b l hj => ?_) (fun j b l hj hb => ?_) (fun j hj => ?_)
    fun k hk => ⟨i, rfl, ?_⟩
  · obtain ⟨r, hr⟩ := entryOf_eq_some.mp hj
    simp only [hr, bind_some]
  · obtain ⟨r, hr⟩ := entryOf_eq_some.mp hj
    rw [hn.inEffect_iff hb]
    simp only [hr, any_some]
  · obtain rfl := some.inj hj
    obtain ⟨⟨b, l⟩, hbl⟩ := isSome_iff_exists.mp hvalid
    refine ⟨lt_of_entryOf hbl, b, l, hbl, ?_⟩
    have := h.lt v _ b l hbl
    have := hn.length
    omega
  · obtain ⟨b, l, hk, -⟩ := hk
    exact hmax k (isSome_iff_exists.mpr ⟨_, hk⟩)

/-- What a change of the log does to the writes in it. -/
def Stages (s s' : Pass3) (v n : Nat) (r : ValueRange) : Prop :=
  ∀ u m q, s'.Written u m q ↔ if u = v ∧ m = n then q = r else s.Written u m q

theorem Log.append (h : Log s) (hn : Newest s n) (hl : IsLast (EntryAt s.ends (s.entryOf v) n) l)
    (hnone : ∀ i b l', s.entryOf v i = some (b, l') → b ≠ n)
    (hs' : s' = { s with
      staged := s.staged ++ [(v, { block := n, enclosing := l, range := r })]
      lastStaged := update s.lastStaged v (some s.staged.length) }) :
    Log s' ∧ Stages s s' v n r := by
  subst hs'
  have hself : ∀ u, (s.staged ++ [(v, { block := n, enclosing := l, range := r })])[s.staged.length]?.bind
      (fun e => if e.1 = u then some (e.2.block, e.2.enclosing) else none) =
      if v = u then some (n, l) else none := by
    intro u
    rw [getElem?_append_right (Nat.le_refl _), Nat.sub_self]
    rfl
  have hpast : ∀ u i, s.staged.length ≤ i → s.entryOf u i = none := by
    intro u i hi
    rw [entryOf, getElem?_eq_none hi]
    rfl
  have hentry : ∀ u, entryOf { s with
      staged := s.staged ++ [(v, { block := n, enclosing := l, range := r })]
      lastStaged := update s.lastStaged v (some s.staged.length) } u =
      if u = v then update (s.entryOf v) s.staged.length (some (n, l))
      else s.entryOf u := by
    intro u
    funext i
    unfold entryOf
    dsimp only
    rcases Nat.lt_trichotomy i s.staged.length with hlt | rfl | hgt
    · rw [getElem?_append_left hlt]
      split
      · rename_i huv
        rw [huv, update_of_ne (by omega)]
      · rfl
    · rw [hself]
      by_cases huv : u = v
      · rw [if_pos huv.symm, if_pos huv, update_self]
      · rw [if_neg (Ne.symm huv), if_neg huv, getElem?_eq_none (Nat.le_refl _)]
        rfl
    · rw [getElem?_eq_none (by rw [length_append, length_singleton]; omega)]
      split
      · rw [update_of_ne (by omega)]
        exact (hpast v i (by omega)).symm
      · exact (hpast u i (by omega)).symm
  have hbefore : ∀ i b l', s.entryOf v i = some (b, l') → i < s.staged.length ∧ b < n := by
    intro i b l' hi
    have := h.lt v i b l' hi
    have := hn.length
    have := hnone i b l' hi
    exact ⟨lt_of_entryOf hi, by omega⟩
  refine ⟨⟨fun u => ?_, fun u i b l' hi => ?_, fun u => ?_⟩, fun u m q => ?_⟩
  · rw [hentry]
    dsimp only
    by_cases huv : u = v
    · subst huv
      rw [if_pos rfl, update_self]
      refine ⟨isSome_iff_exists.mpr ⟨_, update_self ..⟩, fun k hk => ?_⟩
      obtain ⟨e, hk⟩ := isSome_iff_exists.mp hk
      by_contra hlt
      rw [update_of_ne (by omega), hpast u k (by omega)] at hk
      cases hk
    · rw [if_neg huv, update_of_ne huv]
      exact h.last u
  · rw [hentry] at hi
    have := hn.length
    split at hi
    · by_cases hilen : i = s.staged.length
      · rw [hilen, update_self, some.injEq, Prod.mk.injEq] at hi
        show b < s.subtreeEnd.length
        omega
      · rw [update_of_ne hilen] at hi
        exact h.lt v i b l' hi
    · exact h.lt u i b l' hi
  · rw [hentry]
    split
    · exact (h.linked v).push hbefore hl
    · exact h.linked u
  · unfold Written
    dsimp only
    constructor
    · rintro ⟨i, l', hi⟩
      rcases Nat.lt_or_ge i s.staged.length with hlt | hge
      · rw [getElem?_append_left hlt] at hi
        rw [if_neg]
        · exact ⟨i, l', hi⟩
        · rintro ⟨rfl, rfl⟩
          exact hnone i m l' (entryOf_eq_some.mpr ⟨q, hi⟩) rfl
      · rw [List.getElem?_append_right hge] at hi
        obtain ⟨_, heq⟩ := List.getElem?_eq_some_iff.mp hi
        simp only [List.getElem_singleton, Prod.mk.injEq, Pass3Write.mk.injEq] at heq
        rw [if_pos ⟨heq.1.symm, heq.2.1.symm⟩]
        exact heq.2.2.2.symm
    · split
      · rename_i hum
        rintro rfl
        exact ⟨s.staged.length, l, by
          rw [getElem?_append_right (Nat.le_refl _), Nat.sub_self, hum.1, hum.2]
          rfl⟩
      · rintro ⟨i, l', hi⟩
        refine ⟨i, l', ?_⟩
        rw [List.getElem?_append_left (List.getElem?_eq_some_iff.mp hi).1]
        exact hi

theorem Log.replace (h : Log s) (hi : s.staged[i]? = some (v, w)) (hw : w.block = n)
    (hs' : s' = { s with staged := s.staged.set i (v, { w with range := r }) }) :
    Log s' ∧ Stages s s' v n r := by
  subst hs'
  have hlt := (List.getElem?_eq_some_iff.mp hi).1
  have hentry : entryOf { s with staged := s.staged.set i (v, { w with range := r }) } =
      s.entryOf := by
    funext u k
    unfold entryOf
    dsimp only
    rw [List.getElem?_set]
    split
    · rename_i hik
      subst hik
      rw [hi]
      rfl
    · rfl
  have hme : s.entryOf v i = some (n, w.enclosing) := by
    rw [entryOf, hi, bind_some, if_pos rfl, hw]
  refine ⟨⟨fun u => hentry ▸ h.last u, fun u => hentry ▸ h.lt u, fun u => hentry ▸ h.linked u⟩,
    fun u m q => ?_⟩
  unfold Written
  dsimp only
  constructor
  · rintro ⟨k, l', hk⟩
    rw [List.getElem?_set] at hk
    split at hk
    · rename_i hik
      subst hik
      rw [some.injEq, Prod.mk.injEq] at hk
      obtain ⟨rfl, hk⟩ := hk
      rw [Pass3Write.mk.injEq] at hk
      rw [if_pos ⟨rfl, hk.1 ▸ hw⟩]
      exact hk.2.2.symm
    · rename_i hik
      rw [if_neg]
      · exact ⟨k, l', hk⟩
      · rintro ⟨rfl, rfl⟩
        -- A second entry of the block would be at another time.
        have hother : s.entryOf u k = some (m, l') := entryOf_eq_some.mpr ⟨q, hk⟩
        rcases Nat.lt_or_gt_of_ne hik with hlt | hgt
        · exact Nat.lt_irrefl _ ((h.linked u).sorted i k m m _ _ hlt hme hother)
        · exact Nat.lt_irrefl _ ((h.linked u).sorted k i m m _ _ hgt hother hme)
  · split
    · rename_i hum
      rintro rfl
      refine ⟨i, w.enclosing, ?_⟩
      rw [List.getElem?_set_self hlt, hum.1, hum.2, ← hw]
    · rename_i hum
      rintro ⟨k, l', hk⟩
      refine ⟨k, l', ?_⟩
      rw [List.getElem?_set, if_neg]
      · exact hk
      · rintro rfl
        rw [hi, some.injEq, Prod.mk.injEq] at hk
        refine hum ⟨hk.1.symm, ?_⟩
        rw [← hw, hk.2]

theorem stageWrite_spec (h : Log s) (hn : Newest s n) (v : Nat) (r : ValueRange) :
    Log (s.stageWrite v n r) ∧ Stages s (s.stageWrite v n r) v n r := by
  have hlast := h.last v
  unfold stageWrite
  split
  · rename_i latest hlatest
    rw [hlatest] at hlast
    obtain ⟨⟨b, l⟩, hbl⟩ := isSome_iff_exists.mp hlast.1
    obtain ⟨q, hq⟩ := entryOf_eq_some.mp hbl
    rw [hq]
    dsimp only
    split
    · rename_i hb
      exact h.replace hq hb rfl
    · rename_i hb
      refine h.append hn (h.nearestOpen_isLast hn hlatest) (fun i b' l' hi => ?_) rfl
      have hle := hlast.2 i (isSome_iff_exists.mpr ⟨_, hi⟩)
      have hlt := h.lt v latest b l hbl
      have hlen := hn.length
      rcases Nat.lt_or_eq_of_le hle with hless | rfl
      · have := (h.linked v).sorted i latest b' b l' l hless hi hbl
        omega
      · rw [hbl, some.injEq, Prod.mk.injEq] at hi
        exact hi.1 ▸ hb
  · rename_i hnone
    rw [hnone] at hlast
    have hno : ∀ i b l', s.entryOf v i ≠ some (b, l') := fun i b l' hi =>
      hlast i (isSome_iff_exists.mpr ⟨_, hi⟩)
    have hl : IsLast (EntryAt s.ends (s.entryOf v) n) none :=
      fun k ⟨b, l', hk, _⟩ => hno k b l' hk
    exact h.append hn hl (fun i b l' hi => absurd hi (hno i b l')) rfl

/-- What a block leaves in the log: the values it has set, as they are at its end. -/
theorem stageScope_spec {scope : Scope} (h : Log s) (hn : Newest s n)
    (hset : ∀ v, scope.rollback.any (·.1 == v) = true → (scope.ranges v).isSome) :
    Log (s.stageScope scope n) ∧ ∀ u m q, (s.stageScope scope n).Written u m q ↔
      if scope.rollback.any (·.1 == u) = true ∧ m = n then scope.ranges u = some q
      else s.Written u m q := by
  unfold stageScope
  revert hset
  generalize scope.rollback = es
  intro hset
  induction es generalizing s with
  | nil => exact ⟨h, fun u m q => by simp⟩
  | cons e es ih =>
    obtain ⟨r, hr⟩ := isSome_iff_exists.mp (hset e.1 (by simp))
    obtain ⟨hlog, hstages⟩ := stageWrite_spec h hn e.1 r
    have hsame := stageWrite_sameScopes s e.1 n r
    have hn' : Newest (s.stageWrite e.1 n r) n := by
      refine ⟨hsame.subtreeEnd ▸ hn.length, ?_, ?_⟩
      · rw [ends, hsame.subtreeEnd]
        exact hn.opened
      · intro b last hb
        rw [ends, hsame.subtreeEnd] at hb
        exact hn.closed b last hb
    rw [foldl_cons, hr]
    obtain ⟨hlog', hspec⟩ := ih hlog hn' fun v hv => hset v (by
      rw [any_cons, hv, Bool.or_true])
    refine ⟨hlog', fun u m q => ?_⟩
    rw [hspec, hstages]
    simp only [any_cons, Bool.or_eq_true, beq_iff_eq]
    by_cases hm : m = n
    · subst hm
      by_cases hes : es.any (·.1 == u) = true
      · rw [if_pos ⟨hes, rfl⟩, if_pos ⟨Or.inr hes, rfl⟩]
      · rw [if_neg fun hand => hes hand.1]
        by_cases heu : e.1 = u
        · subst heu
          rw [if_pos ⟨rfl, rfl⟩, if_pos ⟨Or.inl rfl, rfl⟩, hr, some.injEq, eq_comm]
        · rw [if_neg fun hand => heu hand.1.symm, if_neg fun hand => hand.1.elim heu hes]
    · rw [if_neg fun hand => hm hand.2, if_neg fun hand => hm hand.2, if_neg fun hand => hm hand.2]

end Pass3

/-! ## The index -/

/-- What the index holds of the part of the log that it has been given. -/
structure WriteIndex.Indexes (x : WriteIndex) (staged : List (Nat × Pass3Write)) : Prop where
  length : x.moved.length = staged.length
  moved : ∀ i v w, staged[i]? = some (v, w) → (x.runs v)[x.moved.getD i 0]? =
    some { w with enclosing := w.enclosing.map fun k => x.moved.getD k 0 }
  only : ∀ v j e, (x.runs v)[j]? = some e →
    ∃ i w, staged[i]? = some (v, w) ∧ x.moved.getD i 0 = j
  mono : ∀ i k v w w', i < k → staged[i]? = some (v, w) → staged[k]? = some (v, w') →
    x.moved.getD i 0 < x.moved.getD k 0

theorem WriteIndex.push_runs_self (x : WriteIndex) (e : Nat × Pass3Write) :
    (x.push e).runs e.1 = x.runs e.1 ++
      [{ e.2 with enclosing := e.2.enclosing.map fun i => x.moved.getD i 0 }] :=
  update_self ..

theorem WriteIndex.push_runs_of_ne {x : WriteIndex} {e : Nat × Pass3Write} (h : v ≠ e.1) :
    (x.push e).runs v = x.runs v :=
  update_of_ne h ..

theorem WriteIndex.Indexes.push {x : WriteIndex} {staged : List (Nat × Pass3Write)}
    (h : x.Indexes staged) (e : Nat × Pass3Write)
    (hlink : ∀ i v (w : Pass3Write) k, (staged ++ [e])[i]? = some (v, w) →
      w.enclosing = some k → k < i) :
    (x.push e).Indexes (staged ++ [e]) := by
  have hold : ∀ i, i < staged.length → (x.push e).moved.getD i 0 = x.moved.getD i 0 := by
    intro i hi
    rw [WriteIndex.push, getD_eq_getElem?_getD, getD_eq_getElem?_getD,
      getElem?_append_left (by rw [h.length]; exact hi)]
  have hnew : (x.push e).moved.getD staged.length 0 = (x.runs e.1).length := by
    rw [WriteIndex.push, getD_eq_getElem?_getD, ← h.length,
      getElem?_append_right (Nat.le_refl _), Nat.sub_self]
    rfl
  have hlt : ∀ i v w, staged[i]? = some (v, w) → i < staged.length := fun i v w hi =>
    (List.getElem?_eq_some_iff.mp hi).1
  have hcases : ∀ i v w, (staged ++ [e])[i]? = some (v, w) →
      i < staged.length ∧ staged[i]? = some (v, w) ∨ i = staged.length ∧ e = (v, w) := by
    intro i v w hi
    rcases Nat.lt_or_ge i staged.length with hlt | hge
    · rw [getElem?_append_left hlt] at hi
      exact Or.inl ⟨hlt, hi⟩
    · have hilt := (List.getElem?_eq_some_iff.mp hi).1
      rw [List.length_append, List.length_singleton] at hilt
      obtain rfl : i = staged.length := by omega
      rw [getElem?_append_right (Nat.le_refl _), Nat.sub_self] at hi
      exact Or.inr ⟨rfl, some.inj hi⟩
  have hmap : ∀ i v w, (staged ++ [e])[i]? = some (v, w) → i ≤ staged.length →
      (w.enclosing.map fun k => (x.push e).moved.getD k 0) =
        w.enclosing.map fun k => x.moved.getD k 0 := by
    intro i v w hi hle
    cases hw : w.enclosing with
    | none => rfl
    | some k =>
      have := hlink i v w k hi hw
      rw [map_some, map_some, hold k (by omega)]
  have hpos : ∀ i v w, staged[i]? = some (v, w) → x.moved.getD i 0 < (x.runs v).length :=
    fun i v w hi => (List.getElem?_eq_some_iff.mp (h.moved i v w hi)).1
  refine ⟨?_, fun i v w hi => ?_, fun v j e' hj => ?_, fun i k v w w' hik hi hk => ?_⟩
  · rw [WriteIndex.push, length_append, length_append, h.length]
    rfl
  · rw [hmap i v w hi (by
      rcases hcases i v w hi with ⟨hlt, -⟩ | ⟨rfl, -⟩
      · omega
      · omega)]
    rcases hcases i v w hi with ⟨hilt, hi⟩ | ⟨rfl, rfl⟩
    · rw [hold i hilt]
      have hrun := h.moved i v w hi
      by_cases hv : v = e.1
      · subst hv
        rw [push_runs_self, getElem?_append_left (hpos i _ w hi)]
        exact hrun
      · rw [push_runs_of_ne hv]
        exact hrun
    · rw [hnew, push_runs_self, getElem?_append_right (Nat.le_refl _), Nat.sub_self]
      rfl
  · have hback : ∀ i w, staged[i]? = some (v, w) → x.moved.getD i 0 = j →
        ∃ i w, (staged ++ [e])[i]? = some (v, w) ∧ (x.push e).moved.getD i 0 = j := by
      intro i w hi hij
      have hilt := hlt i v w hi
      exact ⟨i, w, by rw [getElem?_append_left hilt, hi], by rw [hold i hilt, hij]⟩
    by_cases hv : v = e.1
    · subst hv
      rw [push_runs_self] at hj
      rcases Nat.lt_or_ge j (x.runs e.1).length with hjlt | hjge
      · rw [getElem?_append_left hjlt] at hj
        obtain ⟨i, w, hi, hij⟩ := h.only _ j e' hj
        exact hback i w hi hij
      · have hjlt := (List.getElem?_eq_some_iff.mp hj).1
        rw [List.length_append, List.length_singleton] at hjlt
        refine ⟨staged.length, e.2, ?_, ?_⟩
        · rw [getElem?_append_right (Nat.le_refl _), Nat.sub_self]
          rfl
        · rw [hnew]
          omega
    · rw [push_runs_of_ne hv] at hj
      obtain ⟨i, w, hi, hij⟩ := h.only v j e' hj
      exact hback i w hi hij
  · rcases hcases i v w hi with ⟨hilt, hi'⟩ | ⟨rfl, -⟩
    · rw [hold i hilt]
      rcases hcases k v w' hk with ⟨hklt, hk'⟩ | ⟨rfl, rfl⟩
      · rw [hold k hklt]
        exact h.mono i k v w w' hik hi' hk'
      · rw [hnew]
        exact hpos i v w hi'
    · rcases hcases k v w' hk with ⟨hklt, -⟩ | ⟨rfl, -⟩
      · omega
      · omega

theorem WriteIndex.ofStaged_indexes {staged : List (Nat × Pass3Write)}
    (hlink : ∀ i v (w : Pass3Write) k, staged[i]? = some (v, w) → w.enclosing = some k → k < i) :
    (ofStaged staged).Indexes staged := by
  induction staged using reverseRecOn with
  | nil => exact ⟨rfl, by simp, by simp [ofStaged], by simp⟩
  | append_singleton staged e ih =>
    unfold ofStaged at ih ⊢
    rw [foldl_append]
    refine (ih fun i v w k hi hw => hlink i v w k ?_ hw).push e hlink
    rw [List.getElem?_append_left (List.getElem?_eq_some_iff.mp hi).1, hi]

/-! ## Queries -/

namespace RangeAnalysis

variable {a : RangeAnalysis} {s : Pass3}

/-- The writes of a value, each with its block and its link. -/
def runEntry (a : RangeAnalysis) (v i : Nat) : Option (Nat × Option Nat) :=
  (a.writes v)[i]?.map fun e => (e.block, e.enclosing)

/-- The analysis answers from the log of `s`. -/
structure Answers (a : RangeAnalysis) (s : Pass3) : Prop where
  writes : a.writes = (WriteIndex.ofStaged s.staged).runs
  subtreeEnd : a.subtreeEnd = s.subtreeEnd

theorem link_lt (h : s.Log) {i v k : Nat} {w : Pass3Write} (hi : s.staged[i]? = some (v, w))
    (hw : w.enclosing = some k) : k < i := by
  have hlast := (h.linked v).link i w.block w.enclosing (Pass3.entryOf_eq_some.mpr ⟨w.range, hi⟩)
  rw [hw] at hlast
  exact hlast.1.1

theorem Answers.linked (ha : a.Answers s) (h : s.Log) (v : Nat) : Linked s.ends (a.runEntry v) := by
  have hindex := ofStaged_indexes fun i v w k hi hw => link_lt h hi hw
  refine (h.linked v).move (f := fun i => (ofStaged s.staged).moved.getD i 0)
    (fun i j b b' l l' hij hi hj => ?_) (fun i b l hi => ?_) fun j e hj => ?_
  · obtain ⟨r, hr⟩ := Pass3.entryOf_eq_some.mp hi
    obtain ⟨r', hr'⟩ := Pass3.entryOf_eq_some.mp hj
    exact hindex.mono i j v _ _ hij hr hr'
  · obtain ⟨r, hr⟩ := Pass3.entryOf_eq_some.mp hi
    rw [runEntry, ha.writes, hindex.moved i v _ hr]
    rfl
  · obtain ⟨e', he', -⟩ := map_eq_some_iff.mp hj
    rw [ha.writes] at he'
    obtain ⟨i, w, hi, hij⟩ := hindex.only v j e' he'
    exact ⟨i, w.block, w.enclosing, Pass3.entryOf_eq_some.mpr ⟨w.range, hi⟩, hij⟩

theorem lastAt_isLast {run : List Pass3Write} (hsorted : run.Pairwise fun e e' => e.block < e'.block)
    (t : Nat) : IsLast (fun i => ∃ e, run[i]? = some e ∧ e.block ≤ t) (lastAt run t) := by
  have hmono : run.Pairwise fun e e' =>
      decide (e'.block ≤ t) = true → decide (e.block ≤ t) = true := hsorted.imp fun hlt h => by
    rw [decide_eq_true_iff] at h ⊢
    omega
  have hpart := partitionedAt_takeWhile hmono
  rw [← partitionPoint_eq_takeWhile hmono] at hpart
  have hle := partitionPoint_le run fun e => decide (e.block ≤ t)
  unfold lastAt
  split
  · rename_i hzero
    rintro i ⟨e, he, het⟩
    rw [hzero] at hpart
    exact Nat.not_lt_zero _ ((hpart i e he).mp (decide_eq_true het))
  · rename_i n hn
    rw [hn] at hpart hle
    have hget := getElem?_eq_getElem (show n < run.length by omega)
    refine ⟨⟨_, hget, of_decide_eq_true ((hpart n _ hget).mpr (Nat.lt_succ_self n))⟩, ?_⟩
    rintro k ⟨e, he, het⟩
    exact Nat.le_of_lt_succ ((hpart k e he).mp (decide_eq_true het))

/-- A query finds the last write that is in effect. -/
theorem Answers.climb_isLast (ha : a.Answers s) (h : s.Log) (v t : Nat) :
    IsLast (EntryAt s.ends (a.runEntry v) t) (a.climb (a.writes v) t) := by
  have hlinked := ha.linked h v
  have hrun : ∀ i b l, a.runEntry v i = some (b, l) ↔
      ∃ r, (a.writes v)[i]? = some { block := b, enclosing := l, range := r } := by
    intro i b l
    unfold runEntry
    rw [map_eq_some_iff]
    constructor
    · rintro ⟨⟨b', l', r⟩, he, heq⟩
      cases heq
      exact ⟨r, he⟩
    · rintro ⟨r, he⟩
      exact ⟨_, he, rfl⟩
  have hsorted : (a.writes v).Pairwise fun e e' => e.block < e'.block := by
    rw [pairwise_iff_getElem]
    intro i j hi hj hij
    exact hlinked.sorted i j _ _ _ _ hij ((hrun i _ _).mpr ⟨_, getElem?_eq_getElem hi⟩)
      ((hrun j _ _).mpr ⟨_, getElem?_eq_getElem hj⟩)
  have hstart := lastAt_isLast hsorted t
  refine hlinked.climb (fun i b l hi => ?_) (fun i b l hi hb => ?_) (fun i hi => ?_) fun k hk => ?_
  · obtain ⟨r, hr⟩ := (hrun i b l).mp hi
    rw [hr, bind_some]
  · obtain ⟨r, hr⟩ := (hrun i b l).mp hi
    rw [hr, any_some]
    unfold inSubtree InEffect Pass3.ends
    rw [ha.subtreeEnd, Bool.and_eq_true, decide_eq_true_iff]
    refine and_congr_right fun _ => ?_
    cases s.subtreeEnd.getD b none with
    | none => simp
    | some last => simp
  · rw [hi] at hstart
    obtain ⟨⟨e, he, het⟩, -⟩ := hstart
    exact ⟨(List.getElem?_eq_some_iff.mp he).1, e.block, e.enclosing, (hrun i _ _).mpr ⟨_, he⟩, het⟩
  · obtain ⟨b, l, hk, hin⟩ := hk
    obtain ⟨r, hr⟩ := (hrun k b l).mp hk
    exact hstart.exists_ge ⟨_, hr, hin.1⟩

/-- The write that a query finds, in terms of the log: the last block that has written the value
and has `t` in its subtree. -/
theorem Answers.find_spec (ha : a.Answers s) (h : s.Log) (v t : Nat) :
    match (a.climb (a.writes v) t).bind ((a.writes v)[·]?) with
    | some e => s.Written v e.block e.range ∧ InEffect s.ends e.block t ∧
      ∀ m q, s.Written v m q → InEffect s.ends m t → m ≤ e.block
    | none => ∀ m q, s.Written v m q → ¬ InEffect s.ends m t := by
  have hindex := ofStaged_indexes fun i v w k hi hw => link_lt h hi hw
  have hlinked := ha.linked h v
  have hentry : ∀ m q, s.Written v m q → ∃ j l, a.runEntry v j = some (m, l) := by
    rintro m q ⟨i, l, hi⟩
    refine ⟨(ofStaged s.staged).moved.getD i 0,
      l.map fun k => (ofStaged s.staged).moved.getD k 0, ?_⟩
    rw [runEntry, ha.writes, hindex.moved i v _ hi]
    rfl
  have hlast := ha.climb_isLast h v t
  cases hclimb : a.climb (a.writes v) t with
  | none =>
    rw [hclimb] at hlast
    intro m q hm hin
    obtain ⟨j, l, hj⟩ := hentry m q hm
    exact hlast j ⟨m, l, hj, hin⟩
  | some i =>
    rw [hclimb] at hlast
    obtain ⟨⟨b, l, hi, hin⟩, hmax⟩ := hlast
    obtain ⟨e, he, heq⟩ := map_eq_some_iff.mp hi
    cases heq
    rw [bind_some, he]
    refine ⟨?_, hin, fun m q hm hin' => ?_⟩
    · have he' := he
      rw [ha.writes] at he'
      obtain ⟨i₀, w, hi₀, rfl⟩ := hindex.only v i e he'
      rw [hindex.moved i₀ v w hi₀, some.injEq] at he'
      exact ⟨i₀, w.enclosing, by rw [hi₀, ← he']⟩
    · obtain ⟨j, l, hj⟩ := hentry m q hm
      rcases Nat.lt_or_eq_of_le (hmax j ⟨m, l, hj, hin'⟩) with hlt | rfl
      · exact Nat.le_of_lt (hlinked.sorted j i _ _ _ _ hlt hj hi)
      · rw [hj, some.injEq, Prod.mk.injEq] at hi
        exact Nat.le_of_eq hi.1

end RangeAnalysis

end Brass.Mir
