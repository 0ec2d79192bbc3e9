import Mathlib.Data.Set.Basic
import Mathlib.Data.List.Perm.Basic
import Mathlib.Data.List.Nodup

/-!
# Reordering instructions by their footprints

An instruction of a machine touches some locations of the state and writes some of
those; which ones may depend on the state, through the locations it touches. Two
instructions that are next to each other and neither of which writes what the other
touches can be exchanged, and both keep their footprints. A run whose order is changed
so that every pair with meeting footprints keeps its order therefore ends in the same
state, whatever the instructions compute.
-/

namespace Brass.Footprint

open List

variable {I L V : Type*}
variable {prog : List I} {σ : Nat → L → V}

/-- Instructions `I` over states `L → V`. `touches` bounds what a step depends on,
`writes` what it changes; `none` is a trap. -/
structure Machine (I L V : Type*) where
  touches : I → (L → V) → Set L
  writes : I → (L → V) → Set L
  step : I → (L → V) → Option (L → V)
  writes_subset : ∀ i s, writes i s ⊆ touches i s
  touches_congr : ∀ {i s t}, (∀ l ∈ touches i s, t l = s l) → touches i t = touches i s
  writes_congr : ∀ {i s t}, (∀ l ∈ touches i s, t l = s l) → writes i t = writes i s
  frame : ∀ {i s s'}, step i s = some s' → ∀ l, l ∉ writes i s → s' l = s l
  step_congr : ∀ {i s s' t}, step i s = some s' → (∀ l ∈ touches i s, t l = s l) →
    ∃ t', step i t = some t' ∧ ∀ l ∈ writes i s, t' l = s' l

def run (M : Machine I L V) : List I → (L → V) → Option (L → V)
  | [], s => some s
  | i :: is, s => (M.step i s).bind (run M is)

/-- The instructions of `prog` at the positions `ks` run from `s` to `t`, each with the
footprint recorded for its position. -/
inductive Traced (M : Machine I L V) (prog : List I) (T W : Nat → Set L) :
    List Nat → (L → V) → (L → V) → Prop
  | nil (s) : Traced M prog T W [] s s
  | cons {k i ks s s' t} (found : prog[k]? = some i) (touched : M.touches i s = T k)
      (written : M.writes i s = W k) (stepped : M.step i s = some s')
      (rest : Traced M prog T W ks s' t) : Traced M prog T W (k :: ks) s t

/-- Neither footprint writes what the other touches. -/
def Free (T W : Nat → Set L) (a b : Nat) : Prop :=
  (∀ l ∈ W a, l ∉ T b) ∧ ∀ l ∈ W b, l ∉ T a

theorem Traced.run_eq {M : Machine I L V} {prog : List I} {T W : Nat → Set L}
    {ks : List Nat} {s t : L → V} (h : Traced M prog T W ks s t) :
    run M (ks.filterMap (prog[·]?)) s = some t := by
  induction h with
  | nil s => rfl
  | cons found _ _ stepped _ ih =>
      rw [filterMap_cons_some found, run, stepped]
      exact ih

/-- Two neighbours with separate footprints exchange places. -/
theorem Traced.swap {M : Machine I L V} {prog : List I} {T W : Nat → Set L} {a b : Nat}
    {ks : List Nat} {s t : L → V} (hfree : Free T W a b)
    (h : Traced M prog T W (a :: b :: ks) s t) :
    Traced M prog T W (b :: a :: ks) s t := by
  cases h with
  | @cons _ ia _ _ s₁ _ fa ta wa sa rest =>
  cases rest with
  | @cons _ ib _ _ s₂ _ fb tb wb sb rest =>
  have hab : ∀ l ∈ T b, s₁ l = s l := fun l hl =>
    M.frame sa l (fun hw => hfree.1 l (wa ▸ hw) hl)
  -- `b` sees the same values before `a`, so it does the same there
  have agreeb : ∀ l ∈ M.touches ib s₁, s l = s₁ l := fun l hl =>
    (hab l (tb ▸ hl)).symm
  obtain ⟨u, su, hu⟩ := M.step_congr sb agreeb
  have tb' : M.touches ib s = T b := (M.touches_congr agreeb).trans tb
  have wb' : M.writes ib s = W b := (M.writes_congr agreeb).trans wb
  have agreea : ∀ l ∈ M.touches ia s, u l = s l := fun l hl =>
    M.frame su l (fun hw => hfree.2 l (wb' ▸ hw) (ta ▸ hl))
  obtain ⟨v, sv, hv⟩ := M.step_congr sa agreea
  have ta' : M.touches ia u = T a := (M.touches_congr agreea).trans ta
  have wa' : M.writes ia u = W a := (M.writes_congr agreea).trans wa
  have hend : v = s₂ := by
    funext l
    by_cases la : l ∈ W a
    · have lb : l ∉ W b := fun hw =>
        hfree.1 l la (tb ▸ M.writes_subset _ _ (wb.symm ▸ hw))
      rw [hv l (wa.symm ▸ la), M.frame sb l (fun hw => lb (wb ▸ hw))]
    · rw [M.frame sv l (fun hw => la (wa' ▸ hw))]
      by_cases lb : l ∈ W b
      · exact hu l (wb.symm ▸ lb)
      · rw [M.frame su l (fun hw => lb (wb' ▸ hw)), M.frame sb l (fun hw => lb (wb ▸ hw)),
          M.frame sa l (fun hw => la (wa ▸ hw))]
  exact .cons fb tb' wb' su (.cons fa ta' wa' sv (hend ▸ rest))

theorem Traced.move_front {M : Machine I L V} {prog : List I} {T W : Nat → Set L} {b : Nat}
    {front ks : List Nat} {s t : L → V} (hfree : ∀ a ∈ front, Free T W a b)
    (h : Traced M prog T W (front ++ b :: ks) s t) :
    Traced M prog T W (b :: (front ++ ks)) s t := by
  induction front generalizing s with
  | nil => exact h
  | cons a front ih =>
      cases h with
      | cons fa ta wa sa rest =>
        have moved := ih (fun x hx => hfree x (mem_cons_of_mem a hx)) rest
        exact Traced.swap (hfree a mem_cons_self) (.cons fa ta wa sa moved)

theorem sublist_pair_of_mem_front {K : Type*} {a b : K} {front rest : List K} (ha : a ∈ front) :
    [a, b].Sublist (front ++ b :: rest) := by
  have left : [a].Sublist front := singleton_sublist.mpr ha
  exact left.append (singleton_sublist.mpr mem_cons_self)

theorem not_sublist_pair_head {K : Type*} {a b : K} {ks : List K} (hnodup : (b :: ks).Nodup) :
    ¬ [a, b].Sublist (b :: ks) := by
  intro h
  have hb : b ∉ ks := (nodup_cons.mp hnodup).1
  cases h with
  | cons _ h => exact hb (h.subset (by simp))
  | cons_cons _ h => exact hb (h.subset (by simp))

/-- A permutation that keeps the order of every pair whose footprints meet leaves the run
as it was, footprints included. -/
theorem Traced.reorder {M : Machine I L V} {prog : List I} {T W : Nat → Set L}
    {ks ks' : List Nat} {s t : L → V} (hperm : ks.Perm ks') (hnodup : ks.Nodup)
    (hkeep : ∀ a b, [a, b].Sublist ks → ¬ Free T W a b → [a, b].Sublist ks')
    (h : Traced M prog T W ks s t) : Traced M prog T W ks' s t := by
  -- the head of the new order is brought to the front of what is left of the old one
  induction ks' generalizing ks s with
  | nil =>
      rw [hperm.eq_nil] at h
      exact h
  | cons b ks' ih =>
      have hnodup' : (b :: ks').Nodup := hperm.nodup_iff.mp hnodup
      obtain ⟨front, rest, rfl⟩ := append_of_mem (hperm.mem_iff.mpr mem_cons_self)
      have hfree : ∀ a ∈ front, Free T W a b := by
        intro a ha
        by_contra hmeet
        exact not_sublist_pair_head hnodup' (hkeep a b (sublist_pair_of_mem_front ha) hmeet)
      cases Traced.move_front hfree h with
      | cons fb tb wb sb moved =>
        refine .cons fb tb wb sb (ih ?_ ?_ ?_ moved)
        · exact (perm_middle.symm.trans hperm).cons_inv
        · exact (nodup_middle.mp hnodup).of_cons
        · intro x y hxy hmeet
          have hxy' : [x, y].Sublist (front ++ b :: rest) :=
            hxy.trans (List.Sublist.append (List.Sublist.refl _) (sublist_cons_self b rest))
          cases hkeep x y hxy' hmeet with
          | cons _ hs => exact hs
          | cons_cons _ _ =>
            have hb : b ∉ front ++ rest := (nodup_cons.mp (nodup_middle.mp hnodup)).1
            exact absurd (hxy.subset (by simp)) hb

/-! ## The states of a run -/

/-- `σ k` is the state before position `k`. -/
def StatesOf (M : Machine I L V) (prog : List I) (σ : Nat → L → V) : Prop :=
  ∀ k i, prog[k]? = some i → M.step i (σ k) = some (σ (k + 1))

variable {M : Machine I L V}

theorem run_states {s t : L → V} (h : run M prog s = some t) :
    ∃ σ : Nat → L → V, σ 0 = s ∧ σ prog.length = t ∧ StatesOf M prog σ := by
  induction prog generalizing s with
  | nil =>
      refine ⟨fun _ => s, rfl, Option.some.inj h, fun k i hk => ?_⟩
      simp at hk
  | cons i prog ih =>
      obtain ⟨s', hs', hrest⟩ := Option.bind_eq_some_iff.mp h
      obtain ⟨σ, hzero, hend, hsteps⟩ := ih hrest
      refine ⟨fun k => k.casesOn s σ, rfl, hend, fun k j hk => ?_⟩
      cases k with
      | zero =>
          obtain rfl : i = j := by simpa using hk
          exact hs'.trans (congrArg some hzero.symm)
      | succ k => exact hsteps k j (by simpa using hk)

theorem StatesOf.run_take (h : StatesOf M prog σ) {k : Nat} (hk : k ≤ prog.length) :
    run M (prog.take k) (σ 0) = some (σ k) := by
  induction prog generalizing k σ with
  | nil =>
      obtain rfl : k = 0 := by simpa using hk
      rfl
  | cons i prog ih =>
      cases k with
      | zero => rfl
      | succ k =>
          rw [take_succ_cons, run, h 0 i rfl]
          exact ih (σ := fun n => σ (n + 1)) (k := k)
            (fun n j hn => h (n + 1) j (by simpa using hn)) (by simpa using hk)

theorem StatesOf.unchanged (h : StatesOf M prog σ) {a b : Nat} (hab : a ≤ b)
    (hb : b ≤ prog.length) {l : L}
    (hl : ∀ k i, a ≤ k → k < b → prog[k]? = some i → l ∉ M.writes i (σ k)) :
    σ b l = σ a l := by
  induction b, hab using Nat.le_induction with
  | base => rfl
  | succ b hle ih =>
      have hlt : b < prog.length := hb
      have hfound : prog[b]? = some prog[b] := getElem?_eq_getElem hlt
      rw [M.frame (h b _ hfound) l (hl b _ hle (Nat.lt_succ_self b) hfound)]
      exact ih hlt.le (fun k i hk hkb => hl k i hk (Nat.lt_succ_of_lt hkb))

/-- The footprints of the positions in a run. -/
def footprint (part : I → (L → V) → Set L) (prog : List I) (σ : Nat → L → V) (k : Nat) :
    Set L :=
  {l | ∃ i, prog[k]? = some i ∧ l ∈ part i (σ k)}

theorem footprint_eq {part : I → (L → V) → Set L} {k : Nat} {i : I} (hk : prog[k]? = some i) :
    footprint part prog σ k = part i (σ k) := by
  ext l
  constructor
  · rintro ⟨j, hj, hl⟩
    obtain rfl : i = j := Option.some.inj (hk.symm.trans hj)
    exact hl
  · intro hl
    exact ⟨i, hk, hl⟩

theorem StatesOf.traced {M : Machine I L V} {prog : List I} {σ : Nat → L → V}
    (h : StatesOf M prog σ) {k m : Nat} (hkm : k + m ≤ prog.length) :
    Traced M prog (footprint M.touches prog σ) (footprint M.writes prog σ)
      (range' k m) (σ k) (σ (k + m)) := by
  induction m generalizing k with
  | zero => exact .nil _
  | succ m ih =>
      have hlt : k < prog.length := by omega
      have hfound : prog[k]? = some prog[k] := getElem?_eq_getElem hlt
      have hrest := @ih (k + 1) (by omega)
      rw [show k + 1 + m = k + (m + 1) by omega] at hrest
      exact .cons hfound (footprint_eq hfound).symm (footprint_eq hfound).symm (h k _ hfound) hrest

/-- A run in an order that keeps every pair of meeting footprints ends where it did. -/
theorem StatesOf.run_reordered {M : Machine I L V} {prog : List I} {σ : Nat → L → V}
    (h : StatesOf M prog σ) {order : List Nat} (hperm : (range prog.length).Perm order)
    (hkeep : ∀ a b, a < b → b < prog.length →
      ¬ Free (footprint M.touches prog σ) (footprint M.writes prog σ) a b →
      [a, b].Sublist order) :
    run M (order.filterMap (prog[·]?)) (σ 0) = some (σ prog.length) := by
  have traced := h.traced (k := 0) (m := prog.length) (by omega)
  rw [Nat.zero_add, ← range_eq_range'] at traced
  refine (traced.reorder hperm nodup_range ?_).run_eq
  intro a b hab hmeet
  have hlt : a < b := by
    have hpair := pairwise_lt_range.sublist hab
    simpa using hpair
  exact hkeep a b hlt (mem_range.mp (hab.subset (by simp))) hmeet

end Brass.Footprint
