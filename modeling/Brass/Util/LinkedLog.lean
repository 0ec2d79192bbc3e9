import Mathlib.Data.List.Basic

/-!
# Logs with links

Every entry of a log may have a link to an earlier one. Going up the links finds the last entry
that passes a test, when no entry that passes it is between an entry that fails and the one its
link leads to (`climb_isLast`).

The entries of a `Linked` log are at ascending times, and an entry is in effect from its time to
some later one. The link leads to the last entry that was in effect at the time. Then the climb
finds the last entry that is in effect at any time (`Linked.climb`).
-/

namespace Brass.Util.LinkedLog

variable {link : Nat → Option Nat} {test : Nat → Bool} {valid P Q : Nat → Prop} {i k fuel : Nat}
  {o : Option Nat}

/-- `while (at >= 0 && !test(at)) at = link[at]`, with `none` for a negative number. -/
def climb (link : Nat → Option Nat) (test : Nat → Bool) : Nat → Option Nat → Option Nat
  | _, none => none
  | 0, some _ => none
  | fuel + 1, some i => if test i then some i else climb link test fuel (link i)

/-- The last number with a property, if there is one. -/
def IsLast (P : Nat → Prop) : Option Nat → Prop
  | some i => P i ∧ ∀ k, P k → k ≤ i
  | none => ∀ k, ¬ P k

theorem IsLast.congr (h : IsLast P o) (hPQ : ∀ k, P k ↔ Q k) : IsLast Q o := by
  have : P = Q := funext fun k => propext (hPQ k)
  exact this ▸ h

theorem IsLast.exists_ge (h : IsLast P o) (hk : P k) : ∃ i, o = some i ∧ k ≤ i := by
  cases o with
  | none => exact absurd hk (h k)
  | some i => exact ⟨i, rfl, h.2 k hk⟩

theorem climb_isLast (hlink : ∀ i j, valid i → link i = some j → j < i ∧ valid j)
    (hskip : ∀ i k, valid i → test i = false → valid k → test k = true → k < i →
      ∃ j, link i = some j ∧ k ≤ j)
    (hstart : ∀ i, o = some i → i < fuel ∧ valid i)
    (hall : ∀ k, valid k → test k = true → ∃ i, o = some i ∧ k ≤ i) :
    IsLast (fun k => valid k ∧ test k = true) (climb link test fuel o) := by
  induction fuel generalizing o with
  | zero =>
    cases o with
    | none => exact fun k hk => absurd (hall k hk.1 hk.2) (by simp)
    | some i => exact absurd (hstart i rfl).1 (Nat.not_lt_zero _)
  | succ fuel ih =>
    cases o with
    | none => exact fun k hk => absurd (hall k hk.1 hk.2) (by simp)
    | some i =>
      obtain ⟨hlt, hi⟩ := hstart i rfl
      have hle : ∀ k, valid k → test k = true → k ≤ i := fun k hk htest => by
        obtain ⟨j, hj, hkj⟩ := hall k hk htest
        rwa [Option.some.inj hj]
      unfold climb
      split
      · rename_i htest
        exact ⟨⟨hi, htest⟩, fun k hk => hle k hk.1 hk.2⟩
      · rename_i htest
        have hfails : test i = false := Bool.eq_false_iff.mpr htest
        refine ih (fun j hj => ?_) fun k hk hk' => ?_
        · obtain ⟨hji, hj'⟩ := hlink i j hi hj
          exact ⟨by omega, hj'⟩
        · refine hskip i k hi hfails hk hk' (Nat.lt_of_le_of_ne (hle k hk hk') ?_)
          rintro rfl
          exact htest hk'

/-! ## Entries that are in effect for a time -/

/-- An entry of the time `b` is in effect at the time `t`: it does not end before. -/
def InEffect (ends : Nat → Option Nat) (b t : Nat) : Prop := b ≤ t ∧ ∀ last ∈ ends b, t ≤ last

theorem InEffect.of_le {ends : Nat → Option Nat} {b c t : Nat} (h : InEffect ends b t)
    (hbc : b ≤ c) (hct : c ≤ t) : InEffect ends b c :=
  ⟨hbc, fun last hlast => Nat.le_trans hct (h.2 last hlast)⟩

variable {ends : Nat → Option Nat} {entry entry' : Nat → Option (Nat × Option Nat)} {b t n : Nat}
  {l : Option Nat}

/-- The entry `i` is in effect at the time `t`. -/
def EntryAt (ends : Nat → Option Nat) (entry : Nat → Option (Nat × Option Nat)) (t i : Nat) :
    Prop :=
  ∃ b l, entry i = some (b, l) ∧ InEffect ends b t

/-- A log given by the times and the links of its entries. -/
structure Linked (ends : Nat → Option Nat) (entry : Nat → Option (Nat × Option Nat)) : Prop where
  sorted : ∀ i j b b' l l', i < j → entry i = some (b, l) → entry j = some (b', l') → b < b'
  link : ∀ i b l, entry i = some (b, l) → IsLast (fun k => k < i ∧ EntryAt ends entry b k) l

theorem Linked.climb (h : Linked ends entry) (hlink : ∀ i b l, entry i = some (b, l) → link i = l)
    (htest : ∀ i b l, entry i = some (b, l) → b ≤ t → (test i = true ↔ InEffect ends b t))
    (hstart : ∀ i, o = some i → i < fuel ∧ ∃ b l, entry i = some (b, l) ∧ b ≤ t)
    (hall : ∀ k, EntryAt ends entry t k → ∃ i, o = some i ∧ k ≤ i) :
    IsLast (EntryAt ends entry t) (climb link test fuel o) := by
  have hvalid : ∀ k, (∃ b l, entry k = some (b, l) ∧ b ≤ t) ∧ test k = true ↔
      EntryAt ends entry t k := by
    intro k
    constructor
    · rintro ⟨⟨b, l, hk, hbt⟩, hpass⟩
      exact ⟨b, l, hk, (htest k b l hk hbt).mp hpass⟩
    · rintro ⟨b, l, hk, hin⟩
      exact ⟨⟨b, l, hk, hin.1⟩, (htest k b l hk hin.1).mpr hin⟩
  refine (climb_isLast ?_ ?_ hstart fun k hk hpass => hall k ((hvalid k).mp ⟨hk, hpass⟩)).congr
    hvalid
  · rintro i j ⟨b, l, hi, hbt⟩ hij
    rw [hlink i b l hi] at hij
    subst hij
    obtain ⟨⟨hlt, b', l', hj, hin⟩, -⟩ := h.link i b (some j) hi
    exact ⟨hlt, b', l', hj, Nat.le_trans hin.1 hbt⟩
  · rintro i k ⟨b, l, hi, hbt⟩ - ⟨b', l', hk, hbt'⟩ hpass hlt
    rw [hlink i b l hi]
    have hin := (htest k b' l' hk hbt').mp hpass
    have hless := h.sorted k i b' b l' l hlt hk hi
    exact (h.link i b l hi).exists_ge
      (show k < i ∧ EntryAt ends entry b k from ⟨hlt, b', l', hk, hin.of_le (Nat.le_of_lt hless) hbt⟩)

theorem Linked.congr {ends' : Nat → Option Nat} (h : Linked ends entry)
    (hends : ∀ i j b b' l l', entry i = some (b, l) → entry j = some (b', l') →
      (InEffect ends' b b' ↔ InEffect ends b b')) : Linked ends' entry where
  sorted := h.sorted
  link := fun i b l hi => (h.link i b l hi).congr fun k => and_congr_right fun _ => by
    constructor
    · rintro ⟨b', l', hk, hin⟩
      exact ⟨b', l', hk, (hends k i b' b l' l hk hi).mpr hin⟩
    · rintro ⟨b', l', hk, hin⟩
      exact ⟨b', l', hk, (hends k i b' b l' l hk hi).mp hin⟩

theorem Linked.push (h : Linked ends entry) (hlt : ∀ i b' l', entry i = some (b', l') → i < n ∧ b' < b)
    (hl : IsLast (EntryAt ends entry b) l) :
    Linked ends (Function.update entry n (some (b, l))) := by
  have hcases : ∀ i b' l', Function.update entry n (some (b, l)) i = some (b', l') →
      i = n ∧ b' = b ∧ l' = l ∨ i < n ∧ b' < b ∧ entry i = some (b', l') := by
    intro i b' l' hi
    by_cases hin : i = n
    · subst hin
      rw [Function.update_self, Option.some.injEq, Prod.mk.injEq] at hi
      exact Or.inl ⟨rfl, hi.1.symm, hi.2.symm⟩
    · rw [Function.update_of_ne hin] at hi
      obtain ⟨hlt₁, hlt₂⟩ := hlt i b' l' hi
      exact Or.inr ⟨hlt₁, hlt₂, hi⟩
  have hold : ∀ i c, i < n → (EntryAt ends (Function.update entry n (some (b, l))) c i ↔
      EntryAt ends entry c i) := by
    intro i c hi
    unfold EntryAt
    rw [Function.update_of_ne (by omega)]
  refine ⟨fun i j c c' m m' hij hi hj => ?_, fun i c m hi => ?_⟩
  · rcases hcases i c m hi with ⟨rfl, -, -⟩ | ⟨hin, hcb, hi⟩
    · rcases hcases j c' m' hj with ⟨rfl, -, -⟩ | ⟨hjn, -, -⟩
      · exact absurd hij (Nat.lt_irrefl _)
      · omega
    · rcases hcases j c' m' hj with ⟨-, rfl, -⟩ | ⟨-, -, hj⟩
      · exact hcb
      · exact h.sorted i j c c' m m' hij hi hj
  · rcases hcases i c m hi with ⟨rfl, rfl, rfl⟩ | ⟨hin, -, hi⟩
    · refine hl.congr fun k => ⟨fun hk => ?_, fun hk => (hold k c hk.1).mp hk.2⟩
      obtain ⟨b', l', hk', hin⟩ := hk
      have hkn := (hlt k b' l' hk').1
      exact ⟨hkn, (hold k c hkn).mpr ⟨b', l', hk', hin⟩⟩
    · refine (h.link i c m hi).congr fun k => and_congr_right fun hki => ?_
      exact (hold k c (by omega)).symm

/-- The entries may move, when they keep their order and the links follow them. -/
theorem Linked.move (h : Linked ends entry) {f : Nat → Nat}
    (hf : ∀ i j b b' l l', i < j → entry i = some (b, l) → entry j = some (b', l') → f i < f j)
    (hmove : ∀ i b l, entry i = some (b, l) → entry' (f i) = some (b, l.map f))
    (honly : ∀ j e, entry' j = some e → ∃ i b l, entry i = some (b, l) ∧ f i = j) :
    Linked ends entry' := by
  have hback : ∀ j b l', entry' j = some (b, l') →
      ∃ i l, entry i = some (b, l) ∧ f i = j ∧ l' = l.map f := by
    intro j b l' hj
    obtain ⟨i, b₁, l, hi, rfl⟩ := honly j _ hj
    have := hmove i b₁ l hi
    rw [hj, Option.some.injEq, Prod.mk.injEq] at this
    exact ⟨i, l, this.1 ▸ hi, rfl, this.2⟩
  have hlt : ∀ i j b b' l l', entry i = some (b, l) → entry j = some (b', l') →
      (f i < f j ↔ i < j) := by
    intro i j b b' l l' hi hj
    refine ⟨fun hij => ?_, fun hij => hf i j b b' l l' hij hi hj⟩
    rcases Nat.lt_trichotomy i j with hlt | rfl | hgt
    · exact hlt
    · exact absurd hij (Nat.lt_irrefl _)
    · have := hf j i b' b l' l hgt hj hi
      omega
  refine ⟨fun i j b b' l l' hij hi hj => ?_, fun i b l hi => ?_⟩
  · obtain ⟨i₀, m, hi₀, rfl, -⟩ := hback i b l hi
    obtain ⟨j₀, m', hj₀, rfl, -⟩ := hback j b' l' hj
    exact h.sorted i₀ j₀ b b' m m' ((hlt i₀ j₀ b b' m m' hi₀ hj₀).mp hij) hi₀ hj₀
  · obtain ⟨i₀, m, hi₀, rfl, rfl⟩ := hback i b l hi
    have hlast := h.link i₀ b m hi₀
    have hall : ∀ k, k < f i₀ ∧ EntryAt ends entry' b k →
        ∃ k₀, f k₀ = k ∧ k₀ < i₀ ∧ EntryAt ends entry b k₀ := by
      rintro k ⟨hki, c, l', hk, hin⟩
      obtain ⟨k₀, m', hk₀, rfl, -⟩ := hback k c l' hk
      exact ⟨k₀, rfl, (hlt k₀ i₀ c b m' m hk₀ hi₀).mp hki, c, m', hk₀, hin⟩
    cases m with
    | none =>
      intro k hk
      obtain ⟨k₀, -, hk₀⟩ := hall k hk
      exact hlast k₀ hk₀
    | some j =>
      obtain ⟨⟨hji, c, l', hj, hin⟩, hmax⟩ := hlast
      refine ⟨⟨(hlt j i₀ c b l' (some j) hj hi₀).mpr hji, c, l'.map f, hmove j c l' hj, hin⟩,
        fun k hk => ?_⟩
      obtain ⟨k₀, rfl, hk₀i, d, l'', hk₀, hin'⟩ := hall k hk
      rcases Nat.lt_or_eq_of_le (hmax k₀ ⟨hk₀i, d, l'', hk₀, hin'⟩) with hkj | rfl
      · exact Nat.le_of_lt (hf k₀ j d c l'' l' hkj hk₀ hj)
      · exact Nat.le_refl _

end Brass.Util.LinkedLog
