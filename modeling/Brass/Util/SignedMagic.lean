import Brass.Util.MagicDivision

/-!
# Signed division by multiplication

The multiplier `m = P / d + 1` of `Magic` also divides negative numbers, after one is added to
the quotient (`mul_ediv_add_sign`). Only `-B`, the negative number that has no positive
counterpart, needs an argument of its own: `P` is a multiple of `B`, and `d` does not divide `B`.
-/

namespace Brass.Util.Magic

variable {d m P δ B K x : Nat}

theorem two_mul_div (hd : 0 < d) : 2 * x / d = 2 * (x / d) + if d ≤ 2 * (x % d) then 1 else 0 := by
  have hr := Nat.mod_lt x hd
  have hsplit : 2 * x = 2 * (x % d) + d * (2 * (x / d)) := by
    have := Nat.mod_add_div x d
    calc 2 * x = 2 * (x % d + d * (x / d)) := by rw [this]
      _ = 2 * (x % d) + d * (2 * (x / d)) := by ring
  rw [hsplit, Nat.add_mul_div_left _ _ hd, Nat.add_comm]
  congr 1
  split
  · exact Nat.div_eq_of_lt_le (by omega) (by omega)
  · exact Nat.div_eq_of_lt (by omega)

theorem two_mul_mod (hd : 0 < d) : 2 * x % d = 2 * (x % d) - if d ≤ 2 * (x % d) then d else 0 := by
  have hr := Nat.mod_lt x hd
  rw [← Nat.mod_add_div x d, Nat.mul_add, Nat.mul_left_comm, Nat.add_mul_mod_self_left,
    Nat.add_mul_mod_self_left, Nat.mod_mod]
  split
  · rw [Nat.mod_eq_sub_mod (by omega), Nat.mod_eq_of_lt (by omega)]
  · rw [Nat.mod_eq_of_lt (by omega), Nat.sub_zero]

theorem quotient_le_iff (hd : 0 < d) : x / d < δ ∨ (x / d = δ ∧ x % d = 0) ↔ x ≤ d * δ := by
  have hr := Nat.mod_lt x hd
  have hsplit := Nat.mod_add_div x d
  constructor
  · rintro (hlt | ⟨heq, hz⟩)
    · have : d * (x / d + 1) ≤ d * δ := Nat.mul_le_mul_left d hlt
      rw [Nat.mul_add] at this
      omega
    · rw [heq, hz] at hsplit
      omega
  · intro hle
    have hq : x / d ≤ δ := Nat.div_le_of_le_mul hle
    rcases Nat.lt_or_eq_of_le hq with hlt | heq
    · exact Or.inl hlt
    · rw [heq] at hsplit
      exact Or.inr ⟨heq, by omega⟩

theorem div_mul_lt (hm : m * d = P + δ) (hδ : 0 < δ) (hx : 0 < x) : x / d * P < x * m := by
  have hdiv : x / d * d ≤ x := Nat.div_mul_le_self x d
  apply Nat.lt_of_mul_lt_mul_left (a := d)
  calc d * (x / d * P) = x / d * d * P := by ring
    _ ≤ x * P := Nat.mul_le_mul_right P hdiv
    _ < x * P + x * δ := Nat.lt_add_of_pos_right (Nat.mul_pos hx hδ)
    _ = x * (m * d) := by rw [hm]; ring
    _ = d * (x * m) := by ring

/-- The product for `B` itself, which is one above the bound of `mul_div_eq_div`. -/
theorem mul_le_last (hd : 0 < d) (hm : m * d = P + δ) (hδ : δ = d - P % d) (hP : P = B * K)
    (hK : 0 < K) (hdB : d ≤ B) (hB : B % d ≠ 0) (hnc : (B - 1 - B % d) * δ < P) :
    B * m ≤ (B / d + 1) * P := by
  have hr := Nat.mod_lt B hd
  have hsplit := Nat.div_add_mod B d
  have hquot : 1 ≤ B / d := Nat.div_pos hdB hd
  suffices h : B * δ ≤ (d - B % d) * P by
    refine Nat.le_of_mul_le_mul_left (a := B * m) ?_ hd
    have hrest : d - B % d + B = d * (B / d + 1) := by
      rw [Nat.mul_add]
      omega
    calc d * (B * m) = B * (m * d) := by ring
      _ = B * P + B * δ := by rw [hm]; ring
      _ ≤ B * P + (d - B % d) * P := by omega
      _ = (d - B % d + B) * P := by ring
      _ = d * ((B / d + 1) * P) := by rw [hrest]; ring
  by_cases hlast : B % d = d - 1
  · -- `B` is one below a multiple of `d`, so `δ` is `K` up to a multiple of `d`.
    have hle : δ ≤ K := by
      rcases Nat.lt_or_ge K d with hlt | hge
      · have hmul : ∃ Q, P = d * Q + (d - K) := by
          obtain ⟨k, rfl⟩ : ∃ k, K = k + 1 := ⟨K - 1, by omega⟩
          obtain ⟨e, rfl⟩ : ∃ e, d = e + 1 + k := ⟨d - 1 - k, by omega⟩
          refine ⟨B / (e + 1 + k) * (k + 1) + k, ?_⟩
          generalize B / (e + 1 + k) = q at hsplit
          rw [hP, ← hsplit, hlast, show e + 1 + k - 1 = e + k by omega,
            show e + 1 + k - (k + 1) = e by omega]
          ring
        have hmod : P % d = d - K := by
          obtain ⟨Q, hQ⟩ := hmul
          rw [hQ, Nat.mul_add_mod, Nat.mod_eq_of_lt (by omega)]
        omega
      · have := Nat.mod_lt P hd
        omega
    rw [hlast, show d - (d - 1) = 1 by omega, Nat.one_mul, hP]
    exact Nat.mul_le_mul_left B hle
  · have hgap : B % d + 1 ≤ B - 1 - B % d := by
      have : d * 1 ≤ d * (B / d) := Nat.mul_le_mul_left d hquot
      omega
    have hsmall : (B % d + 1) * δ < P :=
      Nat.lt_of_le_of_lt (Nat.mul_le_mul_right δ hgap) hnc
    have hsum : B * δ = (B - 1 - B % d) * δ + (B % d + 1) * δ := by
      rw [← Nat.add_mul]
      congr 1
      omega
    calc B * δ ≤ 2 * P := by omega
      _ ≤ (d - B % d) * P := Nat.mul_le_mul_right P (by omega)

theorem neg_ediv {q y : Nat} (hP : 0 < P) (hlow : q * P < y) (hhigh : y ≤ (q + 1) * P) :
    -(y : Int) / P = -(q + 1 : Nat) := by
  have hhigh' : (y : Int) ≤ (q + 1 : Nat) * P := by exact_mod_cast hhigh
  apply le_antisymm
  · have : -(y : Int) / P < -(q : Int) := by
      apply Int.ediv_lt_of_lt_mul (by exact_mod_cast hP)
      linarith
    push_cast
    omega
  · apply Int.le_ediv_of_mul_le (by exact_mod_cast hP)
    linarith

theorem mul_ediv_add_sign {n : Int} (hd : 0 < d) (hm : m * d = P + δ) (hδ : δ = d - P % d)
    (hP : P = B * K) (hK : 0 < K) (hdB : d ≤ B) (hB : B % d ≠ 0)
    (hnc : (B - 1 - B % d) * δ < P) (hlow : -(B : Int) ≤ n) (hhigh : n < B) :
    n * m / P + (if n < 0 then 1 else 0) = n.tdiv d := by
  have hBpos : 0 < B := by omega
  have hPpos : 0 < P := by
    rw [hP]
    exact Nat.mul_pos hBpos hK
  have hsub : B - 1 + 1 = B := by omega
  have hsmall : ∀ x ≤ B - 1, x * m / P = x / d := fun x hx =>
    mul_div_eq_div hd hm (by omega) (by rw [hsub]; exact hnc) hx
  rcases Int.lt_or_le n 0 with hneg | hpos
  · obtain ⟨x, rfl⟩ : ∃ x : Nat, n = -(x : Int) := ⟨n.natAbs, by omega⟩
    have hx : 0 < x := by omega
    have hδpos : 0 < δ := by
      have := Nat.mod_lt P hd
      omega
    have hbelow := div_mul_lt hm hδpos hx
    have habove : x * m ≤ (x / d + 1) * P := by
      rcases Nat.lt_or_ge x B with hlt | hge
      · rw [← hsmall x (by omega)]
        exact (Nat.lt_mul_of_div_lt (Nat.lt_succ_self _) hPpos).le
      · obtain rfl : x = B := by omega
        exact mul_le_last hd hm hδ hP hK hdB hB hnc
    have hcast : -(x : Int) * m = -((x * m : Nat) : Int) := by
      push_cast
      ring
    rw [if_pos hneg, hcast, neg_ediv hPpos hbelow habove, Int.neg_tdiv]
    have : (x : Int).tdiv d = (x / d : Nat) := rfl
    rw [this]
    push_cast
    ring
  · obtain ⟨x, rfl⟩ : ∃ x : Nat, n = x := ⟨n.toNat, by omega⟩
    rw [if_neg (by omega), Int.add_zero]
    have hdiv := hsmall x (by omega)
    have hcast : (x : Int) * m / P = (x * m / P : Nat) := by push_cast; rfl
    rw [hcast, hdiv]
    rfl

end Brass.Util.Magic
