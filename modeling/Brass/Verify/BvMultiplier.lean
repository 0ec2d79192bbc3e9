import Mathlib.Data.List.GetD
import Brass.Verify.BvAdder

/-!
# Products of words

Partial products are added one by one: after the bits below `i` of the second factor the
sum is the product with `y % 2 ^ i`, and the flag says whether that product has lost a bit.
-/

namespace Brass.Verify.Bv

open Brass.Util.Cnf Brass.Verify.Cdcl

variable {D : Doubles} {s t : Solver D} {β : Nat → Bool} {w : Nat} {x y : BitVec w}
  {a b : List Lit}

theorem Word.congr {z : BitVec w} (h : Word β s a x) (hz : s.Model β → x = z) : Word β s a z :=
  ⟨h.length, fun i => ⟨(h.bit i).range, fun hβ => by rw [← hz hβ]; exact (h.bit i).value hβ⟩⟩

theorem Means.congr {l : Lit} {p q : Bool} (h : Means β s l p) (hq : s.Model β → p = q) :
    Means β s l q := ⟨h.range, fun hβ => (h.value hβ).trans (hq hβ)⟩

/-! ## Partial products -/

/-- The places of a partial product: those of the first `j` bits of `X` are filled, moved up
by `i` places. -/
structure Filled (β : Nat → Bool) (t : Solver D) (w X i : Nat) (c : Bool) (j : Nat)
    (part : List Lit) : Prop where
  length : part.length = w
  bit : ∀ k < w, Means β t (bitAt part k)
    (decide (i ≤ k ∧ k < i + j) && (X.testBit (k - i) && c))

variable {X i j : Nat} {c : Bool} {part : List Lit}

theorem Filled.mono (h : Filled β s w X i c j part) (hst : s.Conservative t) :
    Filled β t w X i c j part := ⟨h.length, fun k hk => (h.bit k hk).mono hst⟩

theorem filled_zero (hs : s.Gates) : Filled β s w X i c 0 (zeros w) := by
  refine ⟨by simp [zeros], fun k hk => ?_⟩
  rw [bitAt_zeros, decide_eq_false (by omega : ¬ (i ≤ k ∧ k < i + 0)), Bool.false_and]
  exact means_false hs

theorem Filled.set (h : Filled β s w X i c j part) (hij : i + j < w) {l : Lit}
    (hl : Means β s l (X.testBit j && c)) : Filled β s w X i c (j + 1) (part.set (i + j) l) := by
  refine ⟨by simp [h.length], fun k hk => ?_⟩
  rw [bitAt_set (by rw [h.length]; exact hij)]
  by_cases hkj : i + j = k
  · rw [if_pos hkj, decide_eq_true (by omega : i ≤ k ∧ k < i + (j + 1)), Bool.true_and,
      show k - i = j by omega]
    exact hl
  · rw [if_neg hkj, decide_eq_decide.mpr (by omega :
      (i ≤ k ∧ k < i + (j + 1)) ↔ (i ≤ k ∧ k < i + j))]
    exact h.bit k hk

theorem Filled.drop (h : Filled β s w X i c j part) (hij : ¬ i + j < w) :
    Filled β s w X i c (j + 1) part := by
  refine ⟨h.length, fun k hk => ?_⟩
  rw [decide_eq_decide.mpr (by omega : (i ≤ k ∧ k < i + (j + 1)) ↔ (i ≤ k ∧ k < i + j))]
  exact h.bit k hk

theorem testBit_partial (X i k : Nat) (c : Bool) :
    (X * (2 ^ i * c.toNat)).testBit k = (decide (i ≤ k) && (X.testBit (k - i) && c)) := by
  cases c with
  | false => simp
  | true => simp [Nat.testBit_mul_two_pow]

theorem Filled.word (h : Filled β s w X i c j part) (hs : s.Gates) (hX : X < 2 ^ j) :
    Word β s part (BitVec.ofNat w (X * (2 ^ i * c.toNat))) := by
  refine word_of_lt hs h.length (fun k hk => ?_)
  rw [BitVec.getLsbD_ofNat, decide_eq_true hk, Bool.true_and, testBit_partial]
  refine (h.bit k hk).congr (fun _ => ?_)
  by_cases hkj : k < i + j
  · rw [decide_eq_decide.mpr (by omega : (i ≤ k ∧ k < i + j) ↔ i ≤ k)]
  · have hbit : X.testBit (k - i) = false :=
      Nat.testBit_lt_two_pow (lt_of_lt_of_le hX (Nat.pow_le_pow_right (by decide) (by omega)))
    rw [hbit]
    simp

theorem runs_fill (hs : s.Gates) {n off : Nat}
    (ha : ∀ j < n, Means β s (bitAt a (off + j)) (X.testBit j)) {l : Lit} (hl : Means β s l c) :
    Runs (Circuit.loop (fun j part =>
      if i + j < w then do
        let l ← Circuit.mkAnd (bitAt a (off + j)) l
        pure (part.set (i + j) l)
      else pure part) n (zeros w)) s (fun part t => Filled β t w X i c n part) := by
  refine runs_loop (fun j part t => Filled β t w X i c j part) hs (filled_zero hs)
    (fun j part t hj ht hst h => ?_)
  split
  · rename_i hij
    exact runs_bind (runs_mkAnd ht ((ha j hj).mono hst) (hl.mono hst))
      (fun l u hu htu hl => runs_pure hu ((h.mono htu).set hij hl))
  · rename_i hij
    exact runs_pure ht (h.drop hij)

/-! ## Products -/

theorem mod_two_pow_succ (y i : Nat) :
    y % 2 ^ (i + 1) = y % 2 ^ i + 2 ^ i * (y.testBit i).toNat := by
  rw [Nat.mod_pow_succ, Nat.toNat_testBit]

theorem mul_mod_succ (X y i : Nat) :
    X * (y % 2 ^ (i + 1)) = X * (y % 2 ^ i) + X * (2 ^ i * (y.testBit i).toNat) := by
  rw [mod_two_pow_succ, Nat.mul_add]

theorem Word.mul_next {acc : List Lit} (h : Word β s acc (BitVec.ofNat w (X * (y.toNat % 2 ^ i))))
    (hbit : s.Model β → y.getLsbD i = false) :
    Word β s acc (BitVec.ofNat w (X * (y.toNat % 2 ^ (i + 1)))) := by
  refine h.congr (fun hβ => ?_)
  rw [mul_mod_succ, show y.toNat.testBit i = false from hbit hβ]
  simp

/-- The product of the number `X` in the bits of `a` from `off` on with the lowest `m` bits
of `y`. -/
theorem runs_mulHalf (hs : s.Gates) {off n : Nat} (hX : X < 2 ^ n)
    (ha : ∀ j < n, Means β s (bitAt a (off + j)) (X.testBit j)) (hb : Word β s b y) (m : Nat) :
    Runs (mulHalf a b w off n m) s
      (fun out t => Word β t out (BitVec.ofNat w (X * (y.toNat % 2 ^ m)))) := by
  refine runs_loop (fun i acc t => Word β t acc (BitVec.ofNat w (X * (y.toNat % 2 ^ i)))) hs
    ?_ (fun i acc t _ ht hst h => ?_)
  · simpa [Nat.mod_one] using word_zeros hs w
  · have hbi := (hb.bit i).mono hst
    split
    · rename_i hfalse
      rw [hfalse] at hbi
      exact runs_pure ht (h.mul_next (hbi.of_false ht))
    · refine runs_bind (runs_fill ht (fun j hj => (ha j hj).mono hst) hbi)
        (fun part u hu htu hpart => ?_)
      refine runs_bind (runs_add hu (h.mono htu) (hpart.word hu hX))
        (fun next v hv _ hnext => runs_pure hv ?_)
      rw [mul_mod_succ, BitVec.ofNat_add]
      exact hnext

theorem toNat_div_mod_two_pow (x k n j : Nat) (hj : j < n) :
    (x / 2 ^ k % 2 ^ n).testBit j = x.testBit (k + j) := by
  rw [Nat.testBit_mod_two_pow, decide_eq_true hj, Bool.true_and, Nat.testBit_div_two_pow,
    Nat.add_comm]

/-- A product of 32 bits from the two halves of the first factor. -/
theorem mul_halves (x y : BitVec 32) : BitVec.ofNat 32 (x.toNat % 2 ^ 16 * (y.toNat % 2 ^ 32)) +
      BitVec.ofNat 32 (x.toNat / 2 ^ 16 % 2 ^ 16 * (y.toNat % 2 ^ 16)) <<< 16 = x * y := by
  apply BitVec.eq_of_toNat_eq
  have hx := x.isLt
  have hhi : x.toNat / 2 ^ 16 % 2 ^ 16 = x.toNat / 2 ^ 16 :=
    Nat.mod_eq_of_lt (by omega)
  have hmod : x.toNat / 2 ^ 16 * (y.toNat % 2 ^ 16) * 2 ^ 16 ≡
      x.toNat / 2 ^ 16 * y.toNat * 2 ^ 16 [MOD 2 ^ 32] := by
    rw [show (2 : Nat) ^ 32 = 2 ^ 16 * 2 ^ 16 by norm_num]
    exact Nat.ModEq.mul_right' _ (Nat.ModEq.mul_left _ (Nat.mod_modEq _ _))
  have hsplit : x.toNat % 2 ^ 16 + x.toNat / 2 ^ 16 * 2 ^ 16 = x.toNat := by omega
  rw [BitVec.toNat_add, BitVec.toNat_shiftLeft, BitVec.toNat_ofNat, BitVec.toNat_ofNat,
    BitVec.toNat_mul, hhi, Nat.mod_eq_of_lt y.isLt, Nat.shiftLeft_eq, Nat.mod_mul_mod]
  rw [← Nat.add_mod]
  refine Nat.ModEq.trans (Nat.ModEq.add_left _ hmod) ?_
  have heq : x.toNat % 2 ^ 16 * y.toNat + x.toNat / 2 ^ 16 * y.toNat * 2 ^ 16 =
      x.toNat * y.toNat := by
    calc x.toNat % 2 ^ 16 * y.toNat + x.toNat / 2 ^ 16 * y.toNat * 2 ^ 16
        = (x.toNat % 2 ^ 16 + x.toNat / 2 ^ 16 * 2 ^ 16) * y.toNat := by ring
      _ = x.toNat * y.toNat := by rw [hsplit]
  rw [heq]

theorem word_shift_half (hs : s.Gates) {hi : List Lit} {z : BitVec 32} (h : Word β s hi z) :
    Word β s (zeros 16 ++ (List.range 16).map (bitAt hi)) (z <<< 16) := by
  refine word_of_lt hs (by simp [zeros]) (fun i hi' => ?_)
  rw [BitVec.getLsbD_shiftLeft, decide_eq_true hi', Bool.true_and]
  by_cases hlow : i < 16
  · have hbit : bitAt (zeros 16 ++ (List.range 16).map (bitAt hi)) i = falseLit := by
      rw [bitAt, List.getD_append _ _ _ _ (by simp [zeros]; omega)]
      exact bitAt_zeros 16 i
    rw [hbit, decide_eq_true hlow]
    exact means_false hs
  · have hbit : bitAt (zeros 16 ++ (List.range 16).map (bitAt hi)) i = bitAt hi (i - 16) := by
      rw [bitAt, List.getD_append_right _ _ _ _ (by simp [zeros]; omega)]
      simp only [zeros, List.length_replicate]
      exact bitAt_map_range (by omega)
    rw [hbit, decide_eq_false hlow]
    exact h.bit (i - 16)

theorem runs_blastMul (hs : s.Gates) (ha : Word β s a x) (hb : Word β s b y) :
    Runs (blastMul a b w) s (fun out t => Word β t out (x * y)) := by
  unfold blastMul
  split
  · rename_i hw
    obtain ⟨rfl, -⟩ := hw
    refine runs_bind (runs_mulHalf hs (X := x.toNat % 2 ^ 16) (Nat.mod_lt _ (by decide))
      (fun j hj => ?_) hb 32) (fun lo t ht hst hlo => ?_)
    · have hbit := ha.bit (0 + j)
      rw [Nat.testBit_mod_two_pow, decide_eq_true hj, Bool.true_and]
      rwa [Nat.zero_add] at hbit ⊢
    refine runs_bind (runs_mulHalf ht (X := x.toNat / 2 ^ 16 % 2 ^ 16) (Nat.mod_lt _ (by decide))
      (fun j hj => ?_) (hb.mono hst) 16) (fun hi u hu htu hhi => ?_)
    · rw [toNat_div_mod_two_pow _ _ _ _ hj]
      exact (ha.bit (16 + j)).mono hst
    refine runs_bind (runs_add hu (hlo.mono htu) (word_shift_half hu hhi))
      (fun r v hv _ hr => runs_pure hv ?_)
    rwa [mul_halves] at hr
  · refine (runs_mulHalf hs (X := x.toNat) x.isLt (fun j _ => ?_) hb w).mono
      (fun out t _ _ hout => ?_)
    · rw [Nat.zero_add]
      exact ha.bit j
    · rw [Nat.mod_eq_of_lt y.isLt, BitVec.ofNat_mul, BitVec.ofNat_toNat, BitVec.ofNat_toNat,
        BitVec.setWidth_eq, BitVec.setWidth_eq] at hout
      exact hout

/-! ## Lost bits -/

theorem lost_next (w x i j : Nat) (hij : ¬ i + j < w) : decide (2 ^ w ≤ x % 2 ^ (j + 1) * 2 ^ i) =
      (decide (2 ^ w ≤ x % 2 ^ j * 2 ^ i) || x.testBit j) := by
  rw [mod_two_pow_succ]
  cases hx : x.testBit j with
  | false => simp
  | true =>
    have hpow : 2 ^ w ≤ 2 ^ j * 2 ^ i := by
      rw [← Nat.pow_add]
      exact Nat.pow_le_pow_right (by decide) (by omega)
    have : 2 ^ w ≤ (x % 2 ^ j + 2 ^ j * true.toNat) * 2 ^ i := by
      rw [Nat.add_mul]
      simp only [Bool.toNat_true, Nat.mul_one]
      omega
    simpa using this

theorem not_lost (w x i j : Nat) (hij : i + j ≤ w) : ¬ 2 ^ w ≤ x % 2 ^ j * 2 ^ i := by
  have hlt : x % 2 ^ j * 2 ^ i < 2 ^ j * 2 ^ i :=
    Nat.mul_lt_mul_of_pos_right (Nat.mod_lt _ (Nat.two_pow_pos j)) (Nat.two_pow_pos i)
  have hle : 2 ^ j * 2 ^ i ≤ 2 ^ w := by
    rw [← Nat.pow_add]
    exact Nat.pow_le_pow_right (by decide) (by omega)
  omega

theorem runs_umulPartial (hs : s.Gates) (ha : Word β s a x) {l ovf : Lit} {p : Bool}
    (hl : Means β s l c) (hovf : Means β s ovf p) (i : Nat) :
    Runs (umulPartial a l w i ovf) s (fun (r : List Lit × Lit) t =>
      Word β t r.1 (BitVec.ofNat w (x.toNat * (2 ^ i * c.toNat))) ∧
        Means β t r.2 (p || (decide (2 ^ w ≤ x.toNat * 2 ^ i) && c))) := by
  have hloop : Runs (umulPartial a l w i ovf) s (fun (r : List Lit × Lit) t =>
      Filled β t w x.toNat i c w r.1 ∧
        Means β t r.2 (p || (decide (2 ^ w ≤ x.toNat % 2 ^ w * 2 ^ i) && c))) := by
    refine runs_loop (fun j (r : List Lit × Lit) t => Filled β t w x.toNat i c j r.1 ∧
      Means β t r.2 (p || (decide (2 ^ w ≤ x.toNat % 2 ^ j * 2 ^ i) && c))) hs
      ⟨filled_zero hs, ?_⟩ (fun j r t hj ht hst h => ?_)
    · simpa [Nat.mod_one] using hovf
    · obtain ⟨hpart, hlost⟩ := h
      refine runs_bind (runs_mkAnd ht ((ha.bit j).mono hst) (hl.mono hst)) (fun q u hu htu hq => ?_)
      split
      · rename_i hij
        refine runs_pure hu ⟨(hpart.mono htu).set hij hq, ?_⟩
        rw [decide_eq_false (not_lost w x.toNat i (j + 1) (by omega)),
          ← decide_eq_false (not_lost w x.toNat i j (by omega))]
        exact hlost.mono htu
      · rename_i hij
        refine runs_bind (runs_mkOr hu (hlost.mono htu) hq) (fun o v hv huv ho => ?_)
        refine runs_pure hv ⟨((hpart.mono htu).mono huv).drop hij, ho.congr (fun _ => ?_)⟩
        rw [lost_next w x.toNat i j hij, BitVec.getLsbD, Bool.or_assoc, ← Bool.and_or_distrib_right]
  refine hloop.mono (fun r t ht _ h => ⟨h.1.word ht x.isLt, ?_⟩)
  have h2 := h.2
  rwa [Nat.mod_eq_of_lt x.isLt] at h2

theorem overflow_add (w A B : Nat) : decide (2 ^ w ≤ A + B) =
    (decide (2 ^ w ≤ A) || decide (2 ^ w ≤ B) || decide (2 ^ w ≤ A % 2 ^ w + B % 2 ^ w)) := by
  rw [Bool.eq_iff_iff]
  simp only [Bool.or_eq_true, decide_eq_true_eq]
  have hA := Nat.mod_le A (2 ^ w)
  have hB := Nat.mod_le B (2 ^ w)
  constructor
  · intro h
    by_cases hA' : 2 ^ w ≤ A
    · exact Or.inl (Or.inl hA')
    · by_cases hB' : 2 ^ w ≤ B
      · exact Or.inl (Or.inr hB')
      · rw [Nat.mod_eq_of_lt (by omega), Nat.mod_eq_of_lt (by omega)]
        exact Or.inr h
  · omega

theorem runs_blastUmul (hs : s.Gates) (ha : Word β s a x) (hb : Word β s b y) :
    Runs (blastUmul a b) s (fun r t => Word β t r.1 (x * y) ∧
      Means β t r.2 (decide (2 ^ w ≤ x.toNat * y.toNat))) := by
  unfold blastUmul
  rw [ha.length, hb.length, Nat.max_self]
  refine (runs_loop (fun i r t =>
    Word β t r.1 (BitVec.ofNat w (x.toNat * (y.toNat % 2 ^ i))) ∧
      Means β t r.2 (decide (2 ^ w ≤ x.toNat * (y.toNat % 2 ^ i)))) hs ?_
    (fun i r t _ ht hst h => ?_)).mono (fun r t _ _ h => ?_)
  · refine ⟨by simpa [Nat.mod_one] using word_zeros hs w, ?_⟩
    rw [decide_eq_false (by have := Nat.two_pow_pos w; simp [Nat.mod_one])]
    exact means_false hs
  · obtain ⟨hacc, hovf⟩ := h
    have hbi := (hb.bit i).mono hst
    dsimp only
    split
    · rename_i hfalse
      rw [hfalse] at hbi
      refine runs_pure ht ⟨hacc.mul_next (hbi.of_false ht), hovf.congr (fun hβ => ?_)⟩
      rw [mul_mod_succ, show y.toNat.testBit i = false from hbi.of_false ht hβ]
      simp
    · refine runs_bind (runs_umulPartial ht (ha.mono hst) hbi hovf i) (fun p u hu htu hp => ?_)
      refine runs_bind (runs_addAdder hu (hacc.mono htu) hp.1 (means_false hu) true)
        (fun next v hv huv hnext => ?_)
      refine runs_bind (runs_mkOr hv (hp.2.mono huv) (hnext.carry rfl))
        (fun o z hz hvz ho => runs_pure hz ⟨?_, ho.congr (fun _ => ?_)⟩)
      · rw [mul_mod_succ, BitVec.ofNat_add]
        have := hnext.sum.mono hvz
        rwa [setWidth_ofBool_false, BitVec.add_zero] at this
      · rw [mul_mod_succ, overflow_add, BitVec.getLsbD]
        congr 1
        · congr 1
          cases y.toNat.testBit i <;> simp
        · rw [BitVec.carry, BitVec.toNat_ofNat, BitVec.toNat_ofNat, Nat.mod_mod, Nat.mod_mod]
          simp
  · rw [Nat.mod_eq_of_lt y.isLt] at h
    refine ⟨?_, h.2⟩
    have h1 := h.1
    rwa [BitVec.ofNat_mul, BitVec.ofNat_toNat, BitVec.ofNat_toNat,
      BitVec.setWidth_eq, BitVec.setWidth_eq] at h1

end Brass.Verify.Bv
