import Brass.Verify.BvDivider

/-!
# Shifts and counts

A barrel shifter moves a word by `2 ^ s` places in its stage `s`. Leading and trailing zeros
are found by visiting the bits in turn: the last one that is set decides.
-/

namespace Brass.Verify.Bv

open Brass.Util.Cnf Brass.Verify.Cdcl BitVec

variable {D : Doubles} {s t : Solver D} {β : Nat → Bool} {w : Nat} {x : BitVec w}
  {a b : List Lit}

/-! ## Shifts -/

variable {op : BVOp} {k n : Nat} {p : Nat → Bool} {v : U64}

theorem shift_add (hop : isShift op = true) (x : BitVec w) (m n : Nat) :
    shift op x (m + n) = shift op (shift op x m) n := by
  cases op <;> first | exact absurd hop (by decide) | skip
  · exact shiftLeft_add x m n
  · exact shiftRight_add x m n
  · exact sshiftRight_add

theorem means_shifted (hs : s.Gates) (hop : isShift op = true) (ha : Word β s a x) (step : Nat)
    {i : Nat} (hi : i < w) :
    Means β s (if op = .shl then (if i ≥ step then bitAt a (i - step) else falseLit)
        else if i + step < w then bitAt a (i + step)
        else if op = .ashr then bitAt a (w - 1) else falseLit)
      ((shift op x step).getLsbD i) := by
  cases op <;> first | exact absurd hop (by decide) | skip
  · rw [if_pos rfl, shift, getLsbD_shiftLeft, decide_eq_true hi, Bool.true_and]
    split
    · rw [decide_eq_false (by omega)]
      exact ha.bit (i - step)
    · rw [decide_eq_true (by omega)]
      exact means_false hs
  · rw [if_neg (show BVOp.lshr ≠ .shl by decide), if_neg (show BVOp.lshr ≠ .ashr by decide), shift,
      getLsbD_ushiftRight, Nat.add_comm step i]
    split
    · exact ha.bit (i + step)
    · rw [getLsbD_of_ge x _ (by omega)]
      exact means_false hs
  · rw [if_neg (show BVOp.ashr ≠ .shl by decide), if_pos rfl, shift, getLsbD_sshiftRight,
      decide_eq_false (by omega), Bool.not_false, Bool.true_and, Nat.add_comm step i]
    split
    · exact ha.bit (i + step)
    · rw [← getLsbD_last]
      exact ha.bit (w - 1)

theorem stage_amount (amount n : Nat) :
    amount % 2 ^ (n + 1) = amount % 2 ^ n + if amount.testBit n then 2 ^ n else 0 := by
  rw [mod_two_pow_succ]
  cases amount.testBit n <;> simp

theorem runs_shiftStage (ht : t.Gates) (hop : isShift op = true) {z : BitVec k}
    (hb : Word β t b z) {amount : Nat} (hamount : amount = z.toNat &&& shiftMask w)
    {cur : List Lit} (hcur : Word β t cur (shift op x (amount % 2 ^ n))) :
    Runs (shiftStage op b w n cur) t
      (fun out u => Word β u out (shift op x (amount % 2 ^ (n + 1)))) := by
  have hbit : amount.testBit n = (z.getLsbD n && (shiftMask w).testBit n) := by
    rw [hamount, Nat.testBit_and]
    rfl
  rw [stage_amount]
  unfold shiftStage
  split
  · rename_i hsel
    rw [hsel.2.1, Bool.and_true] at hbit
    refine runs_build ht (fun i u hi hu htu => ?_)
    have hstep := means_shifted hu hop (hcur.mono htu) (2 ^ n) hi
    refine (runs_mkIte hu ((hb.bit n).mono htu) hstep ((hcur.bit i).mono htu)).gate (fun _ => ?_)
    rw [hbit]
    cases z.getLsbD n with
    | false => simp
    | true => simp [shift_add hop]
  · rename_i hskip
    refine runs_pure ht (hcur.congr (fun hβ => ?_))
    -- A stage is left out if its bit is outside the amount, masked or known to be 0.
    have hzero : amount.testBit n = false := by
      rw [hbit]
      by_cases hlen : n < b.length
      · by_cases hmask : (shiftMask w).testBit n = true
        · have hfalse : bitAt b n = falseLit := by
            by_contra hne
            exact hskip ⟨hlen, hmask, hne⟩
          have hz := hb.bit n
          rw [hfalse] at hz
          rw [hz.of_false ht hβ, Bool.false_and]
        · rw [Bool.not_eq_true] at hmask
          rw [hmask, Bool.and_false]
      · rw [hb.length] at hlen
        rw [getLsbD_of_ge z n (by omega), Bool.false_and]
    rw [hzero]
    simp

theorem runs_blastShift (hs : s.Gates) (hop : isShift op = true) (h0 : 0 < w) (h : w ≤ 64)
    (ha : Word β s a x) {z : BitVec k} (hb : Word β s b z) :
    Runs (blastShift op a b w) s
      (fun out t => Word β t out (shift op x (z.toNat &&& shiftMask w))) := by
  have hlt : z.toNat &&& shiftMask w < 2 ^ 6 := by
    obtain ⟨m, hm, hmask, -⟩ := shiftMask_spec h0 h
    have hle : z.toNat &&& shiftMask w ≤ shiftMask w := Nat.and_le_right
    have hpow : 2 ^ m ≤ 2 ^ 6 := Nat.pow_le_pow_right (by decide) hm
    have := Nat.two_pow_pos m
    omega
  refine (runs_loop (fun n cur t =>
    Word β t cur (shift op x ((z.toNat &&& shiftMask w) % 2 ^ n))) hs ?_
    (fun n cur t _ ht hst hcur => runs_shiftStage ht hop (hb.mono hst) rfl hcur)).mono
    (fun out t _ _ hout => ?_)
  · rw [Nat.pow_zero, Nat.mod_one, shift_zero hop]
    exact ha
  · rwa [Nat.mod_eq_of_lt hlt] at hout

/-! ## Leading and trailing zeros -/

/-- The value of the last place that is set, or a default. -/
def lastSet (p : Nat → Bool) (value : Nat → Nat) (default : Nat) : Nat → Nat
  | 0 => default
  | n + 1 => if p n then value n else lastSet p value default n

theorem lastSet_none {value : Nat → Nat} {d : Nat} (h : ∀ k < n, p k = false) :
    lastSet p value d n = d := by
  induction n with
  | zero => rfl
  | succ n ih =>
    rw [lastSet, h n (by omega), if_neg (by decide)]
    exact ih (fun k hk => h k (by omega))

theorem lastSet_eq {value : Nat → Nat} {d : Nat} (hk : k < n) (hp : p k = true)
    (h : ∀ j < n, k < j → p j = false) : lastSet p value d n = value k := by
  induction n with
  | zero => omega
  | succ n ih =>
    rw [lastSet]
    by_cases hkn : k = n
    · rw [← hkn, if_pos hp]
    · rw [h n (by omega) (by omega), if_neg (by decide)]
      exact ih (by omega) (fun j hj => h j (by omega))

theorem runs_selectBit (hs : s.Gates) (ha : Word β s a x) (bit value : Nat → Nat) :
    Runs (selectBit a w bit value) s (fun out t =>
      Word β t out (BitVec.ofNat w (lastSet (fun k => x.getLsbD (bit k)) value w w))) := by
  refine runs_loop (fun n cur t =>
    Word β t cur (BitVec.ofNat w (lastSet (fun k => x.getLsbD (bit k)) value w n))) hs
    (word_constBits hs w w) (fun n cur t _ ht hst hcur => ?_)
  refine runs_build ht (fun i u hi hu htu => ?_)
  refine (runs_mkIte hu ((ha.bit (bit n)).mono (hst.trans htu)) (means_const hu _)
    ((hcur.bit i).mono htu)).gate (fun _ => ?_)
  rw [lastSet, getLsbD_ofNat, getLsbD_ofNat, decide_eq_true hi, Bool.true_and, Bool.true_and]
  cases x.getLsbD (bit n) <;> rfl

def leadingZeros (x : BitVec w) : Nat := lastSet x.getLsbD (fun k => w - 1 - k) w w

def trailingZeros (x : BitVec w) : Nat :=
  lastSet (fun k => x.getLsbD (w - 1 - k)) (fun k => w - 1 - k) w w

theorem runs_blastClz (hs : s.Gates) (ha : Word β s a x) :
    Runs (blastClz a w) s (fun out t => Word β t out (BitVec.ofNat w (leadingZeros x))) :=
  runs_selectBit hs ha (fun k => k) (fun k => w - 1 - k)

theorem runs_blastCtz (hs : s.Gates) (ha : Word β s a x) :
    Runs (blastCtz a w) s (fun out t => Word β t out (BitVec.ofNat w (trailingZeros x))) :=
  runs_selectBit hs ha (fun k => w - 1 - k) (fun k => w - 1 - k)

theorem leadingZeros_zero : leadingZeros (0#w) = w := lastSet_none (fun _ _ => by simp)

theorem trailingZeros_zero : trailingZeros (0#w) = w := lastSet_none (fun _ _ => by simp)

/-- The highest one bit decides the number of leading zeros, in the word and in its 64 bits. -/
theorem leadingZeros_cut (h : w ≤ 64) (hv : Fits w v) (h0 : v ≠ 0#64) :
    countlZero v + w = leadingZeros (cut w v) + 64 ∧ countlZero v < 64 := by
  obtain ⟨hzero, hone⟩ := findIdx_range_spec (fun i => v.getLsbD (63 - i)) 64
  have hlt : countlZero v < 64 := by
    by_contra hge
    refine h0 (eq_of_getLsbD_eq fun i hi => ?_)
    have := hzero (63 - i) (by unfold countlZero at hge; omega)
    rw [show 63 - (63 - i) = i by omega] at this
    rw [this, getLsbD_zero]
  have hset : v.getLsbD (63 - countlZero v) = true := hone hlt
  have hlow : 63 - countlZero v < w := by
    by_contra hge
    have hpow : v.toNat < 2 ^ (63 - countlZero v) :=
      lt_of_lt_of_le hv (Nat.pow_le_pow_right (by decide) (by omega))
    rw [getLsbD, Nat.testBit_lt_two_pow hpow] at hset
    cases hset
  have hlast : leadingZeros (cut w v) = w - 1 - (63 - countlZero v) := by
    refine lastSet_eq hlow ?_ (fun j hj hlt' => ?_)
    · rw [getLsbD_cut, decide_eq_true hlow, Bool.true_and]
      exact hset
    · have := hzero (63 - j) (show 63 - j < countlZero v by omega)
      rw [show 63 - (63 - j) = j by omega] at this
      rw [getLsbD_cut, this, Bool.and_false]
  refine ⟨?_, hlt⟩
  rw [hlast]
  omega

theorem trailingZeros_cut (hv : Fits w v) (h0 : v ≠ 0#64) :
    countrZero v = trailingZeros (cut w v) := by
  obtain ⟨hzero, hone⟩ := findIdx_range_spec (fun i => v.getLsbD i) 64
  have hlt : countrZero v < 64 := by
    by_contra hge
    refine h0 (eq_of_getLsbD_eq fun i hi => ?_)
    have := hzero i (by unfold countrZero at hge; omega)
    rw [this, getLsbD_zero]
  have hset : v.getLsbD (countrZero v) = true := hone hlt
  have hlow : countrZero v < w := by
    by_contra hge
    have hpow : v.toNat < 2 ^ countrZero v :=
      lt_of_lt_of_le hv (Nat.pow_le_pow_right (by decide) (by omega))
    rw [getLsbD, Nat.testBit_lt_two_pow hpow] at hset
    cases hset
  have hlast : trailingZeros (cut w v) = w - 1 - (w - 1 - countrZero v) := by
    refine lastSet_eq (by omega) ?_ (fun j hj hlt' => ?_)
    · rw [show w - 1 - (w - 1 - countrZero v) = countrZero v by omega, getLsbD_cut,
        decide_eq_true hlow, Bool.true_and]
      exact hset
    · have := hzero (w - 1 - j) (show w - 1 - j < countrZero v by omega)
      rw [getLsbD_cut, this, Bool.and_false]
  rw [hlast]
  omega

/-! ## The number of one bits -/

theorem runs_blastPopcnt (hs : s.Gates) (ha : Word β s a x) : Runs (blastPopcnt a w) s
      (fun out t => Word β t out (BitVec.ofNat w ((List.range w).countP x.getLsbD))) := by
  refine runs_loop (fun n acc t =>
    Word β t acc (BitVec.ofNat w ((List.range n).countP x.getLsbD))) hs
    (by simpa using word_zeros hs w) (fun n acc t hn ht hst hacc => ?_)
  have hone : Word β t ((zeros w).set 0 (bitAt a n)) (BitVec.ofNat w (x.getLsbD n).toNat) := by
    refine word_of_lt ht (by simp [zeros]) (fun i hi => ?_)
    rw [bitAt_set (by simp [zeros]; omega), bitAt_zeros, BitVec.getLsbD_ofNat, decide_eq_true hi,
      Bool.true_and]
    split
    · rename_i h0
      subst h0
      refine ((ha.bit n).mono hst).congr (fun _ => ?_)
      cases x.getLsbD n <;> rfl
    · rename_i h0
      refine (means_false ht).congr (fun _ => ?_)
      cases x.getLsbD n with
      | false => simp
      | true =>
        have hlt : 1 < 2 ^ i := Nat.one_lt_two_pow (by omega)
        rw [Bool.toNat_true, Nat.testBit_lt_two_pow hlt]
  refine runs_bind (runs_add ht hacc hone) (fun next u hu _ hnext => runs_pure hu ?_)
  rw [List.range_succ, List.countP_append, BitVec.ofNat_add]
  refine hnext.congr (fun _ => ?_)
  cases hbit : x.getLsbD n <;> simp [hbit]

theorem countP_range {m : Nat} (hmn : m ≤ n) (h : ∀ i, m ≤ i → p i = false) :
    (List.range n).countP p = (List.range m).countP p := by
  obtain ⟨d, rfl⟩ := Nat.exists_eq_add_of_le hmn
  induction d with
  | zero => rfl
  | succ d ih =>
    rw [← Nat.add_assoc, List.range_succ, List.countP_append, ih (by omega),
      List.countP_singleton, h (m + d) (by omega)]
    simp

theorem popcount_cut (h : w ≤ 64) (hv : Fits w v) :
    popcount v = (List.range w).countP (cut w v).getLsbD := by
  unfold popcount
  rw [countP_range h (fun i hi => ?_)]
  · refine List.countP_congr (fun i hi => ?_)
    rw [getLsbD_cut, decide_eq_true (List.mem_range.mp hi), Bool.true_and]
  · exact Nat.testBit_lt_two_pow (lt_of_lt_of_le hv (Nat.pow_le_pow_right (by decide) hi))

end Brass.Verify.Bv
