import Brass.Verify.BvMultiplier
import Brass.Verify.BvOps

/-!
# Quotients and remainders of words

The division brings down one bit of the dividend after the other. When the bits below `m`
are still to come, the remainder is that of `x / 2 ^ m`, and the quotient has its bits from
`m` on; this also holds for the divisor 0, whose quotient is 0 and whose remainder is the
dividend itself, until the last gates clear it.
-/

namespace Brass.Verify.Bv

open Brass.Util.Cnf Brass.Verify.Cdcl BitVec

variable {D : Doubles} {s t : Solver D} {β : Nat → Bool} {w : Nat} {x y : BitVec w}
  {a b : List Lit}

/-! ## One step in numbers -/

section Step

variable (x y m : Nat)

/-- The remainder so far with the next bit of the dividend. -/
def shifted : Nat := x / 2 ^ (m + 1) % y * 2 + (x.testBit m).toNat

theorem div_next : x / 2 ^ m = x / 2 ^ (m + 1) * 2 + (x.testBit m).toNat := by
  have hbit : (x.testBit m).toNat = x / 2 ^ m % 2 := Nat.toNat_testBit x m
  have hdiv : x / 2 ^ (m + 1) = x / 2 ^ m / 2 := by rw [Nat.pow_succ, Nat.div_div_eq_div_mul]
  rw [hbit, hdiv]
  omega

theorem shifted_zero : shifted x 0 m = x / 2 ^ m := by
  rw [div_next, shifted, Nat.mod_zero]

variable {y}

theorem shifted_lt (hy : 0 < y) : shifted x y m < 2 * y := by
  have hmod := Nat.mod_lt (x / 2 ^ (m + 1)) hy
  have hbit := Bool.toNat_lt (x.testBit m)
  unfold shifted
  omega

theorem div_eq_shifted : x / 2 ^ m = y * (2 * (x / 2 ^ (m + 1) / y)) + shifted x y m := by
  have hdiv := Nat.div_add_mod (x / 2 ^ (m + 1)) y
  have hmul : y * (2 * (x / 2 ^ (m + 1) / y)) = 2 * (y * (x / 2 ^ (m + 1) / y)) := by ring
  rw [div_next, shifted, hmul]
  omega

theorem mod_next : x / 2 ^ m % y = if y ≤ shifted x y m then shifted x y m - y else shifted x y m := by
  rcases Nat.eq_zero_or_pos y with rfl | hy
  · simp [shifted_zero]
  · have hlt := shifted_lt x m hy
    rw [div_eq_shifted x m, Nat.mul_add_mod]
    split
    · rw [Nat.mod_eq_sub_mod (by assumption), Nat.mod_eq_of_lt (by omega)]
    · exact Nat.mod_eq_of_lt (by omega)

theorem quotient_bit : (x / y).testBit m = (decide (y ≠ 0) && decide (y ≤ shifted x y m)) := by
  rcases Nat.eq_zero_or_pos y with rfl | hy
  · simp
  · have hlt := shifted_lt x m hy
    have hdiv : x / y / 2 ^ m = 2 * (x / 2 ^ (m + 1) / y) + shifted x y m / y := by
      rw [Nat.div_div_eq_div_mul, Nat.mul_comm, ← Nat.div_div_eq_div_mul, div_eq_shifted x m,
        Nat.mul_add_div hy]
    rw [Nat.testBit_eq_decide_div_mod_eq, hdiv, decide_eq_true (by omega : y ≠ 0), Bool.true_and]
    refine decide_eq_decide.mpr ?_
    by_cases hle : y ≤ shifted x y m
    · have hone : shifted x y m / y = 1 := Nat.div_eq_of_lt_le (by omega) (by omega)
      rw [hone]
      omega
    · have hzero : shifted x y m / y = 0 := Nat.div_eq_of_lt (by omega)
      rw [hzero]
      omega

end Step

/-! ## The circuit -/

/-- The state of the division when the bits of the dividend below `m` are still to come. -/
structure Divided (β : Nat → Bool) (x y : BitVec w) (m : Nat) (r : Division) (t : Solver D) :
    Prop where
  length : r.quot.length = w
  quot : ∀ k < w, Means β t (bitAt r.quot k)
    (decide (m ≤ k) && (x.toNat / y.toNat).testBit k)
  rem : Word β t r.rem (BitVec.ofNat w (x.toNat / 2 ^ m % y.toNat))

theorem word_concat (hs : s.Gates) {l : Lit} {c : Bool} (hl : Means β s l c) (ha : Word β s a x) :
    Word β s (l :: (List.range w).map (bitAt a)) (x.concat c) := by
  refine word_of_lt hs (by simp) (fun i hi => ?_)
  rw [getLsbD_concat]
  cases i with
  | zero => simpa [bitAt] using hl
  | succ i =>
    have hbit : bitAt (l :: (List.range w).map (bitAt a)) (i + 1) = bitAt a i := by
      have := bitAt_map_range (f := bitAt a) (show i < w by omega)
      simpa [bitAt] using this
    rw [hbit]
    exact ha.bit i

theorem word_notExt (hs : s.Gates) (hb : Word β s b y) :
    Word β s ((List.range w).map (fun j => (bitAt b j).neg) ++ [trueLit])
      (~~~(y.setWidth (w + 1))) := by
  refine word_of_lt hs (by simp) (fun i hi => ?_)
  rw [getLsbD_not, decide_eq_true hi, Bool.true_and, getLsbD_setWidth,
    decide_eq_true hi, Bool.true_and]
  by_cases hw : i < w
  · rw [bitAt_append_left (by simpa using hw), bitAt_map_range hw]
    exact (hb.bit i).neg
  · have hlast := bitAt_append_length ((List.range w).map (fun j => (bitAt b j).neg)) trueLit
    rw [List.length_map, List.length_range] at hlast
    rw [show i = w by omega, hlast, getLsbD_of_ge y w (by omega)]
    exact means_true hs

theorem toNat_concat_shifted (m : Nat) :
    ((BitVec.ofNat w (x.toNat / 2 ^ (m + 1) % y.toNat)).concat (x.getLsbD m)).toNat =
      shifted x.toNat y.toNat m := by
  have hlt : x.toNat / 2 ^ (m + 1) % y.toNat < 2 ^ w :=
    lt_of_le_of_lt (Nat.mod_le _ _) (lt_of_le_of_lt (Nat.div_le_self _ _) x.isLt)
  rw [toNat_concat, toNat_ofNat, Nat.mod_eq_of_lt hlt]
  rfl

theorem rem_next (m : Nat) :
    let v := (BitVec.ofNat w (x.toNat / 2 ^ (m + 1) % y.toNat)).concat (x.getLsbD m)
    (if decide (y.toNat ≤ shifted x.toNat y.toNat m) = true then v - y.setWidth (w + 1)
      else v).setWidth w = BitVec.ofNat w (x.toNat / 2 ^ m % y.toNat) := by
  intro v
  have hv : v.toNat = shifted x.toNat y.toNat m := toNat_concat_shifted m
  apply eq_of_toNat_eq
  rw [toNat_setWidth, toNat_ofNat, mod_next]
  split
  · rename_i hle
    have hle' := of_decide_eq_true hle
    have hy : (y.setWidth (w + 1)).toNat = y.toNat := by
      rw [toNat_setWidth, Nat.mod_eq_of_lt]
      exact lt_of_lt_of_le y.isLt (Nat.pow_le_pow_right (by decide) (by omega))
    have hsub : y.setWidth (w + 1) ≤ v := by
      rw [le_def, hy, hv]
      exact hle'
    rw [toNat_sub_of_le hsub, hy, hv, if_pos hle']
  · rename_i hle
    rw [hv, if_neg (fun h => hle (decide_eq_true h))]

theorem runs_divisionStep (ht : t.Gates) (ha : Word β t a x) (hb : Word β t b y) {bNz : Lit}
    (hnz : Means β t bNz (decide (y.toNat ≠ 0))) {step : Nat} (hstep : step < w) {r : Division}
    (h : Divided β x y (w - step) r t) :
    Runs (divisionStep a ((List.range w).map (fun j => (bitAt b j).neg) ++ [trueLit]) bNz w step r)
      t (Divided β x y (w - (step + 1))) := by
  obtain ⟨m, hm⟩ : ∃ m, w - step = m + 1 := ⟨w - step - 1, by omega⟩
  have hi : w - 1 - step = m := by omega
  have hmw : m < w := by omega
  rw [hm] at h
  rw [show w - (step + 1) = m by omega]
  unfold divisionStep
  rw [hi]
  have hsh := word_concat ht (ha.bit m) h.rem
  refine runs_bind (runs_addAdder ht hsh (word_notExt ht hb) (means_true ht) true)
    (fun diff u hu htu hdiff => ?_)
  have hcarry : Means β u diff.carry (decide (y.toNat ≤ shifted x.toNat y.toNat m)) := by
    refine (hdiff.carry rfl).congr (fun _ => ?_)
    rw [← BitVec.ule_eq_carry, BitVec.ule, toNat_concat_shifted m, BitVec.toNat_setWidth,
      Nat.mod_eq_of_lt (lt_of_lt_of_le y.isLt (Nat.pow_le_pow_right (by decide) (by omega)))]
  have hsub := hdiff.word (sub_eq_add_not _ _)
  refine runs_bind (runs_mkAnd hu (hnz.mono htu) hcarry) (fun q v hv huv hq => ?_)
  have hrem : Runs (Circuit.build (fun j => Circuit.mkIte diff.carry (bitAt diff.sum j)
      (bitAt (bitAt a m :: (List.range w).map (bitAt r.rem)) j)) w) v
      (fun ls z => Word β z ls (BitVec.ofNat w (x.toNat / 2 ^ m % y.toNat))) := by
    rw [← rem_next m]
    refine runs_build hv (fun j z hj hz hvz => ?_)
    refine (runs_mkIte hz (hcarry.mono (huv.trans hvz)) ((hsub.bit j).mono (huv.trans hvz))
      ((hsh.bit j).mono (htu.trans (huv.trans hvz)))).gate (fun _ => ?_)
    rw [BitVec.getLsbD_setWidth, decide_eq_true hj, Bool.true_and]
    cases decide (y.toNat ≤ shifted x.toNat y.toNat m) <;> simp
  refine runs_bind hrem (fun ls z hz hvz hls => runs_pure hz ?_)
  refine ⟨by simp [h.length], fun k hk => ?_, hls⟩
  dsimp only
  rw [bitAt_set (by rw [h.length]; exact hmw)]
  by_cases hmk : m = k
  · subst hmk
    rw [if_pos rfl, decide_eq_true (Nat.le_refl m), Bool.true_and, quotient_bit]
    exact hq.mono hvz
  · rw [if_neg hmk, decide_eq_decide.mpr (by omega : m ≤ k ↔ m + 1 ≤ k)]
    exact (h.quot k hk).mono (htu.trans (huv.trans hvz))

theorem runs_nonzero (hs : s.Gates) (hb : Word β s b y) (n : Nat) :
    Runs (Circuit.loop (fun j acc => Circuit.mkOr acc (bitAt b j)) n falseLit) s
      (fun l t => Means β t l (decide (y.toNat % 2 ^ n ≠ 0))) := by
  refine runs_loop (fun i l t => Means β t l (decide (y.toNat % 2 ^ i ≠ 0))) hs ?_
    (fun i acc t _ ht hst hacc => ?_)
  · simpa [Nat.mod_one] using means_false hs
  · refine (runs_mkOr ht hacc ((hb.bit i).mono hst)).gate (fun _ => ?_)
    rw [mod_two_pow_succ, getLsbD]
    rw [Bool.eq_iff_iff]
    cases y.toNat.testBit i <;> simp

theorem runs_blastUdivUrem (hs : s.Gates) (ha : Word β s a x) (hb : Word β s b y) :
    Runs (blastUdivUrem a b) s
      (fun r t => Word β t r.quot (x / y) ∧ Word β t r.rem (urem0 x y)) := by
  unfold blastUdivUrem
  rw [ha.length, hb.length, Nat.max_self]
  refine runs_bind (runs_nonzero hs hb w) (fun bNz t ht hst hnz => ?_)
  rw [Nat.mod_eq_of_lt y.isLt] at hnz
  have hinit : Divided β x y w ⟨zeros w, zeros w⟩ t := by
    refine ⟨by simp [zeros], fun k hk => ?_, ?_⟩
    · dsimp only
      rw [bitAt_zeros, decide_eq_false (by omega : ¬ w ≤ k), Bool.false_and]
      exact means_false ht
    · simpa [Nat.div_eq_of_lt x.isLt] using word_zeros ht w
  refine runs_bind (runs_loop (fun step r u => Divided β x y (w - step) r u) ht hinit
    (fun step r u hstep hu htu h => runs_divisionStep hu (ha.mono (hst.trans htu))
      (hb.mono (hst.trans htu)) (hnz.mono htu) hstep h)) (fun r u hu htu h => ?_)
  rw [Nat.sub_self] at h
  have hrem : Runs (Circuit.build (fun j => Circuit.mkAnd bNz (bitAt r.rem j)) w) u
      (fun ls v => Word β v ls (urem0 x y)) := by
    refine runs_build hu (fun j v hj hv huv => ?_)
    refine (runs_mkAnd hv (hnz.mono (htu.trans huv)) ((h.rem.bit j).mono huv)).gate (fun _ => ?_)
    rw [Nat.pow_zero, Nat.div_one, urem0]
    by_cases hy : y = 0#w
    · simp [hy]
    · have hy' : y.toNat ≠ 0 := fun h0 => hy (eq_of_toNat_eq (by simpa using h0))
      rw [decide_eq_true hy', Bool.true_and, if_neg hy, ← toNat_umod, ofNat_toNat, setWidth_eq]
  refine runs_bind hrem (fun ls v hv huv hls => runs_pure hv ⟨?_, hls⟩)
  refine word_of_lt hv h.length (fun k hk => ?_)
  have hquot := (h.quot k hk).mono huv
  rw [decide_eq_true (Nat.zero_le k), Bool.true_and] at hquot
  rwa [getLsbD, toNat_udiv]

/-! ## Signed division -/

theorem getLsbD_last (x : BitVec w) : x.getLsbD (w - 1) = x.msb := (msb_eq_getLsbD_last x).symm

theorem sdiv_eq (x y : BitVec w) :
    x.sdiv y = condNeg (x.msb ^^ y.msb) (condNeg x.msb x / condNeg y.msb y) := by
  rw [BitVec.sdiv_eq]
  cases x.msb <;> cases y.msb <;> simp [condNeg]

theorem condNeg_eq_zero (c : Bool) (y : BitVec w) : condNeg c y = 0#w ↔ y = 0#w := by
  cases c <;> simp [condNeg]

theorem srem0_eq (x y : BitVec w) :
    srem0 x y = condNeg x.msb (urem0 (condNeg x.msb x) (condNeg y.msb y)) := by
  unfold srem0 urem0
  by_cases hy : y = 0#w
  · rw [if_pos hy, if_pos ((condNeg_eq_zero _ y).mpr hy)]
    cases x.msb <;> simp [condNeg]
  · rw [if_neg hy, if_neg (fun h => hy ((condNeg_eq_zero _ y).mp h)), srem_eq]
    cases x.msb <;> cases y.msb <;> simp [condNeg]

theorem runs_blastSigned (hs : s.Gates) (ha : Word β s a x) (hb : Word β s b y) (op : BVOp) :
    Runs (blastSigned op a b w) s
      (fun out t => Word β t out (if op = .sdiv then x.sdiv y else srem0 x y)) := by
  have hsa : Means β s (bitAt a (w - 1)) x.msb := getLsbD_last x ▸ ha.bit (w - 1)
  have hsb : Means β s (bitAt b (w - 1)) y.msb := getLsbD_last y ▸ hb.bit (w - 1)
  unfold blastSigned
  refine runs_bind (runs_blastCondNeg hs ha hsa) (fun absA t ht hst hA => ?_)
  refine runs_bind (runs_blastCondNeg ht (hb.mono hst) (hsb.mono hst)) (fun absB u hu htu hB => ?_)
  refine runs_bind (runs_blastUdivUrem hu (hA.mono htu) hB) (fun r v hv huv hr => ?_)
  have hsv := hst.trans (htu.trans huv)
  split
  · refine runs_bind (runs_mkXor hv (hsa.mono hsv) (hsb.mono hsv)) (fun sign z hz hvz hsign => ?_)
    rw [sdiv_eq]
    exact runs_blastCondNeg hz (hr.1.mono hvz) hsign
  · rw [srem0_eq]
    exact runs_blastCondNeg hv hr.2 (hsa.mono hsv)

end Brass.Verify.Bv
