import Brass.Util.SignedMagic
import Mathlib.Data.Nat.Prime.Basic

/-!
# Signed division by a constant

`takes_signed_div_magic` and `signed_div_magic64` of `codegen/div_magic.hpp`. The search runs in
64-bit words; `Exact` says that its quotients and remainders are still those of `2 ^ p`, so that
nothing was cut off.
-/

namespace Brass.Target

open Brass.Util

structure SignedDivMagic where
  multiplier : BitVec 64
  shift : Int
  deriving DecidableEq, Repr

def takesSignedDivMagic (d : BitVec 64) : Bool := !(d.slt 3) && (d &&& (d - 1)) != 0

structure MagicState where
  p : Nat
  q1 : BitVec 64
  r1 : BitVec 64
  q2 : BitVec 64
  r2 : BitVec 64
  deriving DecidableEq, Repr

/-- A quotient and remainder of twice the number. -/
def magicDouble (a q r : BitVec 64) : BitVec 64 × BitVec 64 :=
  let q := 2 * q
  let r := 2 * r
  if a ≤ r then (q + 1, r - a) else (q, r)

def magicStep (anc ad : BitVec 64) (s : MagicState) : MagicState :=
  let (q1, r1) := magicDouble anc s.q1 s.r1
  let (q2, r2) := magicDouble ad s.q2 s.r2
  { p := s.p + 1, q1, r1, q2, r2 }

/-- The condition of the search's `do` loop. -/
def magicMore (ad : BitVec 64) (s : MagicState) : Bool :=
  let delta := ad - s.r2
  decide (s.q1 < delta) || (s.q1 == delta && s.r1 == 0)

def magicSearch (anc ad : BitVec 64) : Nat → MagicState → Option MagicState
  | 0, _ => none
  | fuel + 1, s =>
    let s := magicStep anc ad s
    if magicMore ad s then magicSearch anc ad fuel s else some s

def two63 : BitVec 64 := 1 <<< 63

def magicAnc (ad : BitVec 64) : BitVec 64 := two63 - 1 - two63 % ad

def magicInit (ad : BitVec 64) : MagicState :=
  let anc := magicAnc ad
  let q1 := two63 / anc
  let q2 := two63 / ad
  { p := 63, q1, r1 := two63 - q1 * anc, q2, r2 := two63 - q2 * ad }

def signedDivMagic64 (fuel : Nat) (d : BitVec 64) : Option SignedDivMagic :=
  (magicSearch (magicAnc d) d fuel (magicInit d)).map fun s =>
    { multiplier := s.q2 + 1, shift := (s.p : Int) - 64 }

/-! ## The search in whole numbers -/

section Search

variable {anc ad : BitVec 64} {s : MagicState}

/-- The words of the state are the quotients and remainders of `2 ^ p`. -/
structure MagicState.Exact (anc ad : BitVec 64) (s : MagicState) : Prop where
  q1 : s.q1.toNat = 2 ^ s.p / anc.toNat
  r1 : s.r1.toNat = 2 ^ s.p % anc.toNat
  q2 : s.q2.toNat = 2 ^ s.p / ad.toNat
  r2 : s.r2.toNat = 2 ^ s.p % ad.toNat

theorem magicDouble_exact {a q r : BitVec 64} {x : Nat} (ha : 0 < a.toNat)
    (ha' : a.toNat ≤ 2 ^ 63) (hq : q.toNat = x / a.toNat) (hr : r.toNat = x % a.toNat)
    (hlt : q.toNat < 2 ^ 63) :
    (magicDouble a q r).1.toNat = 2 * x / a.toNat ∧
      (magicDouble a q r).2.toNat = 2 * x % a.toNat := by
  have hmod := Nat.mod_lt x ha
  have hq2 : (2 * q).toNat = 2 * (x / a.toNat) := by
    rw [BitVec.toNat_mul, hq]
    show 2 * (x / a.toNat) % 2 ^ 64 = _
    exact Nat.mod_eq_of_lt (by omega)
  have hr2 : (2 * r).toNat = 2 * (x % a.toNat) := by
    rw [BitVec.toNat_mul, hr]
    show 2 * (x % a.toNat) % 2 ^ 64 = _
    exact Nat.mod_eq_of_lt (by omega)
  rw [Magic.two_mul_div ha, Magic.two_mul_mod ha]
  simp only [magicDouble, BitVec.le_def, hr2]
  split
  · constructor
    · rw [BitVec.toNat_add, hq2]
      show (2 * (x / a.toNat) + 1) % 2 ^ 64 = _
      exact Nat.mod_eq_of_lt (by omega)
    · rw [BitVec.toNat_sub, hr2]
      omega
  · exact ⟨hq2, hr2⟩

theorem MagicState.Exact.step (h : s.Exact anc ad) (hanc : 0 < anc.toNat)
    (hanc' : anc.toNat ≤ 2 ^ 63) (had : 0 < ad.toNat) (had' : ad.toNat ≤ 2 ^ 63)
    (hq1 : s.q1.toNat < 2 ^ 63) (hq2 : s.q2.toNat < 2 ^ 63) :
    (magicStep anc ad s).Exact anc ad := by
  obtain ⟨h1, h2⟩ := magicDouble_exact hanc hanc' h.q1 h.r1 hq1
  obtain ⟨h3, h4⟩ := magicDouble_exact had had' h.q2 h.r2 hq2
  have hpow : 2 * 2 ^ s.p = 2 ^ (s.p + 1) := (pow_succ' 2 s.p).symm
  rw [hpow] at h1 h2 h3 h4
  exact ⟨h1, h2, h3, h4⟩

theorem MagicState.Exact.more_iff (h : s.Exact anc ad) (hanc : 0 < anc.toNat) (had : 0 < ad.toNat) :
    magicMore ad s = true ↔ 2 ^ s.p ≤ anc.toNat * (ad.toNat - 2 ^ s.p % ad.toNat) := by
  have hmod := Nat.mod_lt (2 ^ s.p) had
  have hdelta : (ad - s.r2).toNat = ad.toNat - 2 ^ s.p % ad.toNat := by
    have := ad.isLt
    rw [BitVec.toNat_sub, h.r2]
    omega
  rw [← Magic.quotient_le_iff hanc, ← hdelta, ← h.q1, ← h.r1]
  simp only [magicMore, Bool.or_eq_true, decide_eq_true_eq, Bool.and_eq_true, beq_iff_eq,
    BitVec.lt_def, ← BitVec.toNat_inj]
  rfl

theorem magicSearch_eq {anc ad : BitVec 64} {n : Nat} :
    ∀ {fuel : Nat} {s : MagicState}, 1 ≤ n → n ≤ fuel →
      (∀ j, 1 ≤ j → j < n → magicMore ad ((magicStep anc ad)^[j] s) = true) →
      magicMore ad ((magicStep anc ad)^[n] s) = false →
      magicSearch anc ad fuel s = some ((magicStep anc ad)^[n] s) := by
  induction n with
  | zero => intro fuel s h1; omega
  | succ n ih =>
    intro fuel s _ hfuel hmore hstop
    obtain ⟨fuel, rfl⟩ : ∃ f, fuel = f + 1 := ⟨fuel - 1, by omega⟩
    simp only [magicSearch]
    rcases Nat.eq_zero_or_pos n with rfl | hn
    · rw [Nat.zero_add, Function.iterate_one] at hstop ⊢
      rw [hstop]
      rfl
    · have hfirst := hmore 1 le_rfl (by omega)
      rw [Function.iterate_one] at hfirst
      rw [if_pos hfirst, ih hn (by omega) (fun j hj hjn => ?_) ?_]
      · rw [Function.iterate_succ_apply]
      · rw [← Function.iterate_succ_apply]
        exact hstop
      · rw [← Function.iterate_succ_apply]
        exact hmore (j + 1) (by omega) (by omega)

/-! ## The divisors that are taken -/

theorem takesSignedDivMagic_iff {d : BitVec 64} : takesSignedDivMagic d = true ↔
    3 ≤ d.toNat ∧ d.toNat < 2 ^ 63 ∧ ∀ k, d.toNat ≠ 2 ^ k := by
  have hd := d.isLt
  have h3 : d.slt 3 = false ↔ 3 ≤ d.toNat ∧ d.toNat < 2 ^ 63 := by
    rw [BitVec.slt_eq_decide, decide_eq_false_iff_not, BitVec.toInt_eq_toNat_cond]
    show ¬ _ < (3 : Int) ↔ _
    split <;> omega
  rw [takesSignedDivMagic, Bool.and_eq_true, Bool.not_eq_true', h3, bne_iff_ne, and_assoc]
  refine and_congr_right fun hge => and_congr_right fun _ => ?_
  have hpred : (d - 1).toNat = d.toNat - 1 := by
    rw [BitVec.toNat_sub]
    show (2 ^ 64 - 1 + d.toNat) % 2 ^ 64 = d.toNat - 1
    omega
  rw [ne_eq, ← BitVec.toNat_inj, BitVec.toNat_and, hpred]
  show ¬ (d.toNat &&& (d.toNat - 1) = 0) ↔ _
  rw [Nat.and_sub_one_eq_zero_iff_isPowerOfTwo (by omega), Nat.isPowerOfTwo, not_exists]

theorem two63_mod_ne {d : Nat} (hd : ∀ k, d ≠ 2 ^ k) : 2 ^ 63 % d ≠ 0 := by
  intro h
  obtain ⟨k, -, hk⟩ := (Nat.dvd_prime_pow Nat.prime_two).mp (Nat.dvd_of_mod_eq_zero h)
  exact hd k hk

theorem toNat_two63 : two63.toNat = 2 ^ 63 := rfl

variable {d : BitVec 64}

theorem toNat_magicAnc (hd : 3 ≤ d.toNat) (hd' : d.toNat < 2 ^ 63) :
    (magicAnc d).toNat = 2 ^ 63 - 1 - 2 ^ 63 % d.toNat := by
  have hmod := Nat.mod_lt (2 ^ 63) (show 0 < d.toNat by omega)
  have hone : (two63 - 1).toNat = 2 ^ 63 - 1 := rfl
  rw [magicAnc, BitVec.toNat_sub, hone, BitVec.toNat_umod, toNat_two63]
  omega

theorem magicInit_exact : (magicInit d).Exact (magicAnc d) d := by
  have hrest : ∀ a : BitVec 64, (two63 - two63 / a * a).toNat = 2 ^ 63 % a.toNat := by
    intro a
    have hsplit := Nat.mod_add_div (2 ^ 63) a.toNat
    have hmul : (two63 / a * a).toNat = 2 ^ 63 / a.toNat * a.toNat := by
      rw [BitVec.toNat_mul, BitVec.toNat_udiv, toNat_two63, Nat.mul_comm]
      exact Nat.mod_eq_of_lt (by omega)
    rw [BitVec.toNat_sub, hmul, toNat_two63, Nat.mul_comm]
    omega
  exact ⟨BitVec.toNat_udiv, hrest _, BitVec.toNat_udiv, hrest _⟩

/-- What the search has found: the least exponent whose rounding error is small enough. -/
structure Found (d : BitVec 64) (n : Nat) : Prop where
  pos : 1 ≤ n
  le : n ≤ 63
  exact : ∀ i ≤ n, ((magicStep (magicAnc d) d)^[i] (magicInit d)).Exact (magicAnc d) d
  more : ∀ i, 1 ≤ i → i < n → magicMore d ((magicStep (magicAnc d) d)^[i] (magicInit d)) = true
  stop : magicMore d ((magicStep (magicAnc d) d)^[n] (magicInit d)) = false

theorem iterate_p (i : Nat) : ((magicStep anc ad)^[i] s).p = s.p + i := by
  induction i with
  | zero => rfl
  | succ i ih =>
    rw [Function.iterate_succ_apply']
    show ((magicStep anc ad)^[i] s).p + 1 = _
    omega

theorem MagicState.Exact.small (h : s.Exact anc ad) (hanc : 0 < anc.toNat) (had : 0 < ad.toNat)
    (hmore : magicMore ad s = true) : s.q1.toNat ≤ ad.toNat ∧ s.q2.toNat ≤ anc.toNat := by
  have hle := (h.more_iff hanc had).mp hmore
  have hle' : 2 ^ s.p ≤ anc.toNat * ad.toNat := hle.trans (Nat.mul_le_mul_left _ (Nat.sub_le _ _))
  rw [h.q1, h.q2]
  exact ⟨Nat.div_le_of_le_mul hle', Nat.div_le_of_le_mul (by rwa [Nat.mul_comm])⟩

theorem exists_found (hd : takesSignedDivMagic d = true) : ∃ n, Found d n := by
  obtain ⟨h3, h63, hpow⟩ := takesSignedDivMagic_iff.mp hd
  have hpos : 0 < d.toNat := by omega
  have hanc := toNat_magicAnc h3 h63
  have hmod := Nat.mod_lt (2 ^ 63) hpos
  have hhalf : 2 * (2 ^ 63 % d.toNat) < 2 ^ 63 := by
    have hsplit := Nat.mod_add_div (2 ^ 63) d.toNat
    have : d.toNat * 1 ≤ d.toNat * (2 ^ 63 / d.toNat) :=
      Nat.mul_le_mul_left _ (Nat.div_pos h63.le hpos)
    omega
  have hancPos : 0 < (magicAnc d).toNat := by omega
  have hinit := magicInit_exact (d := d)
  -- The exact words stay small until the search stops, whenever that is.
  have hexact : ∀ i, (∀ j, 1 ≤ j → j < i →
      magicMore d ((magicStep (magicAnc d) d)^[j] (magicInit d)) = true) →
      ((magicStep (magicAnc d) d)^[i] (magicInit d)).Exact (magicAnc d) d := by
    intro i
    induction i with
    | zero => exact fun _ => hinit
    | succ i ih =>
      intro hmore
      have hprev := ih fun j hj hji => hmore j hj (by omega)
      rw [Function.iterate_succ_apply']
      rcases Nat.eq_zero_or_pos i with rfl | hi
      · refine hprev.step hancPos (by omega) hpos h63.le ?_ ?_
        · rw [hprev.q1]
          show 2 ^ 63 / _ < _
          exact Nat.div_lt_self (by omega) (by omega)
        · rw [hprev.q2]
          show 2 ^ 63 / _ < _
          exact Nat.div_lt_self (by omega) (by omega)
      · obtain ⟨hq1, hq2⟩ := hprev.small hancPos hpos (hmore i hi (by omega))
        exact hprev.step hancPos (by omega) hpos h63.le (by omega) (by omega)
  have hstop : ∃ n, 1 ≤ n ∧ n ≤ 63 ∧
      magicMore d ((magicStep (magicAnc d) d)^[n] (magicInit d)) = false := by
    by_contra hall
    push Not at hall
    have hmore : ∀ j, 1 ≤ j → j ≤ 63 →
        magicMore d ((magicStep (magicAnc d) d)^[j] (magicInit d)) = true := fun j hj hj' => by
      simpa using hall j hj hj'
    have hlast := (hexact 63 fun j hj hj' => hmore j hj (by omega)).more_iff hancPos hpos
    have hle := hlast.mp (hmore 63 (by omega) le_rfl)
    rw [iterate_p] at hle
    have hbound : (magicAnc d).toNat * (d.toNat - 2 ^ ((magicInit d).p + 63) % d.toNat) ≤
        (2 ^ 63 - 1) * (2 ^ 63 - 1) := Nat.mul_le_mul (by omega) (by omega)
    have hval : 2 ^ ((magicInit d).p + 63) = 2 ^ 126 := rfl
    omega
  classical
  have hmin : ∀ i, 1 ≤ i → i < Nat.find hstop →
      magicMore d ((magicStep (magicAnc d) d)^[i] (magicInit d)) = true := by
    intro i hi hlt
    have hle := (Nat.find_spec hstop).2.1
    simpa [hi, show i ≤ 63 by omega] using Nat.find_min hstop hlt
  obtain ⟨hn, hle, hend⟩ := Nat.find_spec hstop
  exact ⟨_, hn, hle, fun i hi => hexact i fun j hj hji => hmin j hj (by omega), hmin, hend⟩

theorem Found.search {n fuel : Nat} (h : Found d n) (hfuel : 63 ≤ fuel) :
    signedDivMagic64 fuel d = some
      { multiplier := ((magicStep (magicAnc d) d)^[n] (magicInit d)).q2 + 1
        shift := (n : Int) - 1 } := by
  have hn := h.le
  rw [signedDivMagic64, magicSearch_eq h.pos (by omega) h.more h.stop, Option.map_some, iterate_p]
  show some (SignedDivMagic.mk _ (((63 + n : Nat) : Int) - 64)) = _
  congr 2
  omega

/-- The multiplier in whole numbers, with its rounding error. -/
theorem Found.multiplier {n : Nat} (hd : takesSignedDivMagic d = true) (h : Found d n) :
    (((magicStep (magicAnc d) d)^[n] (magicInit d)).q2 + 1).toNat = 2 ^ (63 + n) / d.toNat + 1 ∧
      (2 ^ 63 - 1 - 2 ^ 63 % d.toNat) * (d.toNat - 2 ^ (63 + n) % d.toNat) < 2 ^ (63 + n) := by
  obtain ⟨h3, h63, hpow⟩ := takesSignedDivMagic_iff.mp hd
  have hpos : 0 < d.toNat := by omega
  have hanc := toNat_magicAnc h3 h63
  have hmod := Nat.mod_lt (2 ^ 63) hpos
  have hne := two63_mod_ne hpow
  have hlast := h.exact n le_rfl
  have hp := @iterate_p (magicAnc d) d (magicInit d) n
  have hq := hlast.q2
  have hstop := mt (hlast.more_iff (by omega) hpos).mpr (by rw [h.stop]; simp)
  rw [hp] at hq hstop
  change _ = 2 ^ (63 + n) / d.toNat at hq
  change ¬ 2 ^ (63 + n) ≤ _ * (d.toNat - 2 ^ (63 + n) % d.toNat) at hstop
  refine ⟨?_, ?_⟩
  · -- The quotient of the state before is at most `anc`.
    have hsmall : 2 ^ (63 + n) / d.toNat < 2 ^ 64 - 1 := by
      rcases Nat.lt_or_ge 1 n with hn | hn
      · obtain ⟨k, rfl⟩ : ∃ k, n = k + 1 := ⟨n - 1, by omega⟩
        have hprev := h.exact k (by omega)
        have hq2 := (hprev.small (by omega) hpos (h.more k (by omega) (by omega))).2
        have hval := hprev.q2
        rw [iterate_p] at hval
        change _ = 2 ^ (63 + k) / d.toNat at hval
        rw [show 63 + (k + 1) = 63 + k + 1 by omega, pow_succ', Magic.two_mul_div hpos]
        split <;> omega
      · obtain rfl : n = 1 := by
          have := h.pos
          omega
        have : 2 ^ (63 + 1) / d.toNat ≤ 2 ^ (63 + 1) / 3 := Nat.div_le_div_left h3 (by omega)
        omega
    rw [BitVec.toNat_add, hq]
    show (2 ^ (63 + n) / d.toNat + 1) % 2 ^ 64 = _
    exact Nat.mod_eq_of_lt (by omega)
  · rw [hanc] at hstop
    omega

end Search

/-! ## The quotient -/

def smulh (a b : BitVec 64) : BitVec 64 := BitVec.ofInt 64 (a.toInt * b.toInt / 2 ^ 64)

/-- The quotient that the emitted sequence computes. -/
def magicQuotient (mg : SignedDivMagic) (n : BitVec 64) : BitVec 64 :=
  let t := smulh mg.multiplier n
  let t := if mg.multiplier.slt 0 then t + n else t
  t.sshiftRight mg.shift.toNat + (n >>> 63)

theorem ofInt_sign (n : BitVec 64) : n >>> 63 = BitVec.ofInt 64 (if n.toInt < 0 then 1 else 0) := by
  have hn := n.isLt
  apply BitVec.eq_of_toNat_eq
  rw [BitVec.toNat_ushiftRight, Nat.shiftRight_eq_div_pow, BitVec.toInt_eq_toNat_cond]
  split
  · rw [if_neg (by omega)]
    show _ = 0
    omega
  · rw [if_pos (by omega)]
    show _ = 1
    omega

/-- The high half of the product with the multiplier as an unsigned word, which the addition of
`n` makes of the signed one. -/
theorem smulh_unsigned (m n : BitVec 64) : (if m.slt 0 then smulh m n + n else smulh m n) =
      BitVec.ofInt 64 (m.toNat * n.toInt / 2 ^ 64) := by
  have hm := m.isLt
  have hslt : m.slt 0 = decide (2 ^ 63 ≤ m.toNat) := by
    rw [BitVec.slt_eq_decide, BitVec.toInt_eq_toNat_cond]
    show decide (_ < (0 : Int)) = _
    split <;> simp only [decide_eq_decide] <;> omega
  rw [hslt, smulh, BitVec.toInt_eq_toNat_cond]
  simp only [decide_eq_true_eq]
  split
  · rename_i hneg
    rw [if_neg (by omega)]
    have hsplit : ((m.toNat : Int) - (2 ^ 64 : Nat)) * n.toInt =
        m.toNat * n.toInt + -n.toInt * 2 ^ 64 := by
      push_cast
      ring
    have hn : n = BitVec.ofInt 64 n.toInt := BitVec.ofInt_toInt.symm
    rw [hsplit, Int.add_mul_ediv_right _ _ (by norm_num), BitVec.ofInt_add]
    conv_lhs => rw [BitVec.add_assoc]; arg 2; arg 2; rw [hn]
    rw [← BitVec.ofInt_add, Int.add_left_neg]
    exact BitVec.add_zero _
  · rw [if_pos (by omega)]

theorem toInt_ofInt_of_bounds {z : Int} (hlow : -2 ^ 63 ≤ z) (hhigh : z < 2 ^ 63) :
    (BitVec.ofInt 64 z).toInt = z := by
  rw [BitVec.toInt_ofInt, Int.bmod_eq_of_le_mul_two]
  · push_cast
    omega
  · push_cast
    omega

theorem Found.quotient {d n : BitVec 64} {k : Nat} (hd : takesSignedDivMagic d = true)
    (h : Found d k) :
    magicQuotient { multiplier := ((magicStep (magicAnc d) d)^[k] (magicInit d)).q2 + 1
                    shift := (k : Int) - 1 } n = n.sdiv d := by
  obtain ⟨h3, h63, hpow⟩ := takesSignedDivMagic_iff.mp hd
  obtain ⟨hm, hnc⟩ := h.multiplier hd
  generalize ((magicStep (magicAnc d) d)^[k] (magicInit d)).q2 + 1 = m at hm
  have hk := h.pos
  have hk' := h.le
  have hpos : 0 < d.toNat := by omega
  have hmod := Nat.mod_lt (2 ^ (63 + k)) hpos
  have hprod : m.toNat * d.toNat = 2 ^ (63 + k) + (d.toNat - 2 ^ (63 + k) % d.toNat) := by
    have hsplit := Nat.mod_add_div (2 ^ (63 + k)) d.toNat
    rw [hm, Nat.add_mul, Nat.one_mul, Nat.mul_comm]
    omega
  have hlow := BitVec.le_toInt n
  have hhigh := BitVec.toInt_lt (x := n)
  change -2 ^ 63 ≤ n.toInt at hlow
  change n.toInt < 2 ^ 63 at hhigh
  have hmain := Magic.mul_ediv_add_sign (n := n.toInt) (B := 2 ^ 63) (K := 2 ^ k) hpos hprod rfl
    (by rw [pow_add]) (Nat.two_pow_pos k) h63.le (two63_mod_ne hpow) hnc
    (by exact_mod_cast hlow) (by exact_mod_cast hhigh)
  -- The high half fits a signed word.
  have hT : -2 ^ 63 ≤ (m.toNat : Int) * n.toInt / 2 ^ 64 ∧
      (m.toNat : Int) * n.toInt / 2 ^ 64 < 2 ^ 63 := by
    have hm1 : (m.toNat : Int) < 2 ^ 64 := by exact_mod_cast m.isLt
    constructor
    · apply Int.le_ediv_of_mul_le (by norm_num)
      nlinarith
    · apply Int.ediv_lt_of_lt_mul (by norm_num)
      nlinarith
  have hdInt : d.toInt = d.toNat := BitVec.toInt_eq_toNat_of_lt (by omega)
  have hone : d ≠ -1#64 := by
    rintro rfl
    exact absurd h63 (by decide)
  have hexp : (2 : Int) ^ 64 * ((2 ^ (k - 1) : Nat) : Int) = ((2 ^ (63 + k) : Nat) : Int) := by
    have hpow : 2 ^ 64 * 2 ^ (k - 1) = 2 ^ (63 + k) := by
      rw [← pow_add]
      congr 1
      omega
    exact_mod_cast hpow
  have hshift : (BitVec.ofInt 64 (m.toNat * n.toInt / 2 ^ 64)).sshiftRight (k - 1) =
      BitVec.ofInt 64 (n.toInt * m.toNat / (2 ^ (63 + k) : Nat)) := by
    rw [← BitVec.ofInt_toInt (x := BitVec.sshiftRight _ _), BitVec.toInt_sshiftRight,
      toInt_ofInt_of_bounds hT.1 hT.2, Int.shiftRight_eq_div_pow,
      Int.ediv_ediv_of_nonneg (by norm_num), hexp, Int.mul_comm]
  rw [magicQuotient]
  simp only
  rw [smulh_unsigned, show ((k : Int) - 1).toNat = k - 1 by omega, hshift, ofInt_sign,
    ← BitVec.ofInt_add, hmain, ← hdInt, ← BitVec.toInt_sdiv_of_ne_or_ne _ _ (Or.inr hone),
    BitVec.ofInt_toInt]

end Brass.Target
