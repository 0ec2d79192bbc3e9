import Brass.Util.CyclicRun
import Brass.Util.WordBytes
import Mathlib.Tactic.FinCases
import Mathlib.Tactic.IntervalCases

/-!
# Logical immediates of AArch64

`encode_logical_immediate` of `target/aarch64/aarch64_logical_imm.cpp` and the instruction that
`emit_logical_imm` makes of its result. A logical immediate repeats an element of 2, 4, ..., 64
bits that is a rotated run of ones; `decodeBitMasks` is the architecture's own definition of the
value that the fields `N`, `immr` and `imms` stand for.
-/

namespace Brass.Target

open Brass.Util.CyclicRun

variable {c j : Nat}

/-- The halves of the smallest element found so far are compared until they differ. -/
def elementSize (val : BitVec 64) (esize : Nat) : Nat :=
  if 2 < esize then
    let half := esize / 2
    let mask := (1#64 <<< half) - 1
    if val &&& mask ≠ (val >>> half) &&& mask then esize else elementSize val half
  else esize
termination_by esize

def elementMask (esize : Nat) : BitVec 64 :=
  if esize = 64 then BitVec.allOnes 64 else (1#64 <<< esize) - 1

def rotateElement (esize : Nat) (emask elem : BitVec 64) (r : Nat) : BitVec 64 :=
  if r = 0 then elem
  else (((elem <<< r) &&& emask) ||| (elem >>> (esize - r))) &&& emask

/-- A run of ones at the low end, neither empty nor full. -/
def isLowRun (emask x : BitVec 64) : Bool := x &&& (x + 1) == 0 && x != 0 && x != emask

def popcount (x : BitVec 64) : Nat := (List.range 64).countP fun i => x.getLsbD i

structure LogicalImmediate where
  n : BitVec 32
  immr : BitVec 32
  imms : BitVec 32
  deriving DecidableEq, Repr

/-- The encoder once the size of the element is known. -/
def encodeElement (val : BitVec 64) (esize : Nat) : Option LogicalImmediate :=
  let emask := elementMask esize
  let elem := val &&& emask
  match (List.range esize).find? fun r => isLowRun emask (rotateElement esize emask elem r) with
  | none => none
  | some r =>
    let runLen := popcount (rotateElement esize emask elem r)
    let pfx : BitVec 32 :=
      if esize < 64 then ~~~(BitVec.ofNat 32 (esize * 2 - 1)) &&& 0x3F#32 else 0
    some
      { n := if esize = 64 then 1 else 0
        immr := BitVec.ofNat 32 r
        imms := pfx ||| BitVec.ofNat 32 (runLen - 1) }

def encodeLogicalImmediate (val : BitVec 64) (is64bit : Bool) : Option LogicalImmediate :=
  let size := if is64bit then 64 else 32
  let val := if is64bit then val else val &&& 0xFFFFFFFF#64
  if val == 0 || (is64bit && val == BitVec.allOnes 64) || (!is64bit && val == 0xFFFFFFFF#64) then
    none
  else encodeElement val (elementSize val size)

/-- `emit_logical_imm`, which throws where the immediate has no encoding. -/
def emitLogicalImm (opc : BitVec 32) (is64 : Bool) (dst src : BitVec 32) (imm : BitVec 64) :
    Option (BitVec 32) :=
  match encodeLogicalImmediate imm is64 with
  | none => none
  | some e =>
    let sf : BitVec 32 := if is64 then 1 else 0
    some ((sf <<< 31) ||| (opc <<< 29) ||| (0x24#32 <<< 23) ||| (e.n <<< 22) |||
      (e.immr <<< 16) ||| (e.imms <<< 10) ||| (src <<< 5) ||| dst)

/-! ## What the fields stand for -/

/-- The mask of `M` bits for the fields `immN`, `imms` and `immr` of a logical immediate; `none`
where the encoding is undefined. -/
def decodeBitMasks (M immN imms immr : Nat) : Option Nat :=
  -- The highest bit of `immN:NOT(imms)`.
  let len := Nat.log2 (immN * 64 + (63 - imms))
  if len < 1 ∨ M < 2 ^ len then none
  else
    let levels := 2 ^ len - 1
    let S := imms &&& levels
    let R := immr &&& levels
    if S = levels then none
    else
      some (((BitVec.ofNat (2 ^ len) (2 ^ (S + 1) - 1)).rotateRight R).replicate (M / 2 ^ len)).toNat

/-- A value of `M` bits that repeats a rotated run of ones, neither empty nor full. -/
def IsBitmask (M v : Nat) : Prop :=
  ∃ j c r, 1 ≤ j ∧ 2 ^ j ∣ M ∧ 0 < c ∧ c < 2 ^ j ∧ r < 2 ^ j ∧
    v = ((element (2 ^ j) c r).replicate (M / 2 ^ j)).toNat

theorem decodeBitMasks_run {M immN imms immr : Nat} (hj : 1 ≤ j) (hM : 2 ^ j ≤ M) (hc : 0 < c)
    (hlt : c < 2 ^ j) (hfields : immN * 64 + (63 - imms) = 2 ^ (j + 1) - c)
    (hS : imms % 2 ^ j = c - 1) (hR : immr < 2 ^ j) :
    decodeBitMasks M immN imms immr =
      some ((element (2 ^ j) c immr).replicate (M / 2 ^ j)).toNat := by
  have hlog : Nat.log2 (immN * 64 + (63 - imms)) = j := by
    rw [hfields, Nat.log2_eq_iff (by rw [pow_succ]; omega), pow_succ]
    omega
  have hand : ∀ x, x &&& (2 ^ j - 1) = x % 2 ^ j := fun x => Nat.and_two_pow_sub_one_eq_mod x j
  unfold decodeBitMasks
  generalize Nat.log2 (immN * 64 + (63 - imms)) = len at hlog
  subst hlog
  simp only [hand, hS]
  rw [if_neg (by omega), if_neg (by omega), Nat.mod_eq_of_lt hR, show c - 1 + 1 = c by omega]
  rfl

/-! ## The element -/

section Element

variable {val : BitVec 64} {size esize : Nat}

/-- `val` repeats its lowest `esize` bits up to `size`. -/
def Repeats (val : BitVec 64) (size esize : Nat) : Prop :=
  ∀ i < size, val.getLsbD i = val.getLsbD (i % esize)

theorem getLsbD_mask {half i : Nat} (hhalf : half < 64) :
    ((1#64 <<< half) - 1).getLsbD i = decide (i < half) := by
  have hmask : (1#64 <<< half) - 1 = BitVec.ofNat 64 (2 ^ half - 1) := by
    apply BitVec.eq_of_toNat_eq
    have hpow : 2 ^ half < 2 ^ 64 := Nat.pow_lt_pow_right (by omega) hhalf
    have hpos := Nat.two_pow_pos half
    have hone : (1#64 <<< half).toNat = 2 ^ half := by
      rw [BitVec.toNat_shiftLeft, Nat.shiftLeft_eq]
      simp only [BitVec.toNat_ofNat]
      omega
    rw [BitVec.toNat_sub, hone, BitVec.toNat_ofNat]
    show (2 ^ 64 - 1 + 2 ^ half) % 2 ^ 64 = (2 ^ half - 1) % 2 ^ 64
    omega
  rw [hmask, BitVec.getLsbD_ofNat, Nat.testBit_two_pow_sub_one]
  by_cases h : i < half
  · simp [h, show i < 64 by omega]
  · simp [h]

theorem halves_eq_iff {half : Nat} (hhalf : half < 64) :
    val &&& ((1#64 <<< half) - 1) = (val >>> half) &&& ((1#64 <<< half) - 1) ↔
      ∀ i < half, val.getLsbD (i + half) = val.getLsbD i := by
  rw [BitVec.eq_of_getLsbD_eq_iff]
  simp only [BitVec.getLsbD_and, getLsbD_mask hhalf, BitVec.getLsbD_ushiftRight]
  constructor
  · intro h i hi
    have := h i (by omega)
    simpa [hi, Nat.add_comm] using this.symm
  · intro h i _
    by_cases hi : i < half
    · simp [hi, ← h i hi, Nat.add_comm]
    · simp [hi]

theorem Repeats.half (h : Repeats val size (2 * esize)) (hpos : 0 < esize)
    (heq : ∀ i < esize, val.getLsbD (i + esize) = val.getLsbD i) : Repeats val size esize := by
  intro i hi
  have hm : i % (2 * esize) < 2 * esize := Nat.mod_lt i (by omega)
  rw [h i hi, ← Nat.mod_mod_of_dvd i (Dvd.intro_left 2 rfl : esize ∣ 2 * esize)]
  generalize i % (2 * esize) = m at hm ⊢
  by_cases hlow : m < esize
  · rw [Nat.mod_eq_of_lt hlow]
  · have := heq (m - esize) (by omega)
    rw [show m - esize + esize = m by omega] at this
    rw [this, Nat.mod_eq_sub_mod (by omega), Nat.mod_eq_of_lt (by omega)]

/-- The element is a power of two, `val` repeats it, and its halves differ. -/
structure IsElement (val : BitVec 64) (size esize : Nat) : Prop where
  pow : ∃ j, 1 ≤ j ∧ esize = 2 ^ j
  dvd : esize ∣ size
  repeats : Repeats val size esize
  halves : esize = 2 ∨ ∃ i < esize / 2, val.getLsbD (i + esize / 2) ≠ val.getLsbD i

theorem elementSize_spec (hsize : 0 < size) (hle : size ≤ 64)
    (hpow : ∃ j, 1 ≤ j ∧ esize = 2 ^ j) (hdvd : esize ∣ size) (hrep : Repeats val size esize) :
    IsElement val size (elementSize val esize) := by
  induction esize using elementSize.induct val with
  | case1 esize hbig half mask hne =>
    rw [elementSize, if_pos hbig]
    simp only
    rw [if_pos hne]
    have hhalf : half < 64 := by
      have := Nat.le_of_dvd hsize hdvd
      omega
    rw [ne_eq, halves_eq_iff hhalf] at hne
    push Not at hne
    exact ⟨hpow, hdvd, hrep, Or.inr hne⟩
  | case2 esize hbig half mask heq ih =>
    rw [elementSize, if_pos hbig]
    simp only
    rw [if_neg heq]
    obtain ⟨j, hj, rfl⟩ := hpow
    obtain ⟨k, rfl⟩ : ∃ k, j = k + 1 := ⟨j - 1, by omega⟩
    have hk : 1 ≤ k := by
      by_contra h0
      obtain rfl : k = 0 := by omega
      exact absurd hbig (by norm_num)
    have hhalf : half = 2 ^ k := by
      show 2 ^ (k + 1) / 2 = 2 ^ k
      rw [pow_succ, Nat.mul_div_cancel _ (by omega)]
    have hlt : half < 64 := by
      have := Nat.le_of_dvd hsize hdvd
      omega
    rw [not_not, halves_eq_iff hlt] at heq
    rw [pow_succ, Nat.mul_comm, ← hhalf] at hdvd hrep
    exact ih ⟨k, hk, hhalf⟩ ((Dvd.intro_left 2 rfl).trans hdvd)
      (hrep.half (hhalf ▸ Nat.two_pow_pos k) heq)
  | case3 esize hsmall =>
    rw [elementSize, if_neg hsmall]
    obtain ⟨j, hj, rfl⟩ := hpow
    have h2 : 2 ^ 1 ≤ 2 ^ j := Nat.pow_le_pow_right (by omega) hj
    exact ⟨⟨j, hj, rfl⟩, hdvd, hrep, Or.inl (by omega)⟩

/-! ## The rotation -/

section Rotation

variable {r i : Nat} {x : BitVec 64}

theorem getLsbD_elementMask (he : esize ≤ 64) :
    (elementMask esize).getLsbD i = decide (i < esize) := by
  unfold elementMask
  split
  · subst esize
    rw [BitVec.getLsbD_allOnes]
  · exact getLsbD_mask (by omega)

theorem toNat_elementMask (he : esize ≤ 64) : (elementMask esize).toNat = 2 ^ esize - 1 := by
  apply Nat.eq_of_testBit_eq
  intro i
  rw [← BitVec.getLsbD, getLsbD_elementMask he, Nat.testBit_two_pow_sub_one]

theorem getLsbD_rotateElement (he : esize ≤ 64) (hr : r < esize) :
    (rotateElement esize (elementMask esize) (val &&& elementMask esize) r).getLsbD i =
      (decide (i < esize) && val.getLsbD ((i + (esize - r)) % esize)) := by
  unfold rotateElement
  split
  · subst r
    by_cases hi : i < esize
    · simp [getLsbD_elementMask he, hi, Nat.mod_eq_of_lt hi]
    · simp [getLsbD_elementMask he, hi]
  · simp only [BitVec.getLsbD_and, BitVec.getLsbD_or, BitVec.getLsbD_shiftLeft,
      BitVec.getLsbD_ushiftRight, getLsbD_elementMask he]
    by_cases hi : i < esize
    · by_cases hlow : i < r
      · rw [Nat.mod_eq_of_lt (by omega)]
        simp [hi, hlow, show esize - r + i < esize by omega, Nat.add_comm i]
      · rw [Nat.mod_eq_sub_mod (by omega), Nat.mod_eq_of_lt (by omega)]
        simp [hi, hlow, show i < 64 by omega, show i - r < esize by omega,
          show ¬ esize - r + i < esize by omega, show i + (esize - r) - esize = i - r by omega]
    · simp [hi]

theorem toNat_rotateElement_lt (he : esize ≤ 64) (hr : r < esize) :
    (rotateElement esize (elementMask esize) (val &&& elementMask esize) r).toNat < 2 ^ esize := by
  apply Nat.lt_pow_two_of_testBit
  intro i hi
  rw [← BitVec.getLsbD, getLsbD_rotateElement he hr, decide_eq_false (by omega), Bool.false_and]

theorem isLowRun_iff (he : esize ≤ 64) (hx : x.toNat < 2 ^ esize) :
    isLowRun (elementMask esize) x = true ↔ ∃ k, 0 < k ∧ k < esize ∧ x.toNat = 2 ^ k - 1 := by
  have hmask := toNat_elementMask he
  simp only [isLowRun, Bool.and_eq_true, beq_iff_eq, bne_iff_ne, ne_eq]
  rw [← BitVec.toNat_inj, ← BitVec.toNat_inj, ← BitVec.toNat_inj, hmask, BitVec.toNat_and]
  by_cases hfull : x.toNat = 2 ^ esize - 1
  · constructor
    · exact fun h => absurd hfull h.2
    · rintro ⟨k, -, hk, hval⟩
      have : 2 ^ k < 2 ^ esize := Nat.pow_lt_pow_right (by omega) hk
      have := Nat.two_pow_pos k
      omega
  · have hsucc : (x + 1).toNat = x.toNat + 1 := by
      rw [BitVec.toNat_add]
      show (x.toNat + 1) % 2 ^ 64 = x.toNat + 1
      omega
    rw [hsucc]
    show (x.toNat &&& (x.toNat + 1) = 0 ∧ ¬ x.toNat = 0) ∧ _ ↔ _
    rw [and_succ_eq_zero_iff]
    constructor
    · rintro ⟨⟨⟨k, hk⟩, hne⟩, -⟩
      refine ⟨k, ?_, ?_, hk⟩
      · rcases Nat.eq_zero_or_pos k with rfl | hpos
        · exact absurd hk hne
        · exact hpos
      · by_contra hge
        have : 2 ^ esize ≤ 2 ^ k := Nat.pow_le_pow_right (by omega) (by omega)
        omega
    · rintro ⟨k, hpos, -, hk⟩
      have : 2 ^ 1 ≤ 2 ^ k := Nat.pow_le_pow_right (by omega) hpos
      exact ⟨⟨⟨k, hk⟩, by omega⟩, hfull⟩

theorem countP_range_lt (n k : Nat) :
    (List.range n).countP (fun i => decide (i < k)) = min n k := by
  induction n with
  | zero => simp
  | succ n ih =>
    rw [List.range_succ, List.countP_append, ih, List.countP_singleton]
    by_cases hk : n < k
    · simp [hk]
      omega
    · simp [hk]
      omega

theorem popcount_run {k : Nat} (hk : k ≤ 64) (hx : x.toNat = 2 ^ k - 1) : popcount x = k := by
  have hbits : (fun i => x.getLsbD i) = fun i => decide (i < k) := by
    funext i
    rw [BitVec.getLsbD, hx, Nat.testBit_two_pow_sub_one]
  rw [popcount, hbits, countP_range_lt]
  omega

theorem getLsbD_of_rotated {k : Nat} (he : esize ≤ 64) (hr : r < esize)
    (hrun : (rotateElement esize (elementMask esize) (val &&& elementMask esize) r).toNat =
      2 ^ k - 1) (hi : i < esize) : val.getLsbD i = run esize k r i := by
  have hlt : (i + r) % esize < esize := Nat.mod_lt _ (by omega)
  have hbit := @getLsbD_rotateElement val esize r ((i + r) % esize) he hr
  have hback : ((i + r) % esize + (esize - r)) % esize = i := by
    rw [Nat.mod_add_mod, show i + r + (esize - r) = i + esize by omega, Nat.add_mod_right,
      Nat.mod_eq_of_lt hi]
  rw [BitVec.getLsbD, hrun, Nat.testBit_two_pow_sub_one, hback, decide_eq_true hlt,
    Bool.true_and] at hbit
  exact hbit.symm

theorem rotateElement_of_run {k : Nat} (he : esize ≤ 64) (hr : r < esize) (hk : k ≤ esize)
    (hval : ∀ i < esize, val.getLsbD i = run esize k r i) :
    (rotateElement esize (elementMask esize) (val &&& elementMask esize) r).toNat = 2 ^ k - 1 := by
  apply Nat.eq_of_testBit_eq
  intro i
  rw [← BitVec.getLsbD, getLsbD_rotateElement he hr, Nat.testBit_two_pow_sub_one]
  by_cases hi : i < esize
  · rw [hval _ (Nat.mod_lt _ (by omega)), decide_eq_true hi, Bool.true_and, run, Nat.mod_add_mod,
      show i + (esize - r) + r = i + esize by omega, Nat.add_mod_right, Nat.mod_eq_of_lt hi]
  · rw [decide_eq_false hi, Bool.false_and, eq_comm, decide_eq_false_iff_not]
    omega

end Rotation

end Element

/-! ## The encoder -/

section Encode

variable {val : BitVec 64} {size esize r k : Nat}
variable {e : LogicalImmediate}

theorem exists_run_place (hr : r < esize) (hk : k < esize) :
    ∃ i < esize, ∀ c, run esize c r i = decide (k < c) := by
  refine ⟨(k + (esize - r)) % esize, Nat.mod_lt _ (by omega), fun c => ?_⟩
  rw [run, Nat.mod_add_mod, show k + (esize - r) + r = k + esize by omega, Nat.add_mod_right,
    Nat.mod_eq_of_lt hk]

theorem toNat_eq_replicate (hr : r < esize) (hdvd : esize ∣ size) (hlt : val.toNat < 2 ^ size)
    (hrep : Repeats val size esize) (hval : ∀ i < esize, val.getLsbD i = run esize c r i) :
    val.toNat = ((element esize c r).replicate (size / esize)).toNat := by
  apply Nat.eq_of_testBit_eq
  intro i
  rw [← BitVec.getLsbD, ← BitVec.getLsbD]
  have hmul := Nat.mul_div_cancel' hdvd
  by_cases hi : i < size
  · rw [getLsbD_replicate_element hr (by omega), hrep i hi, hval _ (Nat.mod_lt i (by omega)),
      run_mod]
  · have hout : ((element esize c r).replicate (size / esize)).getLsbD i = false :=
      BitVec.getLsbD_of_ge _ i (by omega)
    rw [hout, BitVec.getLsbD]
    exact Nat.testBit_lt_two_pow (hlt.trans_le (Nat.pow_le_pow_right (by omega) (by omega)))

theorem getLsbD_of_replicate (hr : r < esize) (hdvd : esize ∣ size)
    (hval : val.toNat = ((element esize c r).replicate (size / esize)).toNat) {i : Nat}
    (hi : i < size) : val.getLsbD i = run esize c r i := by
  have hmul := Nat.mul_div_cancel' hdvd
  rw [BitVec.getLsbD, hval, ← BitVec.getLsbD, getLsbD_replicate_element hr (by omega)]

/-- The element that the halving finds is the one the value is made of. -/
theorem IsElement.unique (h : IsElement val size esize) (hj : 1 ≤ j) (hdvd : 2 ^ j ∣ size)
    (hsize : 0 < size) (hc : 0 < c) (hlt : c < 2 ^ j)
    (hval : ∀ i < size, val.getLsbD i = run (2 ^ j) c r i) : esize = 2 ^ j := by
  obtain ⟨k, hk, rfl⟩ := h.pow
  have hle : 2 ^ k ≤ size := Nat.le_of_dvd hsize h.dvd
  have hle' : 2 ^ j ≤ size := Nat.le_of_dvd hsize hdvd
  rcases Nat.lt_trichotomy k j with hkj | rfl | hkj
  · -- A smaller element divides half of the real one, which is no period.
    obtain ⟨m, rfl⟩ : ∃ m, j = m + 1 := ⟨j - 1, by omega⟩
    rw [pow_succ, Nat.mul_comm] at hlt hle' hval
    obtain ⟨i, hi, hne⟩ := run_half_ne (r := r) hc hlt
    have hper : 2 ^ k ∣ 2 ^ m := Nat.pow_dvd_pow 2 (by omega)
    have hmod : (i + 2 ^ m) % 2 ^ k = i % 2 ^ k := by
      obtain ⟨d, hd⟩ := hper
      rw [hd, Nat.add_mul_mod_self_left]
    have hleft := h.repeats (i + 2 ^ m) (by omega)
    have hright := h.repeats i (by omega)
    rw [hmod, ← hright, hval _ (by omega), hval _ (by omega)] at hleft
    exact absurd hleft hne
  · rfl
  · -- The real element divides half of a larger one, whose halves differ.
    obtain ⟨m, rfl⟩ : ∃ m, k = m + 1 := ⟨k - 1, by omega⟩
    have hhalf : 2 ^ (m + 1) / 2 = 2 ^ m := by
      rw [pow_succ, Nat.mul_div_cancel _ (by omega)]
    rcases h.halves with h2 | ⟨i, hi, hne⟩
    · have : 2 ^ 2 ≤ 2 ^ (m + 1) := Nat.pow_le_pow_right (by omega) (by omega)
      omega
    · rw [hhalf] at hi hne
      rw [pow_succ] at hle
      obtain ⟨d, hd⟩ : 2 ^ j ∣ 2 ^ m := Nat.pow_dvd_pow 2 (by omega)
      rw [hval _ (by omega), hval _ (by omega), hd, run_add_mul] at hne
      exact absurd rfl hne

/-- The fields of the encoding of a run. -/
structure Encodes (e : LogicalImmediate) (esize k r : Nat) : Prop where
  fields : e.n.toNat * 64 + (63 - e.imms.toNat) = 2 * esize - k
  low : e.imms.toNat % esize = k - 1
  immr : e.immr.toNat = r
  n_lt : e.n.toNat < 2
  imms_lt : e.imms.toNat < 64

theorem prefix_or (he : esize ∈ [2, 4, 8, 16, 32]) (hk : k < esize) :
    ((~~~(BitVec.ofNat 32 (esize * 2 - 1)) &&& 0x3F#32) ||| BitVec.ofNat 32 k).toNat =
      64 - 2 * esize + k := by
  fin_cases he <;> interval_cases k <;> rfl

theorem mem_sizes (hj : 1 ≤ j) (hle : 2 ^ j ≤ 64) : 2 ^ j ∈ [2, 4, 8, 16, 32] ∨ 2 ^ j = 64 := by
  have : j ≤ 6 := (Nat.pow_le_pow_iff_right (a := 2) (by omega)).mp (by simpa using hle)
  interval_cases j <;> simp

theorem encodeElement_some (hpow : ∃ j, 1 ≤ j ∧ esize = 2 ^ j) (hle : esize ≤ 64)
    (h : encodeElement val esize = some e) :
    ∃ k r, 0 < k ∧ k < esize ∧ r < esize ∧ Encodes e esize k r ∧
      ∀ i < esize, val.getLsbD i = run esize k r i := by
  unfold encodeElement at h
  simp only at h
  split at h
  · exact absurd h (by simp)
  rename_i r hfind
  have hr : r < esize := List.mem_range.mp (List.mem_of_find?_eq_some hfind)
  have hrun := List.find?_some hfind
  obtain ⟨k, hk, hlt, hval⟩ := (isLowRun_iff hle (toNat_rotateElement_lt hle hr)).mp hrun
  have hlen := popcount_run (hlt.le.trans hle) hval
  refine ⟨k, r, hk, hlt, hr, ?_, fun i hi => getLsbD_of_rotated hle hr hval hi⟩
  rw [hlen, Option.some_inj] at h
  subst h
  obtain ⟨j, hj, rfl⟩ := hpow
  have hr32 : (BitVec.ofNat 32 r).toNat = r := by
    rw [BitVec.toNat_ofNat]
    omega
  rcases mem_sizes hj hle with hmem | h64
  · have hsmall : 2 ^ j ≤ 32 := by
      simp only [List.mem_cons, List.not_mem_nil, or_false] at hmem
      omega
    have himms := prefix_or (k := k - 1) hmem (by omega)
    refine ⟨?_, ?_, hr32, ?_, ?_⟩
    · simp only [if_pos (show 2 ^ j < 64 by omega), if_neg (show ¬ 2 ^ j = 64 by omega), himms]
      show 0 * 64 + _ = _
      omega
    · simp only [if_pos (show 2 ^ j < 64 by omega), himms]
      have hmul : 64 - 2 * 2 ^ j + (k - 1) = k - 1 + 2 ^ j * (64 / 2 ^ j - 2) := by
        obtain ⟨d, hd⟩ : 2 ^ j ∣ 2 ^ 6 :=
          Nat.pow_dvd_pow 2 ((Nat.pow_le_pow_iff_right (a := 2) (by omega)).mp hle)
        rw [show (2 : Nat) ^ 6 = 64 by norm_num] at hd
        rw [hd, Nat.mul_div_cancel_left _ (by omega), Nat.mul_sub]
        omega
      rw [hmul, Nat.add_mul_mod_self_left, Nat.mod_eq_of_lt (by omega)]
    · simp only [if_neg (show ¬ 2 ^ j = 64 by omega)]
      show 0 < 2
      omega
    · simp only [if_pos (show 2 ^ j < 64 by omega), himms]
      omega
  · have himms : (0#32 ||| BitVec.ofNat 32 (k - 1)).toNat = k - 1 := by
      rw [BitVec.zero_or, BitVec.toNat_ofNat]
      omega
    refine ⟨?_, ?_, hr32, ?_, ?_⟩
    · simp only [if_neg (show ¬ 2 ^ j < 64 by omega), if_pos h64]
      show 1 * 64 + (63 - (0#32 ||| BitVec.ofNat 32 (k - 1)).toNat) = _
      rw [himms]
      omega
    · simp only [if_neg (show ¬ 2 ^ j < 64 by omega)]
      show (0#32 ||| BitVec.ofNat 32 (k - 1)).toNat % 2 ^ j = k - 1
      rw [himms, Nat.mod_eq_of_lt (by omega)]
    · simp only [if_pos h64]
      show 1 < 2
      omega
    · simp only [if_neg (show ¬ 2 ^ j < 64 by omega)]
      show (0#32 ||| BitVec.ofNat 32 (k - 1)).toNat < 64
      omega

theorem encodeElement_isSome (hle : esize ≤ 64) (hr : r < esize) (hk : 0 < k) (hlt : k < esize)
    (hval : ∀ i < esize, val.getLsbD i = run esize k r i) :
    (encodeElement val esize).isSome = true := by
  unfold encodeElement
  simp only
  split
  · rename_i hfind
    refine absurd ?_ (List.find?_eq_none.mp hfind r (List.mem_range.mpr hr))
    exact (isLowRun_iff hle (toNat_rotateElement_lt hle hr)).mpr
      ⟨k, hk, hlt, rotateElement_of_run hle hr hlt.le hval⟩
  · rfl

theorem decodeBitMasks_of_encodes (hel : IsElement val size esize) (hsize : 0 < size)
    (hlt : val.toNat < 2 ^ size) (hk : 0 < k) (hke : k < esize) (hr : r < esize)
    (henc : Encodes e esize k r) (hval : ∀ i < esize, val.getLsbD i = run esize k r i) :
    decodeBitMasks size e.n.toNat e.imms.toNat e.immr.toNat = some val.toNat := by
  have hdvd := hel.dvd
  have hword := toNat_eq_replicate hr hel.dvd hlt hel.repeats hval
  obtain ⟨hfields, hlow, himmr, -, -⟩ := henc
  obtain ⟨j, hj, rfl⟩ := hel.pow
  rw [hword, decodeBitMasks_run hj (Nat.le_of_dvd hsize hdvd) hk hke
    (by rw [hfields, pow_succ, Nat.mul_comm]) hlow (himmr ▸ hr), himmr]

theorem ne_of_run (hr : r < esize) (hk : 0 < k) (hlt : k < esize) (hle : esize ≤ size)
    (hval : ∀ i < size, val.getLsbD i = run esize k r i) :
    val ≠ 0 ∧ val.toNat ≠ 2 ^ size - 1 := by
  constructor
  · rintro rfl
    obtain ⟨i, hi, hrun⟩ := exists_run_place (k := 0) hr (by omega)
    have := hval i (by omega)
    simp [hrun, hk] at this
  · intro hones
    obtain ⟨i, hi, hrun⟩ := exists_run_place hr hlt
    have := hval i (by omega)
    rw [hrun, BitVec.getLsbD, hones, Nat.testBit_two_pow_sub_one] at this
    simp [show i < size by omega] at this

/-- The two widths as one: a value of `size` bits, and the answer of the encoder on it. -/
theorem encodeElement_spec (hsize : ∃ j, 1 ≤ j ∧ size = 2 ^ j) (hle : size ≤ 64)
    (hlt : val.toNat < 2 ^ size) :
    (IsBitmask size val.toNat → (encodeElement val (elementSize val size)).isSome = true) ∧
      ∀ e, encodeElement val (elementSize val size) = some e → IsBitmask size val.toNat ∧
          decodeBitMasks size e.n.toNat e.imms.toNat e.immr.toNat = some val.toNat := by
  have hpos : 0 < size := by
    obtain ⟨j, -, rfl⟩ := hsize
    exact Nat.two_pow_pos j
  have hwhole : Repeats val size size := fun i hi => by rw [Nat.mod_eq_of_lt hi]
  have hel := elementSize_spec hpos hle hsize dvd_rfl hwhole
  have hele : elementSize val size ≤ 64 := (Nat.le_of_dvd hpos hel.dvd).trans hle
  constructor
  · rintro ⟨j, c, r, hj, hdvd, hc, hcl, hr, hword⟩
    have hval : ∀ i < size, val.getLsbD i = run (2 ^ j) c r i := fun i hi =>
      getLsbD_of_replicate hr hdvd hword hi
    have huniq := hel.unique hj hdvd hpos hc hcl hval
    rw [huniq] at hele ⊢
    exact encodeElement_isSome hele hr hc hcl fun i hi =>
      hval i (hi.trans_le (Nat.le_of_dvd hpos hdvd))
  · intro e he
    obtain ⟨k, r, hk, hkl, hr, henc, hval⟩ := encodeElement_some hel.pow hele he
    refine ⟨?_, decodeBitMasks_of_encodes hel hpos hlt hk hkl hr henc hval⟩
    have hword := toNat_eq_replicate hr hel.dvd hlt hel.repeats hval
    obtain ⟨j, hj, hpow⟩ := hel.pow
    have hdvd := hel.dvd
    rw [hpow] at hkl hr hword hdvd
    exact ⟨j, k, r, hj, hdvd, hk, hkl, hr, hword⟩

theorem toNat_and_low (val : BitVec 64) : (val &&& 0xFFFFFFFF#64).toNat = val.toNat % 2 ^ 32 := by
  rw [BitVec.toNat_and]
  exact Nat.and_two_pow_sub_one_eq_mod val.toNat 32

/-- The encoder succeeds on exactly the values that repeat a rotated run of ones, and its fields
stand for the value. -/
theorem encodeLogicalImmediate_spec (val : BitVec 64) (is64bit : Bool) :
    let M := if is64bit then 64 else 32
    ((encodeLogicalImmediate val is64bit).isSome = true ↔ IsBitmask M (val.toNat % 2 ^ M)) ∧
      ∀ e, encodeLogicalImmediate val is64bit = some e →
        decodeBitMasks M e.n.toNat e.imms.toNat e.immr.toNat = some (val.toNat % 2 ^ M) := by
  intro M
  -- The value that the encoder works on, of the width of the form.
  obtain ⟨v, hv, hvM, henc⟩ : ∃ v : BitVec 64, v.toNat = val.toNat % 2 ^ M ∧
      v.toNat < 2 ^ M ∧ encodeLogicalImmediate val is64bit =
        if v = 0 ∨ v.toNat = 2 ^ M - 1 then none else encodeElement v (elementSize v M) := by
    cases is64bit
    · refine ⟨val &&& 0xFFFFFFFF#64, toNat_and_low val, ?_, ?_⟩
      · rw [toNat_and_low]
        exact Nat.mod_lt _ (by norm_num)
      · simp only [encodeLogicalImmediate, M, Bool.false_eq_true, if_false, Bool.false_and,
          Bool.or_false, Bool.not_false, Bool.true_and, Bool.or_eq_true, beq_iff_eq]
        exact if_congr (or_congr Iff.rfl BitVec.toNat_inj.symm) rfl rfl
    · refine ⟨val, ?_, val.isLt, ?_⟩
      · exact (Nat.mod_eq_of_lt val.isLt).symm
      · simp only [encodeLogicalImmediate, M, if_true, Bool.true_and, Bool.not_true,
          Bool.false_and, Bool.or_false, Bool.or_eq_true, beq_iff_eq]
        exact if_congr (or_congr Iff.rfl BitVec.toNat_inj.symm) rfl rfl
  have hpow : ∃ j, 1 ≤ j ∧ M = 2 ^ j := by
    cases is64bit
    · exact ⟨5, by omega, rfl⟩
    · exact ⟨6, by omega, rfl⟩
  have hM : M ≤ 64 := by
    cases is64bit
    · show 32 ≤ 64
      omega
    · show 64 ≤ 64
      omega
  obtain ⟨hcomplete, hsound⟩ := encodeElement_spec hpow hM hvM
  rw [henc, ← hv]
  split
  · rename_i hguard
    refine ⟨⟨fun h => absurd h (by simp), ?_⟩, fun e he => absurd he (by simp)⟩
    rintro ⟨j, c, r, -, hdvd, hc, hcl, hr, hword⟩
    have hpos : 0 < M := by
      obtain ⟨j, -, hj⟩ := hpow
      rw [hj]
      exact Nat.two_pow_pos j
    have hne := ne_of_run hr hc hcl (Nat.le_of_dvd hpos hdvd) fun i hi =>
      getLsbD_of_replicate hr hdvd hword hi
    exact absurd hguard (not_or.mpr hne)
  · refine ⟨⟨fun h => ?_, hcomplete⟩, fun e he => (hsound e he).2⟩
    obtain ⟨e, he⟩ := Option.isSome_iff_exists.mp h
    exact (hsound e he).1

/-! ## The instruction -/

theorem encodeElement_fields_lt (hpow : ∃ j, 1 ≤ j ∧ esize = 2 ^ j) (hle : esize ≤ 64)
    (h : encodeElement val esize = some e) :
    e.n.toNat < 2 ^ 1 ∧ e.immr.toNat < 2 ^ 6 ∧ e.imms.toNat < 2 ^ 6 := by
  obtain ⟨k, r, -, -, hr, henc, -⟩ := encodeElement_some hpow hle h
  refine ⟨henc.n_lt, ?_, henc.imms_lt⟩
  rw [henc.immr]
  omega

theorem encodeLogicalImmediate_fields_lt {is64bit : Bool}
    (h : encodeLogicalImmediate val is64bit = some e) :
    e.n.toNat < 2 ^ 1 ∧ e.immr.toNat < 2 ^ 6 ∧ e.imms.toNat < 2 ^ 6 := by
  have hwidth : ∀ v : BitVec 64, ∀ M, 0 < M → M ≤ 64 → (∃ j, 1 ≤ j ∧ M = 2 ^ j) →
      encodeElement v (elementSize v M) = some e →
      e.n.toNat < 2 ^ 1 ∧ e.immr.toNat < 2 ^ 6 ∧ e.imms.toNat < 2 ^ 6 := by
    intro v M hpos hle hpow he
    have hel := @elementSize_spec v M M hpos hle hpow dvd_rfl fun i hi => by
      rw [Nat.mod_eq_of_lt hi]
    exact encodeElement_fields_lt hel.pow ((Nat.le_of_dvd hpos hel.dvd).trans hle) he
  unfold encodeLogicalImmediate at h
  cases is64bit
  · simp only [Option.ite_none_left_eq_some] at h
    exact hwidth _ 32 (by omega) (by omega) ⟨5, by omega, rfl⟩ h.2
  · simp only [Option.ite_none_left_eq_some] at h
    exact hwidth _ 64 (by omega) (by omega) ⟨6, by omega, rfl⟩ h.2

theorem or_above {hi lo w : Nat} (k : Nat) (h : lo < 2 ^ w) :
    hi <<< (k + w) ||| lo <<< k = (lo + 2 ^ w * hi) <<< k := by
  rw [Nat.add_comm k, Nat.shiftLeft_add, ← Nat.shiftLeft_or_distrib, Nat.or_comm,
    Brass.Util.or_shiftLeft h]

/-- Each field of the emitted instruction is what it was asked to be. -/
theorem emitLogicalImm_fields {opc dst src inst : BitVec 32} {is64 : Bool}
    (hopc : opc.toNat < 2 ^ 2) (hdst : dst.toNat < 2 ^ 5) (hsrc : src.toNat < 2 ^ 5)
    (h : emitLogicalImm opc is64 dst src val = some inst) :
    ∃ e, encodeLogicalImmediate val is64 = some e ∧ inst.toNat % 2 ^ 5 = dst.toNat ∧
      inst.toNat / 2 ^ 5 % 2 ^ 5 = src.toNat ∧ inst.toNat / 2 ^ 10 % 2 ^ 6 = e.imms.toNat ∧
      inst.toNat / 2 ^ 16 % 2 ^ 6 = e.immr.toNat ∧ inst.toNat / 2 ^ 22 % 2 = e.n.toNat ∧
      inst.toNat / 2 ^ 23 % 2 ^ 6 = 0x24 ∧ inst.toNat / 2 ^ 29 % 2 ^ 2 = opc.toNat ∧
      inst.toNat / 2 ^ 31 = is64.toNat := by
  unfold emitLogicalImm at h
  split at h
  · exact absurd h (by simp)
  rename_i e he
  obtain ⟨hn, hr, hs⟩ := encodeLogicalImmediate_fields_lt he
  refine ⟨e, he, ?_⟩
  have hshift : ∀ (x : BitVec 32) (k : Nat), x.toNat * 2 ^ k < 2 ^ 32 →
      (x <<< k).toNat = x.toNat <<< k := by
    intro x k hlt
    rw [BitVec.toNat_shiftLeft, Nat.shiftLeft_eq, Nat.mod_eq_of_lt hlt]
  have hsf : (if is64 then 1 else 0 : BitVec 32).toNat = is64.toNat := by cases is64 <;> rfl
  have hsf' := is64.toNat_le
  cases h
  -- The fields do not overlap: each is added below those above it.
  simp only [BitVec.toNat_or]
  rw [hshift _ 31 (by omega), hshift opc 29 (by omega), hshift _ 23 (by decide),
    hshift e.n 22 (by omega), hshift e.immr 16 (by omega), hshift e.imms 10 (by omega),
    hshift src 5 (by omega), hsf, or_above 29 hopc,
    or_above 23 (show (0x24#32).toNat < 2 ^ 6 by decide), or_above 22 hn, or_above 16 hr,
    or_above 10 hs, or_above 5 hsrc, ← Nat.shiftLeft_zero (n := dst.toNat), or_above 0 hdst,
    Nat.shiftLeft_zero, show (0x24#32).toNat = 0x24 from rfl]
  omega

/-- `orr x0, xzr, #0xff` -/
theorem emitLogicalImm_fields_orr :
    ∃ e, encodeLogicalImmediate 0xff true = some e ∧ 0xb2401fe0 % 2 ^ 5 = 0 ∧
      0xb2401fe0 / 2 ^ 5 % 2 ^ 5 = 31 ∧ 0xb2401fe0 / 2 ^ 10 % 2 ^ 6 = e.imms.toNat := by
  obtain ⟨e, he, hdst, hsrc, himms, -⟩ := @emitLogicalImm_fields 0xff 1 0 31 0xb2401fe0 true
    (by decide) (by decide) (by decide) (by decide +kernel)
  exact ⟨e, he, hdst, hsrc, himms⟩

end Encode

end Brass.Target
