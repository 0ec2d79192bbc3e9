import Brass.Target.DivMagic
import Brass.Util.ShiftDivision

/-!
# Lowering of division by a constant on x64

`divisor_folds`, `lower_signed_div_magic` and `lower_div_mod` of
`target/x64/x64_isel_shift_div.cpp` as lists of low-level instructions, and a machine that runs
them. The sequence around the division instruction, which is what remains for all other
divisors, is not modelled: `lowerDivMod` is `none` there.
-/

namespace Brass.Target.X64

open Brass.Util BitVec ShiftDivision

inductive OpSize
  | b4
  | b8
  deriving DecidableEq, Repr

def OpSize.bits : OpSize → Nat
  | b4 => 32
  | b8 => 64

inductive Reg
  | rax
  | rdx
  | vreg (id : Nat)
  deriving DecidableEq, Repr

inductive Use
  | reg (r : Reg)
  | imm (v : BitVec 64)
  deriving DecidableEq, Repr

inductive AluOp
  | add
  | sub
  | imul
  | and
  | xor
  | shr
  | sar
  deriving DecidableEq, Repr

inductive Inst
  | mov (sz : OpSize) (dst : Reg) (src : Use)
  | alu (op : AluOp) (sz : OpSize) (dst : Reg) (a b : Use)
  /-- The one-operand `imul`: `rdx:rax` is the signed product of `rax` and the source. -/
  | smulh (src : Reg)
  deriving DecidableEq, Repr

/-! ## The machine -/

abbrev Regs := Reg → BitVec 64

def Use.value (σ : Regs) : Use → BitVec 64
  | reg r => σ r
  | imm v => v

def AluOp.word {w : Nat} (op : AluOp) (a b : BitVec w) : BitVec w :=
  match op with
  | add => a + b
  | sub => a - b
  | imul => a * b
  | and => a &&& b
  | xor => a ^^^ b
  | shr => a >>> (b.toNat % w)
  | sar => a.sshiftRight (b.toNat % w)

/-- A 32-bit result clears the upper half of its register. -/
def step (σ : Regs) : Inst → Regs
  | .mov sz dst src => Function.update σ dst (((src.value σ).setWidth sz.bits).setWidth 64)
  | .alu op sz dst a b =>
    Function.update σ dst
      ((op.word ((a.value σ).setWidth sz.bits) ((b.value σ).setWidth sz.bits)).setWidth 64)
  | .smulh src =>
    Function.update (Function.update σ .rax (σ .rax * σ src)) .rdx (smulh (σ .rax) (σ src))

def run (insts : List Inst) (σ : Regs) : Regs := insts.foldl step σ

def read (sz : OpSize) (σ : Regs) (v : Nat) : BitVec sz.bits := (σ (.vreg v)).setWidth sz.bits

/-! ## The lowering -/

structure ImmIntInfo where
  isImm : Bool
  val : BitVec 64
  fitsI32 : Bool
  deriving DecidableEq, Repr

/-- `next` is the first virtual register that is free. -/
def lowerSignedDivMagic (dst n op1 next : Nat) (isMod : Bool) (divisor : ImmIntInfo)
    (mg : SignedDivMagic) : List Inst :=
  let q := next
  let sign := next + 1
  let prod := next + 2
  [.mov .b8 .rax (.imm mg.multiplier), .smulh (.vreg n), .mov .b8 (.vreg q) (.reg .rdx)] ++
    (if mg.multiplier.slt 0 then
      [.alu .add .b8 (.vreg q) (.reg (.vreg q)) (.reg (.vreg n))] else []) ++
    (if 0 < mg.shift then
      [.alu .sar .b8 (.vreg q) (.reg (.vreg q)) (.imm (BitVec.ofInt 64 mg.shift))] else []) ++
    [.mov .b8 (.vreg sign) (.reg (.vreg n)),
      .alu .shr .b8 (.vreg sign) (.reg (.vreg sign)) (.imm 63)] ++
    (if !isMod then
      [.mov .b8 (.vreg dst) (.reg (.vreg q)),
        .alu .add .b8 (.vreg dst) (.reg (.vreg dst)) (.reg (.vreg sign))]
    else
      [.alu .add .b8 (.vreg q) (.reg (.vreg q)) (.reg (.vreg sign))] ++
        (if divisor.fitsI32 then
          [.alu .imul .b8 (.vreg prod) (.reg (.vreg q)) (.imm divisor.val)]
        else
          [.mov .b8 (.vreg prod) (.reg (.vreg q)),
            .alu .imul .b8 (.vreg prod) (.reg (.vreg prod)) (.reg (.vreg op1))]) ++
        [.mov .b8 (.vreg dst) (.reg (.vreg n)),
          .alu .sub .b8 (.vreg dst) (.reg (.vreg dst)) (.reg (.vreg prod))])

def divisorFolds (divisor : ImmIntInfo) (isMod : Bool) : Bool :=
  if !divisor.isImm || divisor.val.sle 0 then false
  else
    let c := divisor.val
    if (c &&& (c - 1)) != 0 then false
    else !isMod || decide (c ≤ 1 <<< 31)

/-- The loop that counts up to the exponent of `C`. -/
def foldShift (C : BitVec 64) : Nat → Nat → Nat
  | 0, k => k
  | fuel + 1, k => if 1#64 <<< k < C then foldShift C fuel (k + 1) else k

/-- An immediate that the encoder sign-extends from 32 bits. -/
def immI32 (v : BitVec 64) : Use := .imm ((v.setWidth 32).signExtend 64)

def shiftImm (k : Nat) : Use := .imm (BitVec.ofNat 64 k)

def lowerUdivFold (sz : OpSize) (dst op0 k : Nat) : List Inst :=
  if k = 0 then [.mov sz (.vreg dst) (.reg (.vreg op0))]
  else
    [.mov sz (.vreg dst) (.reg (.vreg op0)),
      .alu .shr sz (.vreg dst) (.reg (.vreg dst)) (shiftImm k)]

/-- A mask that does not fit an immediate leaves the division instruction. -/
def lowerUmodFold (sz : OpSize) (dst op0 k : Nat) (C : BitVec 64) : Option (List Inst) :=
  if k = 0 then some [.alu .xor sz (.vreg dst) (.reg (.vreg dst)) (.reg (.vreg dst))]
  else
    let mask := C - 1
    if mask ≤ 0x7FFFFFFF#64 then
      some
        [.mov sz (.vreg dst) (.reg (.vreg op0)),
          .alu .and sz (.vreg dst) (.reg (.vreg dst)) (immI32 mask)]
    else none

def lowerSdivFold (sz : OpSize) (dst op0 tmp k : Nat) : List Inst :=
  if k = 0 then [.mov sz (.vreg dst) (.reg (.vreg op0))]
  else if k = 1 then
    [.mov sz (.vreg tmp) (.reg (.vreg op0)),
      .alu .shr sz (.vreg tmp) (.reg (.vreg tmp)) (shiftImm (sz.bits - 1)),
      .mov sz (.vreg dst) (.reg (.vreg op0)),
      .alu .add sz (.vreg dst) (.reg (.vreg dst)) (.reg (.vreg tmp)),
      .alu .sar sz (.vreg dst) (.reg (.vreg dst)) (shiftImm 1)]
  else
    [.mov sz (.vreg tmp) (.reg (.vreg op0)),
      .alu .sar sz (.vreg tmp) (.reg (.vreg tmp)) (shiftImm (sz.bits - 1)),
      .alu .shr sz (.vreg tmp) (.reg (.vreg tmp)) (shiftImm (sz.bits - k)),
      .mov sz (.vreg dst) (.reg (.vreg op0)),
      .alu .add sz (.vreg dst) (.reg (.vreg dst)) (.reg (.vreg tmp)),
      .alu .sar sz (.vreg dst) (.reg (.vreg dst)) (shiftImm k)]

def lowerSmodFold (sz : OpSize) (dst op0 tmp k : Nat) (C : BitVec 64) : List Inst :=
  if k = 0 then [.alu .xor sz (.vreg dst) (.reg (.vreg dst)) (.reg (.vreg dst))]
  else if k = 1 then
    [.mov sz (.vreg tmp) (.reg (.vreg op0)),
      .alu .shr sz (.vreg tmp) (.reg (.vreg tmp)) (shiftImm (sz.bits - 1)),
      .alu .add sz (.vreg tmp) (.reg (.vreg tmp)) (.reg (.vreg op0)),
      .alu .and sz (.vreg tmp) (.reg (.vreg tmp)) (.imm (BitVec.ofInt 64 (-2))),
      .mov sz (.vreg dst) (.reg (.vreg op0)),
      .alu .sub sz (.vreg dst) (.reg (.vreg dst)) (.reg (.vreg tmp))]
  else
    [.mov sz (.vreg tmp) (.reg (.vreg op0)),
      .alu .sar sz (.vreg tmp) (.reg (.vreg tmp)) (shiftImm (sz.bits - 1)),
      .alu .shr sz (.vreg tmp) (.reg (.vreg tmp)) (shiftImm (sz.bits - k)),
      .alu .add sz (.vreg tmp) (.reg (.vreg tmp)) (.reg (.vreg op0)),
      .alu .and sz (.vreg tmp) (.reg (.vreg tmp)) (immI32 (~~~(C - 1))),
      .mov sz (.vreg dst) (.reg (.vreg op0)),
      .alu .sub sz (.vreg dst) (.reg (.vreg dst)) (.reg (.vreg tmp))]

/-- The search of the multiplier ends within 63 rounds (`Found.search`). -/
def lowerDivMod (sz : OpSize) (isSigned isMod : Bool) (dst op0 op1 next : Nat)
    (imm1 : ImmIntInfo) : Option (List Inst) :=
  if isSigned && sz == .b8 && imm1.isImm && takesSignedDivMagic imm1.val then
    (signedDivMagic64 63 imm1.val).map fun mg =>
      lowerSignedDivMagic dst op0 op1 next isMod imm1 mg
  else if divisorFolds imm1 isMod then
    let C := imm1.val
    let k := foldShift C 64 0
    match isSigned, isMod with
    | false, false => some (lowerUdivFold sz dst op0 k)
    | false, true => lowerUmodFold sz dst op0 k C
    | true, false => some (lowerSdivFold sz dst op0 next k)
    | true, true => some (lowerSmodFold sz dst op0 next k C)
  else none

/-- What the division instructions of the MIR answer. -/
def divMod {w : Nat} (isSigned isMod : Bool) (x d : BitVec w) : BitVec w :=
  match isSigned, isMod with
  | false, false => x / d
  | false, true => x % d
  | true, false => x.sdiv d
  | true, true => x.srem d

/-! ## The constants -/

theorem toNat_one_shiftLeft {k : Nat} (hk : k < 64) : (1#64 <<< k).toNat = 2 ^ k := by
  have hlt : 2 ^ k < 2 ^ 64 := Nat.pow_lt_pow_right (by omega) hk
  rw [toNat_shiftLeft, Nat.shiftLeft_eq]
  show 1 * 2 ^ k % 2 ^ 64 = 2 ^ k
  rw [Nat.one_mul, Nat.mod_eq_of_lt hlt]

theorem divisorFolds_iff {divisor : ImmIntInfo} {isMod : Bool} : divisorFolds divisor isMod = true ↔
      divisor.isImm = true ∧ ∃ k ≤ 62, divisor.val.toNat = 2 ^ k ∧ (isMod = true → k ≤ 31) := by
  obtain ⟨isImm, c, fits⟩ := divisor
  have hc := c.isLt
  have hsle : c.sle 0 = false ↔ 0 < c.toNat ∧ c.toNat < 2 ^ 63 := by
    rw [sle_eq_decide, decide_eq_false_iff_not, toInt_eq_toNat_cond]
    show ¬ _ ≤ (0 : Int) ↔ _
    split <;> omega
  have hpow : 0 < c.toNat → ((c &&& (c - 1)) = 0 ↔ ∃ k, c.toNat = 2 ^ k) := by
    intro hpos
    have hpred : (c - 1).toNat = c.toNat - 1 := by
      rw [toNat_sub]
      show (2 ^ 64 - 1 + c.toNat) % 2 ^ 64 = c.toNat - 1
      omega
    rw [← toNat_inj, toNat_and, hpred]
    exact Nat.and_sub_one_eq_zero_iff_isPowerOfTwo (by omega)
  have hmod : ∀ k, c.toNat = 2 ^ k → (c ≤ 1 <<< 31 ↔ k ≤ 31) := by
    intro k hk
    rw [le_def, hk]
    show 2 ^ k ≤ 2 ^ 31 ↔ _
    exact Nat.pow_le_pow_iff_right (by omega)
  simp only [divisorFolds]
  by_cases hguard : isImm = true ∧ c.sle 0 = false
  · obtain ⟨rfl, hpos⟩ := hguard
    obtain ⟨hlow, hhigh⟩ := hsle.mp hpos
    rw [hpos]
    simp only [Bool.not_true, Bool.or_false, Bool.false_eq_true, if_false, bne_iff_ne, ne_eq,
      true_and]
    by_cases hand : (c &&& (c - 1)) = 0
    · obtain ⟨k, hk⟩ := (hpow hlow).mp hand
      have hk62 : k < 63 := (Nat.pow_lt_pow_iff_right (a := 2) (by omega)).mp (hk ▸ hhigh)
      simp only [hand, not_true, if_false, Bool.or_eq_true, Bool.not_eq_true', decide_eq_true_eq,
        hmod k hk]
      constructor
      · intro h
        refine ⟨k, by omega, hk, fun ht => h.resolve_left (by simp [ht])⟩
      · rintro ⟨j, -, hj, himp⟩
        obtain rfl : k = j := Nat.pow_right_injective (le_refl 2) (hk.symm.trans hj)
        cases isMod
        · exact Or.inl rfl
        · exact Or.inr (himp rfl)
    · simp only [hand, not_false_eq_true, if_true, Bool.false_eq_true, false_iff]
      rintro ⟨k, -, hk, -⟩
      exact hand ((hpow hlow).mpr ⟨k, hk⟩)
  · rw [if_pos (by
      cases isImm
      · rfl
      · simp only [true_and, Bool.not_eq_false] at hguard
        rw [hguard]
        rfl)]
    simp only [Bool.false_eq_true, false_iff]
    rintro ⟨himm, k, hk, hval, -⟩
    have hlt : 2 ^ k < 2 ^ 63 := Nat.pow_lt_pow_right (by omega) (by omega)
    have hpos := Nat.two_pow_pos k
    exact hguard ⟨himm, hsle.mpr ⟨by omega, by omega⟩⟩

theorem foldShift_eq_of_le {C : BitVec 64} {k : Nat} (hC : C.toNat = 2 ^ k) (hk : k ≤ 62) :
    ∀ {fuel j : Nat}, j ≤ k → k ≤ j + fuel → foldShift C fuel j = k := by
  intro fuel
  induction fuel with
  | zero =>
    intro j hj hfuel
    show j = k
    omega
  | succ fuel ih =>
    intro j hj hfuel
    have hlt : 1#64 <<< j < C ↔ j < k := by
      rw [lt_def, toNat_one_shiftLeft (by omega), hC]
      exact Nat.pow_lt_pow_iff_right (by omega)
    rw [foldShift]
    by_cases hjk : j < k
    · rw [if_pos (hlt.mpr hjk)]
      exact ih (by omega) (by omega)
    · rw [if_neg (mt hlt.mp hjk)]
      omega

theorem foldShift_eq {C : BitVec 64} {k : Nat} (hC : C.toNat = 2 ^ k) (hk : k ≤ 62) :
    foldShift C 64 0 = k :=
  foldShift_eq_of_le hC hk (by omega) (by omega)

/-! ## One instruction at a time -/

section Steps

variable {sz : OpSize} {σ : Regs} {insts : List Inst} {d v k : Nat}

def word (sz : OpSize) (σ : Regs) (u : Use) : BitVec sz.bits := (u.value σ).setWidth sz.bits

@[simp] theorem word_vreg : word sz σ (.reg (.vreg v)) = read sz σ v := rfl

theorem setWidth_bits (x : BitVec sz.bits) : (x.setWidth 64).setWidth sz.bits = x := by
  cases sz <;> exact setWidth_setWidth_of_le x (by decide)

@[simp] theorem run_nil : run [] σ = σ := rfl

@[simp] theorem run_cons (i : Inst) : run (i :: insts) σ = run insts (step σ i) := rfl

theorem read_update {r : Reg} {x : BitVec 64} : read sz (Function.update σ r x) v =
    if .vreg v = r then x.setWidth sz.bits else read sz σ v := by
  simp only [read, Function.update_apply]
  split <;> rfl

@[simp] theorem read_mov {u : Use} : read sz (step σ (.mov sz (.vreg d) u)) v =
    if v = d then word sz σ u else read sz σ v := by
  rw [step, read_update, setWidth_bits]
  simp only [Reg.vreg.injEq, word]

@[simp] theorem read_alu {op : AluOp} {a b : Use} : read sz (step σ (.alu op sz (.vreg d) a b)) v =
      if v = d then op.word (word sz σ a) (word sz σ b) else read sz σ v := by
  rw [step, read_update, setWidth_bits]
  simp only [Reg.vreg.injEq, word]

@[simp] theorem add_word {w : Nat} (a b : BitVec w) : AluOp.add.word a b = a + b := rfl

@[simp] theorem sub_word {w : Nat} (a b : BitVec w) : AluOp.sub.word a b = a - b := rfl

@[simp] theorem imul_word {w : Nat} (a b : BitVec w) : AluOp.imul.word a b = a * b := rfl

@[simp] theorem and_word {w : Nat} (a b : BitVec w) : AluOp.and.word a b = a &&& b := rfl

@[simp] theorem xor_word {w : Nat} (a b : BitVec w) : AluOp.xor.word a b = a ^^^ b := rfl

theorem bits_le : sz.bits ≤ 64 := by cases sz <;> decide

theorem toNat_word_shiftImm (hk : k < sz.bits) : (word sz σ (shiftImm k)).toNat % sz.bits = k := by
  have hpow : k < 2 ^ sz.bits := hk.trans Nat.lt_two_pow_self
  have hb := @bits_le sz
  show ((BitVec.ofNat 64 k).setWidth sz.bits).toNat % sz.bits = k
  rw [BitVec.toNat_setWidth, BitVec.toNat_ofNat, Nat.mod_eq_of_lt (by omega : k < 2 ^ 64),
    Nat.mod_eq_of_lt hpow, Nat.mod_eq_of_lt hk]

theorem shr_word (hk : k < sz.bits) (x : BitVec sz.bits) :
    AluOp.shr.word x (word sz σ (shiftImm k)) = x >>> k := by
  rw [AluOp.word, toNat_word_shiftImm hk]

theorem sar_word (hk : k < sz.bits) (x : BitVec sz.bits) :
    AluOp.sar.word x (word sz σ (shiftImm k)) = x.sshiftRight k := by
  rw [AluOp.word, toNat_word_shiftImm hk]

end Steps

/-! ## The sequences -/

section Sequences

variable {sz : OpSize} {σ : Regs} {dst op0 tmp k : Nat} {C : BitVec 64}

theorem setWidth_twoPow (hC : C.toNat = 2 ^ k) : C.setWidth sz.bits = twoPow sz.bits k := by
  apply eq_of_toNat_eq
  rw [toNat_setWidth, hC, toNat_twoPow]

theorem run_udivFold (hk : k < sz.bits) : read sz (run (lowerUdivFold sz dst op0 k) σ) dst =
      read sz σ op0 / twoPow sz.bits k := by
  rw [← udiv_twoPow hk]
  unfold lowerUdivFold
  split
  · subst k
    simp
  · simp [shr_word hk]

theorem run_sdivFold (hd : dst ≠ tmp) (ho : op0 ≠ tmp) (hk : k + 1 < sz.bits) :
    read sz (run (lowerSdivFold sz dst op0 tmp k) σ) dst =
      (read sz σ op0).sdiv (twoPow sz.bits k) := by
  have h1 : 1 < sz.bits := by omega
  have hs1 : sz.bits - 1 < sz.bits := by omega
  unfold lowerSdivFold
  split
  · subst k
    rw [twoPow_zero, sdiv_one]
    simp
  rw [← sdiv_twoPow hk]
  split
  · subst k
    rw [← bias_one h1]
    simp [hd.symm, ho, shr_word hs1, sar_word h1]
  · have hs : sz.bits - k < sz.bits := by omega
    simp [hd.symm, ho, sar_word hs1, shr_word hs, sar_word (show k < sz.bits by omega), bias]

theorem toNat_sub_one (hC : C.toNat = 2 ^ k) : (C - 1#64).toNat = 2 ^ k - 1 := by
  have hpos := Nat.two_pow_pos k
  have hlt := C.isLt
  rw [toNat_sub, hC]
  show (2 ^ 64 - 1 + 2 ^ k) % 2 ^ 64 = 2 ^ k - 1
  omega

section

variable (hC : C.toNat = 2 ^ k) (hk : k ≤ 31) (hks : k < sz.bits)
include hC hk hks

theorem word_lowMask : word sz σ (immI32 (C - 1#64)) = twoPow sz.bits k - 1 := by
  have hle : 2 ^ k ≤ 2 ^ 31 := Nat.pow_le_pow_right (by omega) hk
  have hlow : ((C - 1#64).setWidth 32).toNat = 2 ^ k - 1 := by
    rw [toNat_setWidth, toNat_sub_one hC]
    exact Nat.mod_eq_of_lt (by omega)
  have hmsb : ((C - 1#64).setWidth 32).msb = false := by
    rw [msb_eq_false_iff_two_mul_lt, hlow]
    omega
  apply eq_of_toNat_eq
  rw [toNat_lowMask hks]
  show ((((C - 1#64).setWidth 32).signExtend 64).setWidth sz.bits).toNat = 2 ^ k - 1
  have hlt : 2 ^ k < 2 ^ sz.bits := Nat.pow_lt_pow_right (by omega) hks
  rw [signExtend_eq_setWidth_of_msb_false hmsb, toNat_setWidth,
    toNat_setWidth, hlow, Nat.mod_eq_of_lt (by omega : 2 ^ k - 1 < 2 ^ 64),
    Nat.mod_eq_of_lt (by omega)]

theorem word_highMask : word sz σ (immI32 (~~~(C - 1#64))) = ~~~(BitVec.twoPow sz.bits k - 1) := by
  have hle : 2 ^ k ≤ 2 ^ 31 := Nat.pow_le_pow_right (by omega) hk
  have hmsb : (~~~((C - 1#64).setWidth 32)).msb = true := by
    have hlow : ((C - 1#64).setWidth 32).toNat = 2 ^ k - 1 := by
      rw [toNat_setWidth, toNat_sub_one hC]
      exact Nat.mod_eq_of_lt (by omega)
    rw [msb_not, Bool.and_eq_true, Bool.not_eq_true', msb_eq_false_iff_two_mul_lt, hlow]
    exact ⟨by decide, by omega⟩
  have hlow := @word_lowMask sz σ k C hC hk hks
  have hmsb' : ((C - 1#64).setWidth 32).msb = false := by simpa using hmsb
  change (((C - 1#64).setWidth 32).signExtend 64).setWidth sz.bits = _ at hlow
  show (((~~~(C - 1#64)).setWidth 32).signExtend 64).setWidth sz.bits = _
  rw [BitVec.setWidth_not (by omega), BitVec.signExtend_eq_not_setWidth_not_of_msb_true hmsb,
    BitVec.not_not, BitVec.setWidth_not bits_le, ← hlow,
    BitVec.signExtend_eq_setWidth_of_msb_false hmsb']

theorem run_umodFold : ∃ insts, lowerUmodFold sz dst op0 k C = some insts ∧
      ∀ σ, read sz (run insts σ) dst = read sz σ op0 % twoPow sz.bits k := by
  simp only [← umod_twoPow hks]
  unfold lowerUmodFold
  split
  · subst k
    refine ⟨_, rfl, fun σ => ?_⟩
    simp [twoPow_zero]
  · have hmask : C - 1 ≤ 0x7FFFFFFF#64 := by
      have hle : 2 ^ k ≤ 2 ^ 31 := Nat.pow_le_pow_right (by omega) hk
      rw [le_def]
      show (C - 1#64).toNat ≤ 2 ^ 31 - 1
      rw [toNat_sub_one hC]
      omega
    simp only [if_pos hmask]
    refine ⟨_, rfl, fun σ => ?_⟩
    simp [word_lowMask hC hk hks]

end

theorem run_smodFold (hd : dst ≠ tmp) (ho : op0 ≠ tmp) (hC : C.toNat = 2 ^ k)
    (hk : k ≤ 31) (hks : k + 1 < sz.bits) :
    read sz (run (lowerSmodFold sz dst op0 tmp k C) σ) dst =
      (read sz σ op0).srem (twoPow sz.bits k) := by
  have h1 : 1 < sz.bits := by omega
  have hs1 : sz.bits - 1 < sz.bits := by omega
  unfold lowerSmodFold
  split
  · subst k
    rw [twoPow_zero, srem_one]
    simp
  have hhigh := fun σ => @word_highMask sz σ k C hC hk (by omega)
  rw [← srem_twoPow hks]
  split
  · subst k
    have hC2 : C = 2#64 := BitVec.eq_of_toNat_eq hC
    have himm : Use.imm (BitVec.ofInt 64 (-2)) = immI32 (~~~(C - 1#64)) := by
      rw [hC2]
      rfl
    rw [← bias_one h1, himm]
    simp [hd.symm, ho, shr_word hs1, hhigh, BitVec.add_comm]
  · have hs : sz.bits - k < sz.bits := by omega
    simp [hd.symm, ho, sar_word hs1, shr_word hs, bias, hhigh, BitVec.add_comm]

/-! ### Multiplication -/

theorem run_append (a b : List Inst) (σ : Regs) : run (a ++ b) σ = run b (run a σ) :=
  List.foldl_append

theorem step_mov8 (d : Reg) (u : Use) :
    step σ (.mov .b8 d u) = Function.update σ d (u.value σ) := by
  show Function.update σ d (((u.value σ).setWidth 64).setWidth 64) = _
  rw [setWidth_eq, setWidth_eq]

theorem step_alu8 (op : AluOp) (d : Reg) (a b : Use) :
    step σ (.alu op .b8 d a b) = Function.update σ d (op.word (a.value σ) (b.value σ)) := by
  show Function.update σ d
    ((op.word ((a.value σ).setWidth 64) ((b.value σ).setWidth 64)).setWidth 64) = _
  rw [setWidth_eq, setWidth_eq, setWidth_eq]

/-- A state of the multiplication sequence: the registers below `next` are those of the start,
and the first new one holds `t`. -/
structure Holds (σ : Regs) (next : Nat) (t : BitVec 64) (τ : Regs) : Prop where
  old : ∀ v < next, τ (.vreg v) = σ (.vreg v)
  new : τ (.vreg next) = t

theorem holds_high {n next : Nat} {m : BitVec 64} : Holds σ next (smulh m (σ (.vreg n)))
      (run [.mov .b8 .rax (.imm m), .smulh (.vreg n), .mov .b8 (.vreg next) (.reg .rdx)] σ) := by
  rw [run_cons, run_cons, run_cons, run_nil, step_mov8, step_mov8, step]
  constructor
  · intro v hv
    simp [show v ≠ next by omega]
  · simp [Use.value]

theorem Holds.add {n next : Nat} {t : BitVec 64} {τ : Regs} (h : Holds σ next t τ) (hn : n < next) :
    Holds σ next (t + σ (.vreg n))
      (run [.alu .add .b8 (.vreg next) (.reg (.vreg next)) (.reg (.vreg n))] τ) := by
  rw [run_cons, run_nil, step_alu8]
  constructor
  · intro v hv
    rw [Function.update_of_ne (by simpa using hv.ne), h.old v hv]
  · rw [Function.update_self, add_word]
    show τ (.vreg next) + τ (.vreg n) = _
    rw [h.new, h.old n hn]

theorem Holds.sar {next k : Nat} {t : BitVec 64} {τ : Regs} (h : Holds σ next t τ) (hk : k < 64) :
    Holds σ next (t.sshiftRight k)
      (run [.alu .sar .b8 (.vreg next) (.reg (.vreg next)) (shiftImm k)] τ) := by
  rw [run_cons, run_nil, step_alu8]
  constructor
  · intro v hv
    rw [Function.update_of_ne (by simpa using hv.ne), h.old v hv]
  · rw [Function.update_self]
    show (τ (.vreg next)).sshiftRight ((BitVec.ofNat 64 k).toNat % 64) = _
    rw [h.new, BitVec.toNat_ofNat, Nat.mod_eq_of_lt (by omega : k < 2 ^ 64), Nat.mod_eq_of_lt hk]

/-- The first part of the sequence, up to the shift. -/
theorem holds_shifted {n next k : Nat} {mg : SignedDivMagic} (hn : n < next)
    (hk : mg.shift = k) (hle : k < 64) :
    Holds σ next ((if mg.multiplier.slt 0 then smulh mg.multiplier (σ (.vreg n)) + σ (.vreg n)
        else smulh mg.multiplier (σ (.vreg n))).sshiftRight k)
      (run ([.mov .b8 .rax (.imm mg.multiplier), .smulh (.vreg n),
          .mov .b8 (.vreg next) (.reg .rdx)] ++
        (if mg.multiplier.slt 0 then
          [.alu .add .b8 (.vreg next) (.reg (.vreg next)) (.reg (.vreg n))] else []) ++
        (if 0 < mg.shift then
          [.alu .sar .b8 (.vreg next) (.reg (.vreg next)) (.imm (BitVec.ofInt 64 mg.shift))]
        else [])) σ) := by
  rw [run_append, run_append]
  have hfirst := @holds_high σ n next mg.multiplier
  generalize run _ σ = τ at hfirst ⊢
  have hsum : Holds σ next (if mg.multiplier.slt 0 then
      smulh mg.multiplier (σ (.vreg n)) + σ (.vreg n) else smulh mg.multiplier (σ (.vreg n)))
      (run (if mg.multiplier.slt 0 then
          [.alu .add .b8 (.vreg next) (.reg (.vreg next)) (.reg (.vreg n))] else []) τ) := by
    split
    · exact hfirst.add hn
    · exact hfirst
  rw [hk]
  by_cases hpos : (0 : Int) < k
  · rw [if_pos hpos]
    exact hsum.sar hle
  · obtain rfl : k = 0 := by omega
    rw [if_neg hpos, sshiftRight_zero]
    exact hsum

theorem run_signedDivMagic {n op1 next k : Nat} {isMod : Bool} {divisor : ImmIntInfo}
    {mg : SignedDivMagic} (hdst : dst < next) (hn : n < next) (hop1 : op1 < next)
    (hk : mg.shift = k) (hle : k < 64)
    (hop : divisor.fitsI32 = false → σ (.vreg op1) = divisor.val) :
    run (lowerSignedDivMagic dst n op1 next isMod divisor mg) σ (.vreg dst) =
      if isMod then σ (.vreg n) - magicQuotient mg (σ (.vreg n)) * divisor.val
      else magicQuotient mg (σ (.vreg n)) := by
  have hmain := holds_shifted (σ := σ) hn hk hle
  rw [lowerSignedDivMagic, run_append, run_append]
  generalize run _ σ = τ at hmain ⊢
  obtain ⟨hold, hnew⟩ := hmain
  have hq : magicQuotient mg (σ (.vreg n)) = τ (.vreg next) + (σ (.vreg n)) >>> 63 := by
    rw [hnew, magicQuotient, hk]
    rfl
  have hnn := hold n hn
  have ho := hold op1 hop1
  have hd1 : next + 1 ≠ dst := by omega
  have hd2 : next + 2 ≠ dst := by omega
  have hn' : n ≠ next ∧ n ≠ next + 1 ∧ n ≠ next + 2 := by omega
  have ho' : op1 ≠ next ∧ op1 ≠ next + 1 ∧ op1 ≠ next + 2 := by omega
  cases isMod
  · simp [step_mov8, step_alu8, Use.value, hq, hnn, AluOp.word, hd1]
  · cases hfit : divisor.fitsI32
    · simp [step_mov8, step_alu8, Use.value, hq, hnn, ho, hop hfit, AluOp.word, hd2, hn', ho']
    · simp [step_mov8, step_alu8, Use.value, hq, hnn, AluOp.word, hd2, hn']

end Sequences

/-! ## The lowering computes the division -/

/-- The operands of a division as the instruction selector hands them over: the virtual
registers are in use, and the constant has the type of the division. -/
structure Operands (sz : OpSize) (dst op0 op1 next : Nat) (imm1 : ImmIntInfo) : Prop where
  dst_lt : dst < next
  op0_lt : op0 < next
  op1_lt : op1 < next
  isImm : imm1.isImm = true
  fits : imm1.fitsI32 = decide (-2 ^ 31 ≤ imm1.val.toInt ∧ imm1.val.toInt < 2 ^ 31)
  i32 : sz = .b4 → imm1.fitsI32 = true

/-- The search for a divisor ends, no word of it is cut off, and what it returns divides every
word. -/
def MagicExact (d : BitVec 64) : Prop :=
  ∃ (k : Nat) (m : BitVec 64), k ≤ 62 ∧
    (∀ fuel, 63 ≤ fuel → signedDivMagic64 fuel d = some { multiplier := m, shift := k }) ∧
    (∀ i ≤ k + 1, ((magicStep (magicAnc d) d)^[i] (magicInit d)).Exact (magicAnc d) d) ∧
    m.toNat = 2 ^ (64 + k) / d.toNat + 1 ∧
    ∀ n, magicQuotient { multiplier := m, shift := k } n = n.sdiv d

theorem magicExact_of_takes {d : BitVec 64} (hd : takesSignedDivMagic d = true) : MagicExact d := by
  obtain ⟨n, h⟩ := exists_found hd
  have hpos := h.pos
  have hle := h.le
  obtain ⟨k, rfl⟩ : ∃ k, n = k + 1 := ⟨n - 1, by omega⟩
  have hshift : ((k + 1 : Nat) : Int) - 1 = k := by
    push_cast
    omega
  refine ⟨k, ((magicStep (magicAnc d) d)^[k + 1] (magicInit d)).q2 + 1, by omega,
    fun fuel hfuel => ?_, h.exact, ?_, fun x => ?_⟩
  · rw [h.search hfuel, hshift]
  · rw [(h.multiplier hd).1, show 63 + (k + 1) = 64 + k by omega]
  · rw [← h.quotient hd, hshift]

theorem Operands.exponent_lt {sz : OpSize} {dst op0 op1 next k : Nat} {imm1 : ImmIntInfo}
    (h : Operands sz dst op0 op1 next imm1) (hk : k ≤ 62) (hval : imm1.val.toNat = 2 ^ k) :
    k + 1 < sz.bits := by
  cases sz
  · have hfits := h.fits
    rw [h.i32 rfl, eq_comm, decide_eq_true_iff] at hfits
    have hlt : 2 ^ k < 2 ^ 63 := Nat.pow_lt_pow_right (by omega) (by omega)
    rw [toInt_eq_toNat_of_lt (by omega), hval] at hfits
    have hsmall : 2 ^ k < 2 ^ 31 := by exact_mod_cast hfits.2
    have := (Nat.pow_lt_pow_iff_right (a := 2) (by omega)).mp hsmall
    show k + 1 < 32
    omega
  · show k + 1 < 64
    omega

/-- The lowering of a division by a constant computes the division, for every divisor that is
multiplied by and every one that folds to shifts. -/
theorem lowerDivMod_exact {sz : OpSize} {isSigned isMod : Bool} {dst op0 op1 next : Nat}
    {imm1 : ImmIntInfo} (hop : Operands sz dst op0 op1 next imm1)
    (h : (isSigned = true ∧ sz = .b8 ∧ takesSignedDivMagic imm1.val = true) ∨
      divisorFolds imm1 isMod = true) :
    (takesSignedDivMagic imm1.val = true → MagicExact imm1.val) ∧
      ∃ insts, lowerDivMod sz isSigned isMod dst op0 op1 next imm1 = some insts ∧
        ∀ σ, read .b8 σ op1 = imm1.val → read sz (run insts σ) dst =
          divMod isSigned isMod (read sz σ op0) (imm1.val.setWidth sz.bits) := by
  refine ⟨magicExact_of_takes, ?_⟩
  by_cases hmagic : isSigned = true ∧ sz = .b8 ∧ takesSignedDivMagic imm1.val = true
  · obtain ⟨rfl, rfl, hd⟩ := hmagic
    obtain ⟨k, m, hk, hsearch, -, -, hquot⟩ := magicExact_of_takes hd
    refine ⟨lowerSignedDivMagic dst op0 op1 next isMod imm1 { multiplier := m, shift := k }, ?_, ?_⟩
    · rw [lowerDivMod, if_pos (by simp [hop.isImm, hd]), hsearch 63 le_rfl]
      rfl
    · intro σ hσ
      change (σ (.vreg op1)).setWidth 64 = _ at hσ
      rw [BitVec.setWidth_eq] at hσ
      have hone : imm1.val ≠ -1#64 := by
        intro h1
        rw [h1] at hd
        exact absurd hd (by decide)
      show (run _ σ (.vreg dst)).setWidth 64 =
        divMod true isMod ((σ (.vreg op0)).setWidth 64) (imm1.val.setWidth 64)
      rw [BitVec.setWidth_eq, BitVec.setWidth_eq, BitVec.setWidth_eq,
        run_signedDivMagic hop.dst_lt hop.op0_lt hop.op1_lt rfl (by omega) fun _ => hσ, hquot]
      cases isMod
      · rfl
      · exact ShiftDivision.sub_sdiv_mul hone
  · have hfold := h.resolve_left hmagic
    obtain ⟨-, k, hk, hval, hmod⟩ := divisorFolds_iff.mp hfold
    have hlt := hop.exponent_lt hk hval
    have hguard : ¬ (isSigned && sz == .b8 && imm1.isImm && takesSignedDivMagic imm1.val) = true := by
      simp only [Bool.and_eq_true, beq_iff_eq, hop.isImm, and_true]
      tauto
    have hdst := hop.dst_lt.ne
    have hop0 := hop.op0_lt.ne
    rw [lowerDivMod, if_neg hguard, if_pos hfold, setWidth_twoPow hval]
    simp only [foldShift_eq hval hk]
    cases isSigned <;> cases isMod
    · exact ⟨_, rfl, fun σ _ => run_udivFold (by omega)⟩
    · obtain ⟨insts, hinsts, hrun⟩ := @run_umodFold sz dst op0 k _ hval (hmod rfl)
        (show k < sz.bits by omega)
      exact ⟨insts, hinsts, fun σ _ => hrun σ⟩
    · exact ⟨_, rfl, fun σ _ => run_sdivFold hdst hop0 hlt⟩
    · exact ⟨_, rfl, fun σ _ => run_smodFold hdst hop0 hval (hmod rfl) hlt⟩

/-- Division by 7, whose multiplier is 65 bits long, and its remainder. -/
theorem lowerDivMod_exact_seven :
    ∃ insts, lowerDivMod .b8 true true 0 1 2 3 { isImm := true, val := 7, fitsI32 := true } =
        some insts ∧
      ∀ σ, read .b8 σ 2 = 7 → read .b8 (run insts σ) 0 = (read .b8 σ 1).srem 7 :=
  (@lowerDivMod_exact .b8 true true _ _ _ _ { isImm := true, val := 7, fitsI32 := true }
    ⟨by decide, by decide, by decide, rfl, by decide, by decide⟩
    (Or.inl ⟨rfl, rfl, by decide⟩)).2

end Brass.Target.X64
