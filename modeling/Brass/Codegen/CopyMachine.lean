import Brass.Codegen.Lir

/-!
# Single moves of a parallel copy

The instructions that `emit_move` of `codegen/emit_parallel_copy.cpp` chooses for one move,
and what they do. A vector register has four words of eight bytes, and memory is a map from
places, in units of eight bytes, to words. An operand is a register, a spill slot or an
integer; its size is in bytes.

`emitMove_spec`: the destination gets the bytes of the source, and nothing else changes but
`R11` and `XMM15`.
-/

namespace Brass.Codegen.Copy

open BitVec

abbrev U64 := BitVec 64

/-! ## Operands -/

/-- The kinds of operand that a parallel copy moves. -/
inductive CopyKind where
  | preg (p : PReg)
  | slot (s : Int32)
  | imm (v : Int64)
  deriving DecidableEq

structure CopyOperand where
  kind : CopyKind
  size : Nat
  deriving DecidableEq

instance : Inhabited CopyOperand := ⟨⟨.imm 0, 8⟩⟩

def isGpr (p : PReg) : Bool := p.regClass == .gpr && p.isValid

/-- `as_gpr`; the encoder writes `GPR::None` as register 0. -/
def asGpr (p : PReg) : Nat := if isGpr p then p.code.toNat else 0

/-- `as_xmm`; the encoder writes `XMM::None` as register 0. -/
def asXmm (p : PReg) : Nat := if p.isXmm then p.code.toNat else 0

/-- The two operands name the same register or the same slot. -/
def sameLoc (a b : CopyOperand) : Bool :=
  match a.kind, b.kind with
  | .preg p, .preg q => p == q
  | .slot s, .slot t => s == t
  | _, _ => false

theorem sameLoc_iff {a b : CopyOperand} :
    sameLoc a b = true ↔ a.kind = b.kind ∧ ∀ v, a.kind ≠ .imm v := by
  obtain ⟨ka, sa⟩ := a
  obtain ⟨kb, sb⟩ := b
  cases ka <;> cases kb <;> simp [sameLoc]

/-! ## The machine -/

inductive Loc where
  | gpr (n : Nat)
  | xmm (n : Nat)
  | word (a : Int)
  deriving DecidableEq

/-- The words of every location. A general register and a word of memory have one. -/
abbrev Machine := Loc → Nat → U64

def low (x : U64) : U64 := x &&& 0xFFFFFFFF#64

/-- A general register is written whole: a move of four bytes clears the others. -/
def narrow (w : Nat) (x : U64) : U64 := if w = 4 then low x else x

def setHalf (high : Bool) (v : BitVec 32) (x : U64) : U64 :=
  if high then low x ||| (v.setWidth 64 <<< 32) else (x &&& ~~~0xFFFFFFFF#64) ||| v.setWidth 64

def setReg (m : Machine) (l : Loc) (f : Nat → U64) : Machine := Function.update m l f

def setWords (m : Machine) (a : Int) (n : Nat) (f : Nat → U64) : Machine
  | .word b => if a ≤ b ∧ b < a + n then fun _ => f (b - a).toNat else m (.word b)
  | l => m l

/-- The instructions, with the number of bytes that they move. -/
inductive CopyInst where
  | movRR (w d s : Nat)
  | movRI (w d : Nat) (v : Int64)
  | movRM (w d : Nat) (a : Int)
  | movMR (a : Int) (s : Nat)
  | movMI (a : Int) (v : Int64)
  | movHalf (a : Int) (high : Bool) (v : BitVec 32)
  | vecRR (w d s : Nat)
  | vecRM (w d : Nat) (a : Int)
  | vecMR (w : Nat) (a : Int) (s : Nat)
  | xchg (w r s : Nat)
  deriving DecidableEq

/-- A load of a scalar clears the second word; the words that a load does not name stay. -/
def loadVec (w : Nat) (mem old : Nat → U64) (k : Nat) : U64 :=
  if w ≤ 8 then if k = 0 then narrow w (mem 0) else if k = 1 then 0 else old k
  else if k < w / 8 then mem k else old k

def exec (m : Machine) : CopyInst → Machine
  | .movRR w d s => setReg m (.gpr d) (fun _ => narrow w (m (.gpr s) 0))
  | .movRI w d v => setReg m (.gpr d) (fun _ => narrow w v.toBitVec)
  | .movRM w d a => setReg m (.gpr d) (fun _ => narrow w (m (.word a) 0))
  | .movMR a s => setWords m a 1 (fun _ => m (.gpr s) 0)
  | .movMI a v => setWords m a 1 (fun _ => v.toBitVec)
  | .movHalf a high v => setWords m a 1 (fun _ => setHalf high v (m (.word a) 0))
  | .vecRR w d s => setReg m (.xmm d) (fun k => if k < w / 8 then m (.xmm s) k else m (.xmm d) k)
  | .vecRM w d a => setReg m (.xmm d) (loadVec w (fun k => m (.word (a + k)) 0) (m (.xmm d)))
  | .vecMR w a s =>
    if w = 4 then
      setWords m a 1 (fun _ => setHalf false ((m (.xmm s) 0).setWidth 32) (m (.word a) 0))
    else setWords m a (w / 8) (m (.xmm s))
  | .xchg w r s =>
    setReg (setReg m (.gpr r) (fun _ => narrow w (m (.gpr s) 0))) (.gpr s)
      (fun _ => narrow w (m (.gpr r) 0))

def run (code : List CopyInst) (m : Machine) : Machine := code.foldl exec m

theorem run_append (c c' : List CopyInst) (m : Machine) : run (c ++ c') m = run c' (run c m) :=
  List.foldl_append

/-! ## Emission of one move -/

/-- The bytes that a move of a vector register transfers. -/
def vecWidth (dst src : CopyOperand) : Nat :=
  if dst.size = 32 ∨ src.size = 32 then 32
  else if dst.size = 16 ∨ src.size = 16 then 16
  else if dst.size = 4 ∧ src.size = 4 then 4
  else 8

def emitToGpr (addr : Int32 → Int) (d : Nat) (dst src : CopyOperand) : List CopyInst :=
  match src.kind with
  | .preg q => [.movRR (if dst.size = 4 ∧ src.size = 4 then 4 else 8) d (asGpr q)]
  | .imm v => [.movRI (if dst.size = 4 then 4 else 8) d v]
  | .slot t => [.movRM (if dst.size = 4 then 4 else 8) d (addr t)]

/-- No immediate is moved to a vector register. -/
def emitToXmm (addr : Int32 → Int) (d : Nat) (dst src : CopyOperand) : List CopyInst :=
  match src.kind with
  | .preg q => [.vecRR (if vecWidth dst src = 32 then 32 else 16) d (asXmm q)]
  | .slot t => [.vecRM (vecWidth dst src) d (addr t)]
  | .imm _ => [.vecRM (vecWidth dst src) d 0]

/-- A slot is written whole from a general register and from an immediate. -/
def emitToSlot (addr : Int32 → Int) (a : Int) (dst src : CopyOperand) : List CopyInst :=
  match src.kind with
  | .preg q => if isGpr q then [.movMR a (asGpr q)] else [.vecMR (vecWidth dst src) a (asXmm q)]
  | .imm v =>
    if dst.size = 4 then [.movHalf a false (v.toBitVec.setWidth 32), .movHalf a true 0]
    else if -(2 ^ 31) ≤ v.toInt ∧ v.toInt < 2 ^ 31 then [.movMI a v]
    else [.movHalf a false (v.toBitVec.setWidth 32),
      .movHalf a true ((v.toBitVec >>> 32).setWidth 32)]
  | .slot t =>
    if vecWidth dst src = 32 ∨ vecWidth dst src = 16 then
      [.vecRM (vecWidth dst src) 15 (addr t), .vecMR (vecWidth dst src) a 15]
    else [.movRM (vecWidth dst src) 11 (addr t), .movMR a 11]

def emitMove (addr : Int32 → Int) (dst src : CopyOperand) : List CopyInst :=
  if sameLoc dst src then []
  else
    match dst.kind with
    | .preg p =>
      if isGpr p then emitToGpr addr (asGpr p) dst src else emitToXmm addr (asXmm p) dst src
    | .slot s => emitToSlot addr (addr s) dst src
    | .imm _ => []

/-! ## What operands hold -/

/-- Where the spill slots are, and how many words each of them has. -/
structure Layout where
  addr : Int32 → Int
  room : Int32 → Nat
  apart : ∀ s t a, s ≠ t → addr s ≤ a → a < addr s + room s → addr t ≤ a →
    ¬ a < addr t + room t

def pregLoc (p : PReg) : Loc := if p.isXmm then .xmm p.code.toNat else .gpr p.code.toNat

def read (L : Layout) (m : Machine) : CopyKind → Nat → U64
  | .preg p => m (pregLoc p)
  | .slot s => fun k => m (.word (L.addr s + k)) 0
  | .imm v => fun _ => v.toBitVec

/-- The locations that belong to an operand. -/
def Owns (L : Layout) : CopyKind → Loc → Prop
  | .preg p, l => l = pregLoc p
  | .slot s, l => ∃ a, l = .word a ∧ L.addr s ≤ a ∧ a < L.addr s + L.room s
  | .imm _, _ => False

/-- The first `w` bytes are the same. -/
def SameBytes (w : Nat) (f g : Nat → U64) : Prop :=
  if w = 4 then low (f 0) = low (g 0) else ∀ k < w / 8, f k = g k

theorem SameBytes.refl (w : Nat) (f : Nat → U64) : SameBytes w f f := by
  unfold SameBytes
  split
  · rfl
  · exact fun _ _ => rfl

theorem SameBytes.trans {w : Nat} {f g h : Nat → U64} (h₁ : SameBytes w f g)
    (h₂ : SameBytes w g h) : SameBytes w f h := by
  unfold SameBytes at *
  split at h₁
  · rename_i hw
    rw [if_pos hw] at h₂ ⊢
    exact h₁.trans h₂
  · rename_i hw
    rw [if_neg hw] at h₂ ⊢
    exact fun k hk => (h₁ k hk).trans (h₂ k hk)

def words (w : Nat) : Nat := if w ≤ 8 then 1 else w / 8

def IsSize (w : Nat) : Prop := w = 4 ∨ w = 8 ∨ w = 16 ∨ w = 32

theorem SameBytes.of_words {w : Nat} {f g : Nat → U64} (hw : IsSize w)
    (h : ∀ k < words w, f k = g k) : SameBytes w f g := by
  unfold words at h
  unfold SameBytes
  split
  · rename_i h4
    rw [if_pos (by omega)] at h
    rw [h 0 (by omega)]
  · intro k hk
    apply h
    rcases hw with rfl | rfl | rfl | rfl <;> simp_all

theorem sameBytes_narrow {w : Nat} {f g : Nat → U64} (hw : w = 4 ∨ w = 8)
    (h : low (f 0) = low (g 0)) (h' : w = 8 → f 0 = g 0) : SameBytes w f g := by
  unfold SameBytes
  split
  · exact h
  · rename_i h4
    have h8 : w = 8 := hw.resolve_left h4
    intro k hk
    have hk0 : k = 0 := by omega
    rw [hk0]
    exact h' h8

theorem low_low (x : U64) : low (low x) = low x := by
  simp [low, BitVec.and_assoc]

/-- The operands of a move for which `emit_move` has an instruction: general registers and
immediates have at most eight bytes, vector registers are not mixed with either, and a slot
has room for what is written. -/
def Emittable (L : Layout) (dst src : CopyOperand) : Prop :=
  IsSize dst.size ∧ IsSize src.size ∧
    match dst.kind, src.kind with
    | .preg p, .preg q => (isGpr p ∧ isGpr q ∧ dst.size ≤ 8) ∨ (p.isXmm ∧ q.isXmm)
    | .preg p, .slot _ => (isGpr p ∧ dst.size ≤ 8) ∨ p.isXmm
    | .preg p, .imm _ => isGpr p ∧ dst.size ≤ 8
    | .slot s, .preg q =>
      (isGpr q ∧ dst.size ≤ 8 ∧ 0 < L.room s) ∨
        (q.isXmm ∧ words dst.size ≤ L.room s ∧ words src.size ≤ L.room s)
    | .slot s, .slot _ => words dst.size ≤ L.room s ∧ words src.size ≤ L.room s
    | .slot s, .imm _ => dst.size ≤ 8 ∧ 0 < L.room s
    | .imm _, _ => False

/-- What a move does: the destination has the bytes of the source, and only it, `R11` and
`XMM15` may have changed. -/
def Moves (L : Layout) (dst : CopyOperand) (src : CopyKind) (m m' : Machine) : Prop :=
  SameBytes dst.size (read L m' dst.kind) (read L m src) ∧
    ∀ l, ¬ Owns L dst.kind l → l ≠ .gpr 11 → l ≠ .xmm 15 → m' l = m l

section Spec

variable {L : Layout} {dst src : CopyOperand} {m m₁ : Machine} {p q : PReg} {s t : Int32}
  {f g : Nat → U64} {n w : Nat} {a : Int} {k : CopyKind}

theorem moves_setReg (hd : dst.kind = .preg p) (h : SameBytes dst.size f (read L m k)) :
    Moves L dst k m (setReg m (pregLoc p) f) := by
  constructor
  · rw [hd, read, setReg, Function.update_self]
    exact h
  · intro l hl _ _
    rw [hd] at hl
    exact Function.update_of_ne hl _ _

theorem setWords_of_lt (h : n < w) : setWords m a w f (.word (a + n)) 0 = f n := by
  rw [setWords, if_pos ⟨by omega, by omega⟩]
  congr 1
  omega

theorem moves_setWords (hd : dst.kind = .slot s) (hn : n ≤ L.room s) (hsize : IsSize dst.size)
    (hwords : words dst.size ≤ n) (hm : ∀ l, l ≠ .gpr 11 → l ≠ .xmm 15 → m₁ l = m l)
    (h : SameBytes dst.size f (read L m k)) :
    Moves L dst k m (setWords m₁ (L.addr s) n f) := by
  constructor
  · refine SameBytes.trans (SameBytes.of_words hsize fun k hk => ?_) h
    rw [hd]
    exact setWords_of_lt (by omega)
  · intro l hl h11 h15
    rw [hd] at hl
    rw [← hm l h11 h15]
    cases l with
    | gpr r => rfl
    | xmm x => rfl
    | word b =>
      rw [setWords, if_neg]
      rintro ⟨hle, hlt⟩
      exact hl ⟨b, rfl, hle, by omega⟩

theorem setWords_again : setWords (setWords m a n f) a n g = setWords m a n g := by
  funext l
  cases l with
  | gpr r => rfl
  | xmm x => rfl
  | word b =>
    simp only [setWords]
    split <;> rfl

theorem setWords_self : setWords m a 1 f (.word a) 0 = f 0 := by
  have h := setWords_of_lt (m := m) (a := a) (f := f) (show 0 < 1 by omega)
  rwa [Int.natCast_zero, Int.add_zero] at h

/-! ### Halves of a word -/

theorem getLsbD_low (x : U64) (i : Nat) : (low x).getLsbD i = (x.getLsbD i && decide (i < 32)) := by
  have hmask : (0xFFFFFFFF#64) = (allOnes 32).setWidth 64 := by decide
  rw [low, hmask, getLsbD_and, getLsbD_setWidth, getLsbD_allOnes]
  by_cases hi : i < 32
  · simp [hi, show i < 64 by omega]
  · simp [hi]

theorem getLsbD_setHalf_false (v : BitVec 32) (x : U64) {i : Nat} (hi : i < 64) :
    (setHalf false v x).getLsbD i = if i < 32 then v.getLsbD i else x.getLsbD i := by
  have hmask : (0xFFFFFFFF#64) = (allOnes 32).setWidth 64 := by decide
  simp only [setHalf, Bool.false_eq_true, if_false, hmask, getLsbD_or, getLsbD_and,
    getLsbD_not, getLsbD_setWidth, getLsbD_allOnes]
  by_cases h : i < 32
  · simp [h, hi]
  · simp [h, hi, getLsbD_of_ge v i (by omega)]

theorem getLsbD_setHalf_true (v : BitVec 32) (x : U64) {i : Nat} (hi : i < 64) :
    (setHalf true v x).getLsbD i = if i < 32 then x.getLsbD i else v.getLsbD (i - 32) := by
  simp only [setHalf, if_true, getLsbD_or, getLsbD_low, getLsbD_shiftLeft, getLsbD_setWidth]
  by_cases h : i < 32
  · simp [h]
  · simp [h, hi, show i - 32 < 64 by omega]

theorem low_setHalf_false (v : BitVec 32) (x y : U64) (h : v = y.setWidth 32) :
    low (setHalf false v x) = low y := by
  refine eq_of_getLsbD_eq fun i hi => ?_
  rw [getLsbD_low, getLsbD_low, getLsbD_setHalf_false v x hi, h, getLsbD_setWidth]
  by_cases h32 : i < 32 <;> simp [h32]

theorem setHalves (v x : U64) : setHalf true ((v >>> 32).setWidth 32)
    (setHalf false (v.setWidth 32) x) = v := by
  refine eq_of_getLsbD_eq fun i hi => ?_
  rw [getLsbD_setHalf_true _ _ hi, getLsbD_setHalf_false _ _ hi]
  by_cases h : i < 32
  · simp [h]
  · rw [if_neg h, getLsbD_setWidth, getLsbD_ushiftRight]
    have h₁ : i - 32 < 32 := by omega
    have h₂ : 32 + (i - 32) = i := by omega
    rw [h₂, decide_eq_true h₁, Bool.true_and]

theorem low_setHalf_zero (v : BitVec 32) (x y : U64) (h : v = y.setWidth 32) :
    low (setHalf true 0 (setHalf false v x)) = low y := by
  refine eq_of_getLsbD_eq fun i hi => ?_
  rw [getLsbD_low, getLsbD_low, getLsbD_setHalf_true _ _ hi, getLsbD_setHalf_false _ _ hi, h,
    getLsbD_setWidth]
  by_cases h32 : i < 32 <;> simp [h32]

theorem sameBytes_of_narrow (hw : w = 4 ∨ w = 8) (hle : w ≤ n)
    (hf : f 0 = narrow n (g 0)) : SameBytes w f g := by
  refine sameBytes_narrow hw ?_ fun h8 => ?_
  · rw [hf, narrow]
    split
    · exact low_low _
    · rfl
  · rw [hf, narrow, if_neg (by omega)]

/-! ### The four kinds of move -/

theorem vecWidth_isSize : IsSize (vecWidth dst src) := by
  unfold vecWidth IsSize
  split_ifs <;> omega

theorem le_vecWidth (hd : IsSize dst.size) : dst.size ≤ vecWidth dst src := by
  unfold vecWidth
  unfold IsSize at hd
  split_ifs <;> omega

theorem vecWidth_eq_or (hd : IsSize dst.size) (hs : IsSize src.size) :
    vecWidth dst src = dst.size ∨ vecWidth dst src = src.size := by
  unfold vecWidth
  unfold IsSize at hd hs
  split_ifs <;> omega

theorem vecWidth_four (h : vecWidth dst src = 4) : dst.size = 4 := by
  unfold vecWidth at h
  split_ifs at h <;> omega

theorem words_vecWidth_le (hd : IsSize dst.size) (hs : IsSize src.size)
    (h₁ : words dst.size ≤ n) (h₂ : words src.size ≤ n) : words (vecWidth dst src) ≤ n := by
  rcases vecWidth_eq_or hd hs with h | h <;> rw [h]
  · exact h₁
  · exact h₂

theorem words_mono {v w : Nat} (h : v ≤ w) : words v ≤ words w := by
  unfold words
  split_ifs <;> omega

theorem isSize_small (hw : IsSize w) (h : w ≤ 8) : w = 4 ∨ w = 8 := by
  unfold IsSize at hw
  omega

theorem pregLoc_gpr (h : isGpr p = true) : pregLoc p = .gpr (asGpr p) := by
  have hx : p.isXmm = false := by
    simp only [isGpr, Bool.and_eq_true, beq_iff_eq] at h
    simp [PReg.isXmm, h.1]
  rw [pregLoc, hx, asGpr, h]
  rfl

theorem pregLoc_xmm (h : p.isXmm = true) : pregLoc p = .xmm (asXmm p) := by
  rw [pregLoc, h, asXmm, h]
  rfl

theorem not_isGpr_of_isXmm (h : p.isXmm = true) : isGpr p = false := by
  simp only [PReg.isXmm, Bool.and_eq_true, beq_iff_eq] at h
  simp [isGpr, h.1]

theorem not_isXmm_of_isGpr (h : isGpr p = true) : p.isXmm = false := by
  cases hx : p.isXmm with
  | false => rfl
  | true =>
    rw [not_isGpr_of_isXmm hx] at h
    exact absurd h (by decide)

theorem moves_setGpr (hd : dst.kind = .preg p) (hp : isGpr p = true)
    (h : SameBytes dst.size f (read L m k)) :
    Moves L dst k m (setReg m (.gpr (asGpr p)) f) :=
  pregLoc_gpr hp ▸ moves_setReg hd h

theorem moves_setXmm (hd : dst.kind = .preg p) (hp : p.isXmm = true)
    (h : SameBytes dst.size f (read L m k)) :
    Moves L dst k m (setReg m (.xmm (asXmm p)) f) :=
  pregLoc_xmm hp ▸ moves_setReg hd h

theorem emitToGpr_spec (hd : dst.kind = .preg p) (hp : isGpr p = true)
    (h : Emittable L dst src) : Moves L dst src.kind m (run (emitToGpr L.addr (asGpr p) dst src) m) := by
  obtain ⟨hsd, -, hkind⟩ := h
  rw [hd] at hkind
  have hx := not_isXmm_of_isGpr hp
  cases hs : src.kind with
  | preg q =>
    rw [hs] at hkind
    obtain ⟨-, hq, hle⟩ | ⟨hx', -⟩ := hkind
    · simp only [emitToGpr, hs]
      refine moves_setGpr hd hp ?_
      rw [read, pregLoc_gpr hq]
      refine sameBytes_of_narrow (isSize_small hsd hle) ?_ rfl
      have := isSize_small hsd hle
      split <;> omega
    · rw [hx] at hx'
      exact absurd hx' (by decide)
  | slot t =>
    rw [hs] at hkind
    obtain ⟨-, hle⟩ | hx' := hkind
    · simp only [emitToGpr, hs]
      refine moves_setGpr hd hp ?_
      rw [read]
      have := isSize_small hsd hle
      refine sameBytes_of_narrow this ?_ (by simp only [Int.natCast_zero, Int.add_zero]; rfl)
      split <;> omega
    · rw [hx] at hx'
      exact absurd hx' (by decide)
  | imm v =>
    rw [hs] at hkind
    simp only [emitToGpr, hs]
    refine moves_setGpr hd hp ?_
    rw [read]
    have := isSize_small hsd hkind.2
    refine sameBytes_of_narrow this ?_ rfl
    split <;> omega

theorem loadVec_spec {mem old : Nat → U64} (hw : IsSize w) (hle : w ≤ n) :
    SameBytes w (loadVec n mem old) mem := by
  by_cases h8 : n ≤ 8
  · refine sameBytes_of_narrow (isSize_small hw (by omega)) hle ?_
    rw [loadVec, if_pos h8, if_pos rfl]
  · refine SameBytes.of_words hw fun k hk => ?_
    have hlt : k < n / 8 := by
      have := words_mono hle
      unfold words at this hk
      split_ifs at this hk <;> omega
    rw [loadVec, if_neg h8, if_pos hlt]

theorem emitToXmm_spec (hd : dst.kind = .preg p) (hp : p.isXmm = true)
    (h : Emittable L dst src) : Moves L dst src.kind m (run (emitToXmm L.addr (asXmm p) dst src) m) := by
  obtain ⟨hsd, hss, hkind⟩ := h
  rw [hd] at hkind
  have hg := not_isGpr_of_isXmm hp
  cases hs : src.kind with
  | preg q =>
    rw [hs] at hkind
    obtain ⟨hg', -⟩ | ⟨-, hq⟩ := hkind
    · rw [hg] at hg'
      exact absurd hg' (by decide)
    · simp only [emitToXmm, hs]
      refine moves_setXmm hd hp ?_
      rw [read, pregLoc_xmm hq]
      refine SameBytes.of_words hsd fun k hk => if_pos ?_
      have hle : dst.size ≤ vecWidth dst src := le_vecWidth hsd
      have hsize : IsSize (vecWidth dst src) := vecWidth_isSize
      unfold IsSize at hsd hsize
      unfold words at hk
      split_ifs at hk ⊢ <;> omega
  | slot t =>
    simp only [emitToXmm, hs]
    refine moves_setXmm hd hp ?_
    exact loadVec_spec hsd (le_vecWidth hsd)
  | imm v =>
    rw [hs] at hkind
    exact absurd (hg.symm.trans hkind.1) (by decide)

theorem storeVec_spec (hd : dst.kind = .slot s) (hsd : IsSize dst.size) (hss : IsSize src.size)
    (h₁ : words dst.size ≤ L.room s) (h₂ : words src.size ≤ L.room s) {x : Nat}
    (hm : ∀ l, l ≠ .gpr 11 → l ≠ .xmm 15 → m₁ l = m l)
    (hv : SameBytes dst.size (m₁ (.xmm x)) (read L m k)) :
    Moves L dst k m (exec m₁ (.vecMR (vecWidth dst src) (L.addr s) x)) := by
  have hsize : IsSize (vecWidth dst src) := vecWidth_isSize
  have hroom := words_vecWidth_le hsd hss h₁ h₂
  have hle : dst.size ≤ vecWidth dst src := le_vecWidth hsd
  rw [exec]
  split
  · rename_i h4
    have hd4 := vecWidth_four h4
    have hone : words dst.size ≤ 1 := by simp [words, hd4]
    refine moves_setWords hd (Nat.le_trans (by unfold words; split <;> omega) h₁) hsd hone hm ?_
    refine SameBytes.trans ?_ hv
    rw [hd4]
    exact sameBytes_narrow (Or.inl rfl) (low_setHalf_false _ _ _ rfl) (by omega)
  · rename_i h4
    have hwords : words (vecWidth dst src) = vecWidth dst src / 8 := by
      unfold words
      unfold IsSize at hsize
      split_ifs <;> omega
    rw [hwords] at hroom
    exact moves_setWords hd hroom hsd (hwords ▸ words_mono hle) hm hv

theorem emitToSlot_spec (hd : dst.kind = .slot s) (h : Emittable L dst src) :
    Moves L dst src.kind m (run (emitToSlot L.addr (L.addr s) dst src) m) := by
  obtain ⟨hsd, hss, hkind⟩ := h
  rw [hd] at hkind
  have hself : ∀ l, l ≠ .gpr 11 → l ≠ .xmm 15 → m l = m l := fun _ _ _ => rfl
  have hone : dst.size ≤ 8 → words dst.size ≤ 1 := fun h => by simp [words, h]
  cases hs : src.kind with
  | preg q =>
    rw [hs] at hkind
    simp only [emitToSlot, hs]
    obtain ⟨hq, hle, hroom⟩ | ⟨hq, h₁, h₂⟩ := hkind
    · rw [if_pos hq]
      simp only [run, List.foldl_cons, List.foldl_nil, exec]
      refine moves_setWords (n := 1) hd hroom hsd (hone hle) hself ?_
      rw [read, pregLoc_gpr hq]
      exact sameBytes_of_narrow (n := 8) (isSize_small hsd hle) hle rfl
    · rw [if_neg (by rw [not_isGpr_of_isXmm hq]; decide)]
      refine storeVec_spec hd hsd hss h₁ h₂ hself ?_
      rw [read, pregLoc_xmm hq]
      exact SameBytes.refl _ _
  | slot t =>
    rw [hs] at hkind
    simp only [emitToSlot, hs]
    obtain ⟨h₁, h₂⟩ := hkind
    have hsize : IsSize (vecWidth dst src) := vecWidth_isSize
    have hle : dst.size ≤ vecWidth dst src := le_vecWidth hsd
    split
    · rename_i hwide
      refine storeVec_spec hd hsd hss h₁ h₂ (fun l _ h15 => Function.update_of_ne h15 _ _) ?_
      rw [exec, setReg, Function.update_self]
      exact loadVec_spec hsd hle
    · rename_i hnarrow
      have hw8 : vecWidth dst src ≤ 8 := by
        unfold IsSize at hsize
        omega
      simp only [run, List.foldl_cons, List.foldl_nil, exec]
      refine moves_setWords (n := 1) hd (Nat.le_trans (by unfold words; split <;> omega) h₁) hsd
        (hone (by omega)) (fun l h11 _ => Function.update_of_ne h11 _ _) ?_
      rw [setReg, Function.update_self, read]
      refine sameBytes_of_narrow (isSize_small hsd (by omega)) hle ?_
      simp only [Int.natCast_zero, Int.add_zero]
  | imm v =>
    rw [hs] at hkind
    simp only [emitToSlot, hs]
    obtain ⟨hle, hroom⟩ := hkind
    have hsmall := isSize_small hsd hle
    split
    · rename_i h4
      simp only [run, List.foldl_cons, List.foldl_nil, exec, setWords_again, setWords_self]
      refine moves_setWords (n := 1) hd hroom hsd (hone hle) hself ?_
      rw [read]
      exact sameBytes_narrow hsmall (low_setHalf_zero _ _ _ rfl) (by omega)
    · split
      · simp only [run, List.foldl_cons, List.foldl_nil, exec]
        refine moves_setWords (n := 1) hd hroom hsd (hone hle) hself ?_
        rw [read]
        exact SameBytes.refl _ _
      · simp only [run, List.foldl_cons, List.foldl_nil, exec, setWords_again, setWords_self]
        refine moves_setWords (n := 1) hd hroom hsd (hone hle) hself ?_
        rw [read]
        exact SameBytes.of_words hsd fun k _ => setHalves _ _

theorem emitMove_spec (h : Emittable L dst src) :
    Moves L dst src.kind m (run (emitMove L.addr dst src) m) := by
  rw [emitMove]
  split
  · rename_i hsame
    refine ⟨?_, fun _ _ _ _ => rfl⟩
    rw [(sameLoc_iff.mp hsame).1]
    exact SameBytes.refl _ _
  · cases hd : dst.kind with
    | preg p =>
      by_cases hp : isGpr p = true
      · simp only [hp, if_true]
        exact emitToGpr_spec hd hp h
      · have hx : p.isXmm = true := by
          have hkind := h.2.2
          rw [hd] at hkind
          cases hs : src.kind <;> rw [hs] at hkind <;> simp_all
        simp only [Bool.not_eq_true] at hp
        simp only [hp, Bool.false_eq_true, if_false]
        exact emitToXmm_spec hd hx h
    | slot s => exact emitToSlot_spec hd h
    | imm v =>
      have hkind := h.2.2
      rw [hd] at hkind
      exact hkind.elim

end Spec

end Brass.Codegen.Copy
