import Mathlib.Algebra.BigOperators.Group.List.Basic
import Mathlib.Data.Int.ModEq
import Mathlib.Tactic.Ring

/-!
# Affine address forms

`mir/loop_affine.cpp`. `Decomposer.run` reads a value as a linear combination of the induction
variables of a loop nest, of their products with an invariant, and of invariants; every
coefficient is a checked 64-bit number. Values are read as signed integers of their type's
width, and the wide arithmetic of an iteration wraps. The same combination is exact where
nothing wraps, so that no coefficient can have overflowed (`addressForm_exact`).
-/

namespace Brass.Mir.Affine

/-! ## Checked arithmetic -/

def checkedAdd (a b : Int64) : Option Int64 :=
  if (0 < b ∧ Int64.maxValue - b < a) ∨ (b < 0 ∧ a < Int64.minValue - b) then none
  else some (a + b)

def checkedSub (a b : Int64) : Option Int64 :=
  if (b < 0 ∧ Int64.maxValue + b < a) ∨ (0 < b ∧ a < Int64.minValue + b) then none
  else some (a - b)

def checkedMul (a b : Int64) : Option Int64 :=
  if a = 0 ∨ b = 0 then some 0
  else if (a = -1 ∧ b = Int64.minValue) ∨ (b = -1 ∧ a = Int64.minValue) then none
  else if
    if 0 < a then if 0 < b then Int64.maxValue / b < a else b < Int64.minValue / a
    else if 0 < b then a < Int64.minValue / b else a < Int64.maxValue / b
  then none
  else some (a * b)

section Checked

variable {a b c y : Int64} {x : Int}

theorem toInt_of_fits (hy : y.toInt = x.bmod (2 ^ 64)) (hlow : -2 ^ 63 ≤ x) (hhigh : x < 2 ^ 63) :
    y.toInt = x :=
  hy.trans (Int.bmod_eq_of_le hlow hhigh)

theorem checked_iff {P : Prop} [Decidable P] (hy : y.toInt = x.bmod (2 ^ 64))
    (hP : P ↔ x < -2 ^ 63 ∨ 2 ^ 63 ≤ x) : (if P then none else some y) = some c ↔ c.toInt = x := by
  split <;> rename_i h <;> rw [hP] at h
  · have hlow := c.le_toInt
    have hhigh := c.toInt_lt
    simp only [reduceCtorEq, false_iff]
    omega
  · rw [Option.some_inj, ← Int64.toInt_inj, toInt_of_fits hy (by omega) (by omega), eq_comm]

theorem checkedAdd_iff : checkedAdd a b = some c ↔ c.toInt = a.toInt + b.toInt := by
  refine checked_iff (Int64.toInt_add a b) ?_
  have hmax : 0 < b.toInt → (Int64.maxValue - b).toInt = 2 ^ 63 - 1 - b.toInt := fun h =>
    toInt_of_fits (Int64.toInt_sub ..) (by have := b.toInt_lt; omega) (by omega)
  have hmin : b.toInt < 0 → (Int64.minValue - b).toInt = -2 ^ 63 - b.toInt := fun h =>
    toInt_of_fits (Int64.toInt_sub ..) (by omega) (by have := b.le_toInt; omega)
  have ha := a.toInt_lt
  have ha' := a.le_toInt
  simp only [Int64.lt_iff_toInt_lt, Int64.toInt_zero]
  omega

theorem checkedSub_iff : checkedSub a b = some c ↔ c.toInt = a.toInt - b.toInt := by
  refine checked_iff (Int64.toInt_sub a b) ?_
  have hmax : b.toInt < 0 → (Int64.maxValue + b).toInt = 2 ^ 63 - 1 + b.toInt := fun h =>
    toInt_of_fits (Int64.toInt_add ..) (by have := b.le_toInt; omega) (by omega)
  have hmin : 0 < b.toInt → (Int64.minValue + b).toInt = -2 ^ 63 + b.toInt := fun h =>
    toInt_of_fits (Int64.toInt_add ..) (by omega) (by have := b.toInt_lt; omega)
  have ha := a.toInt_lt
  have ha' := a.le_toInt
  simp only [Int64.lt_iff_toInt_lt, Int64.toInt_zero]
  omega

theorem checkedMul_iff : checkedMul a b = some c ↔ c.toInt = a.toInt * b.toInt := by
  rw [checkedMul]
  by_cases hzero : a = 0 ∨ b = 0
  · rw [if_pos hzero, Option.some_inj, ← Int64.toInt_inj]
    obtain rfl | rfl := hzero <;> simp [eq_comm]
  rw [if_neg hzero, ← ite_or]
  refine checked_iff (Int64.toInt_mul a b) ?_
  simp only [← Int64.toInt_inj, Int64.lt_iff_toInt_lt, Int64.toInt_zero, Int64.toInt_minValue,
    show (-1 : Int64).toInt = -1 from rfl, not_or] at hzero ⊢
  have hone : a.toInt = -1 ∧ b.toInt = -2 ^ 63 ∨ b.toInt = -1 ∧ a.toInt = -2 ^ 63 →
      a.toInt * b.toInt = 2 ^ 63 := by
    rintro (⟨ha, hb⟩ | ⟨hb, ha⟩) <;> rw [ha, hb] <;> rfl
  have hmax : (Int64.maxValue / b).toInt = (2 ^ 63 - 1) / b.toInt := by
    rw [Int64.toInt_div_of_ne_left _ _ (by decide), Int64.toInt_maxValue,
      Int.tdiv_eq_ediv_of_nonneg (by decide)]
  have hmin : ∀ d : Int64, 0 < d.toInt → (Int64.minValue / d).toInt = -(2 ^ 63 / d.toInt) := by
    intro d hd
    rw [Int64.toInt_div_of_ne_right _ _ (by rintro rfl; exact absurd hd (by decide)),
      Int64.toInt_minValue, Int.neg_tdiv, Int.tdiv_eq_ediv_of_nonneg (by decide)]
  rcases Int.lt_or_gt_of_ne hzero.1 with ha | ha <;> rcases Int.lt_or_gt_of_ne hzero.2 with hb | hb
  · have hquot := Int.ediv_lt_iff_lt_mul (a := 2 ^ 63 - 1) (b := -a.toInt) (Int.neg_pos.2 hb)
    have hpos := Int.mul_pos_of_neg_of_neg ha hb
    rw [Int.neg_mul_neg, Int.ediv_neg] at hquot
    rw [if_neg (by omega), if_neg (by omega), hmax]
    omega
  · have hquot := Int.ediv_lt_iff_lt_mul (a := 2 ^ 63) (b := -a.toInt) hb
    have hneg := Int.mul_neg_of_neg_of_pos ha hb
    rw [Int.neg_mul] at hquot
    rw [if_neg (by omega), if_pos hb, hmin b hb]
    omega
  · have hquot := Int.ediv_lt_iff_lt_mul (a := 2 ^ 63) (b := -b.toInt) ha
    have hneg := Int.mul_neg_of_pos_of_neg ha hb
    rw [Int.neg_mul, Int.mul_comm b.toInt] at hquot
    rw [if_pos ha, if_neg (by omega), hmin a ha]
    omega
  · have hquot := Int.ediv_lt_iff_lt_mul (a := 2 ^ 63 - 1) (b := a.toInt) hb
    have hpos := Int.mul_pos ha hb
    rw [if_pos ha, if_pos hb, hmax]
    omega

end Checked

/-! ## The function -/

inductive Ty
  | i8 | i16 | i32 | i64 | f32 | f64 | ptr | gcref | vector
  deriving DecidableEq, Repr

def Ty.isWide (t : Ty) : Bool := t = .i64 ∨ t = .ptr ∨ t = .gcref

inductive BinOp
  | add | sub | mul | shl
  deriving DecidableEq, Repr

/-- The instructions that the decomposition looks into, with the values they read. -/
inductive Inst (V : Type)
  | iconstI32 (imm : Int32)
  | iconstI64 (imm : Int64)
  | sextI64 (x : V)
  | binary (op : BinOp) (type : Ty) (lhs rhs : V)
  | other

/-- The instruction that defines a value; a block parameter has none. -/
abbrev Function (V : Type) := V → Option (Inst V)

/-- The value of an operation that does not wrap. -/
def BinOp.exact : BinOp → Int → Int → Int
  | .add, x, y => x + y
  | .sub, x, y => x - y
  | .mul, x, y => x * y
  | .shl, x, y => x * 2 ^ (y % 64).toNat

variable {V : Type}

/-- What an instruction makes of its operands' values, when arithmetic on wide types ends with
`wrap`. Narrow arithmetic is left open: no form looks into it. -/
def Inst.result (wrap : Int → Int) (val : V → Int) : Inst V → Option Int
  | .iconstI32 imm => some imm.toInt
  | .iconstI64 imm => some imm.toInt
  | .sextI64 x => some (val x)
  | .binary op type lhs rhs =>
    if type.isWide then some (wrap (op.exact (val lhs) (val rhs))) else none
  | .other => none

/-- `val` gives every value what its instruction computes. -/
def Function.Evaluates (F : Function V) (wrap : Int → Int) (val : V → Int) : Prop :=
  ∀ v inst x, F v = some inst → inst.result wrap val = some x → val v = x

/-- The values of one iteration, each read as a signed integer of its type's width. -/
structure Iteration (F : Function V) (wrap : Int → Int) where
  val : V → Int
  evaluates : F.Evaluates wrap val

def wrap64 (x : Int) : Int := x.bmod (2 ^ 64)

/-! ## Linear combinations -/

section Map

variable {κ : Type} [DecidableEq κ]

/-- `m[key] += x` on a map of coefficients, where a new key starts at zero. -/
def addTo (m : List (κ × Int64)) (key : κ) (x : Int64) : Option (List (κ × Int64)) :=
  match m with
  | [] => (checkedAdd 0 x).map fun y => [(key, y)]
  | e :: m =>
    if e.1 = key then (checkedAdd e.2 x).map fun y => (key, y) :: m
    else (addTo m key x).map (e :: ·)

def accumulateMap (dst src : List (κ × Int64)) (factor : Int64) : Option (List (κ × Int64)) :=
  src.foldlM (fun dst e => do
    let t ← checkedMul e.2 factor
    addTo dst e.1 t) dst

/-- The sum of the coefficients, each times what its key stands for. -/
def mapSum (m : List (κ × Int64)) (w : κ → Int) : Int := (m.map fun e => e.2.toInt * w e.1).sum

end Map

/-- A term is an induction variable, times an invariant if there is one. -/
structure Lin (V : Type) where
  inv : List (V × Int64) := []
  terms : List ((V × Option V) × Int64) := []
  c : Int64 := 0

def prune (l : Lin V) : Lin V :=
  { l with
    inv := l.inv.filter (fun e => e.2 ≠ 0)
    terms := l.terms.filter (fun e => e.2 ≠ 0) }

def termValue (val : V → Int) (key : V × Option V) : Int := val key.1 * key.2.elim 1 val

def Lin.value (l : Lin V) (val : V → Int) : Int :=
  mapSum l.inv val + mapSum l.terms (termValue val) + l.c.toInt

def isIntConstant (F : Function V) (v : V) : Option Int64 :=
  match F v with
  | some (.iconstI32 imm) => some imm.toInt64
  | some (.iconstI64 imm) => some imm
  | _ => none

structure Decomposer (V : Type) where
  fn : Function V
  ivs : List V
  invariant : V → Bool

variable {d : Decomposer V} {val : V → Int} {a b l out : Lin V} {factor : Int64} {v : V}

theorem filter_sum {κ : Type} (m : List (κ × Int64)) (w : κ → Int) :
    mapSum (m.filter (fun e => e.2 ≠ 0)) w = mapSum m w := by
  induction m with
  | nil => rfl
  | cons e m ih =>
    by_cases hzero : e.2 = 0 <;> simp_all [mapSum]

theorem prune_value : (prune l).value val = l.value val := by
  simp only [prune, Lin.value, filter_sum]

section Evaluates

variable {wrap : Int → Int} {n : Int} (heval : d.fn.Evaluates wrap val)
  (hwrap : ∀ x, wrap x ≡ x [ZMOD n])

include heval in
theorem isIntConstant_value {k : Int64} (h : isIntConstant d.fn v = some k) : val v = k.toInt := by
  unfold isIntConstant at h
  split at h <;> cases h
  next imm hv => simpa using heval v _ _ hv rfl
  next hv => exact heval v _ _ hv rfl

include heval hwrap in
theorem binary_modEq {op : BinOp} {type : Ty} {x y : V}
    (hv : d.fn v = some (.binary op type x y)) (hwide : type.isWide) :
    val v ≡ op.exact (val x) (val y) [ZMOD n] := by
  rw [heval v _ _ hv (by rw [Inst.result, if_pos hwide])]
  exact hwrap _

end Evaluates

/-! ## Decomposition -/

variable [DecidableEq V]

def accumulate (dst src : Lin V) (factor : Int64) : Option (Lin V) := do
  let inv ← accumulateMap dst.inv src.inv factor
  let terms ← accumulateMap dst.terms src.terms factor
  let t ← checkedMul src.c factor
  let c ← checkedAdd dst.c t
  some { inv, terms, c }

/-- One term of a linear form, times the invariant `sym`. -/
def addTerm (sym : V) (terms : List ((V × Option V) × Int64)) (e : (V × Option V) × Int64) :
    Option (List ((V × Option V) × Int64)) := do
  guard e.1.2.isNone
  addTo terms (e.1.1, some sym) e.2

/-- A linear form without invariant part, times the invariant `sym`. -/
def timesInvariant (a : Lin V) (sym : V) : Option (Lin V) := do
  guard a.inv.isEmpty
  let terms ← a.terms.foldlM (addTerm sym) []
  let inv ← (if a.c = 0 then some [] else addTo [] sym a.c)
  some { inv, terms }

def swapIf (c : Bool) (p : V × V) : V × V := if c then p.swap else p

namespace Decomposer

variable (d : Decomposer V)

/-- `run` at a depth with `fuel` levels left to `kMaxDepth`. -/
def run : Nat → V → Option (Lin V)
  | 0, _ => none
  | fuel + 1, v =>
    match isIntConstant d.fn v with
    | some k => some { c := k }
    | none =>
      if v ∈ d.ivs then some { terms := [((v, none), 1)] }
      else if d.invariant v then some { inv := [(v, 1)] }
      else match d.fn v with
        | some (.sextI64 x) => if x ∈ d.ivs then some { terms := [((x, none), 1)] } else none
        | some (.binary op type x y) =>
          if ¬ type.isWide then none
          else match op with
            | .add => do
              let a ← run fuel x
              let b ← run fuel y
              accumulate (← accumulate {} a 1) b 1
            | .sub => do
              let a ← run fuel x
              let b ← run fuel y
              accumulate (← accumulate {} a 1) b (-1)
            | .shl => do
              let s ← isIntConstant d.fn y
              guard (¬ (s < 0 ∨ 62 < s))
              accumulate {} (← run fuel x) (1 <<< s)
            | .mul => do
              let p := swapIf (isIntConstant d.fn x).isSome (x, y)
              match isIntConstant d.fn p.2 with
              | some k => accumulate {} (← run fuel p.1) k
              | none =>
                let p := swapIf (d.invariant p.1) p
                guard (d.invariant p.2)
                timesInvariant (← run fuel p.1) p.2
        | _ => none

end Decomposer

def kMaxDepth : Nat := 24

/-! ## Address forms -/

inductive MemOp
  | load | store | loadIndexed | storeIndexed | vload | vstore | other
  deriving DecidableEq, Repr

def isPlainMemoryAccess (op : MemOp) : Bool := op ≠ .other

def isPlainStore (op : MemOp) : Bool := op = .store ∨ op = .storeIndexed ∨ op = .vstore

def MemOp.isIndexed (op : MemOp) : Bool := op = .loadIndexed ∨ op = .storeIndexed

structure MemInst (V : Type) where
  op : MemOp
  operand : Nat → V
  size : UInt32
  scale : UInt8
  offset : Int32
  -- The verifier admits no other scale of an indexed access.
  scale_mem : op.isIndexed → scale ∈ [1, 2, 4, 8]

/-- The address that the access computes. -/
def MemInst.address (mem : MemInst V) (val : V → Int) : Int :=
  val (mem.operand 0) + (if mem.op.isIndexed then val (mem.operand 1) * mem.scale.toNat else 0) +
    mem.offset.toInt

structure Form (V : Type) where
  ok : Bool := false
  -- `invariants`, `terms` and `constant`
  lin : Lin V := {}
  size : UInt32 := 0
  pointer : Option V := none
  isStore : Bool := false

/-- The base, the scaled index and the offset of the access in one combination. -/
def addressLin (d : Decomposer V) (mem : MemInst V) : Option (Lin V) := do
  let lin ← d.run (kMaxDepth + 1) (mem.operand 0)
  let lin ← (if mem.op.isIndexed then do
      let idx ← d.run (kMaxDepth + 1) (mem.operand 1)
      accumulate lin idx (if 0 < mem.scale then Int64.ofNat mem.scale.toNat else 1)
    else some lin)
  let c ← checkedAdd lin.c mem.offset.toInt64
  some (prune { lin with c })

def addressForm (d : Decomposer V) (mem : MemInst V) : Form V :=
  if ¬ isPlainMemoryAccess mem.op then {}
  else
    let f : Form V :=
      { isStore := isPlainStore mem.op, size := mem.size, pointer := some (mem.operand 0) }
    if mem.size = 0 then f
    else match addressLin d mem with
      | none => f
      | some lin => { f with ok := true, lin }

/-! ## Exactness -/

section Map

variable {κ : Type} [DecidableEq κ] {m src dst out : List (κ × Int64)} {key : κ} {x factor : Int64}
  {w : κ → Int}

theorem addTo_sum (h : addTo m key x = some out) :
    mapSum out w = mapSum m w + x.toInt * w key := by
  induction m generalizing out with
  | nil =>
    simp only [addTo, Option.map_eq_some_iff, checkedAdd_iff] at h
    obtain ⟨y, hy, rfl⟩ := h
    simp [mapSum, hy]
  | cons e m ih =>
    rw [addTo] at h
    split at h <;> simp only [Option.map_eq_some_iff, checkedAdd_iff] at h
    next hkey =>
      obtain ⟨y, hy, rfl⟩ := h
      simp only [mapSum, List.map_cons, List.sum_cons, hy, hkey]
      ring
    next =>
      obtain ⟨m', hm, rfl⟩ := h
      have hsum := ih hm
      simp only [mapSum, List.map_cons, List.sum_cons] at hsum ⊢
      rw [hsum, add_assoc]

theorem accumulateMap_sum (h : accumulateMap dst src factor = some out) :
    mapSum out w = mapSum dst w + factor.toInt * mapSum src w := by
  induction src generalizing dst with
  | nil =>
    obtain rfl : dst = out := by simpa [accumulateMap] using h
    simp [mapSum]
  | cons e src ih =>
    simp only [accumulateMap, List.foldlM_cons, Option.bind_eq_bind, Option.bind_eq_some_iff] at h ih
    obtain ⟨mid, ⟨t, ht, hmid⟩, h⟩ := h
    have hhead := addTo_sum (w := w) hmid
    rw [ih h, hhead, checkedMul_iff.1 ht]
    simp only [mapSum, List.map_cons, List.sum_cons]
    ring

end Map

theorem accumulate_value (h : accumulate a b factor = some out) :
    out.value val = a.value val + factor.toInt * b.value val := by
  simp only [accumulate, Option.bind_eq_bind, Option.bind_eq_some_iff, Option.some_inj] at h
  obtain ⟨inv, hinv, terms, hterms, t, ht, c, hc, rfl⟩ := h
  simp only [Lin.value]
  rw [accumulateMap_sum hinv, accumulateMap_sum hterms, checkedAdd_iff.1 hc, checkedMul_iff.1 ht]
  ring

theorem accumulate_empty (h : accumulate {} a factor = some out) :
    out.value val = factor.toInt * a.value val := by
  have hvalue : out.value val = _ := accumulate_value h
  simpa [Lin.value, mapSum] using hvalue

theorem addTerm_foldlM_sum {terms dst mid : List ((V × Option V) × Int64)}
    (h : terms.foldlM (addTerm v) dst = some mid) :
    mapSum mid (termValue val) =
      mapSum dst (termValue val) + mapSum terms (termValue val) * val v := by
  induction terms generalizing dst with
  | nil =>
    obtain rfl : dst = mid := by simpa using h
    simp [mapSum]
  | cons e terms ih =>
    simp only [List.foldlM_cons, addTerm, Option.bind_eq_bind, Option.bind_eq_some_iff,
      Option.guard_eq_some', Option.isNone_iff_eq_none] at h
    obtain ⟨next, ⟨_, hplain, hnext⟩, h⟩ := h
    rw [ih h, addTo_sum hnext]
    simp only [mapSum, List.map_cons, List.sum_cons, termValue, hplain, Option.elim]
    ring

theorem timesInvariant_value (h : timesInvariant a v = some out) :
    out.value val = a.value val * val v := by
  simp only [timesInvariant, Option.bind_eq_bind, Option.bind_eq_some_iff, Option.guard_eq_some',
    Option.some_inj, List.isEmpty_iff] at h
  obtain ⟨_, hempty, terms, hterms, inv, hinv, rfl⟩ := h
  have hc : mapSum inv val = a.c.toInt * val v := by
    split at hinv
    next hzero =>
      cases hinv
      simp [mapSum, hzero]
    next => simpa [mapSum] using addTo_sum (w := val) hinv
  have hsum : mapSum terms (termValue val) = _ := addTerm_foldlM_sum hterms
  simp only [Lin.value, hempty, hc, hsum]
  simp only [mapSum, List.map_nil, List.sum_nil, Int64.toInt_zero]
  ring

theorem toInt_one_shiftLeft {s : Int64} (hlow : 0 ≤ s.toInt) (hhigh : s.toInt ≤ 62) :
    ((1 : Int64) <<< s).toInt = 2 ^ s.toInt.toNat := by
  have hall : ∀ k : Fin 63, ((1 : Int64) <<< Int64.ofNat k).toInt = 2 ^ (k : Nat) := by decide
  have hs : Int64.ofNat s.toInt.toNat = s := by
    rw [← Int64.toInt_inj, Int64.toInt_ofNat_of_lt (by omega)]
    omega
  have hk := hall ⟨s.toInt.toNat, by omega⟩
  rwa [hs] at hk

omit [DecidableEq V] in
theorem swapIf_mul (c : Bool) (p : V × V) :
    val (swapIf c p).1 * val (swapIf c p).2 = val p.1 * val p.2 := by
  cases c
  · rfl
  · exact Int.mul_comm ..

section Run

variable {wrap : Int → Int} {n : Int} (heval : d.fn.Evaluates wrap val)
  (hwrap : ∀ x, wrap x ≡ x [ZMOD n])

include heval hwrap

theorem run_modEq {fuel : Nat} (h : d.run fuel v = some l) : val v ≡ l.value val [ZMOD n] := by
  induction fuel generalizing v l with
  | zero => cases h
  | succ fuel ih =>
    rw [Decomposer.run] at h
    split at h
    next k hk =>
      cases h
      simp [isIntConstant_value heval hk, Lin.value, mapSum]
    next =>
    split at h
    next =>
      cases h
      simp [Lin.value, mapSum, termValue]
    next =>
    split at h
    next =>
      cases h
      simp [Lin.value, mapSum, termValue]
    next =>
    split at h
    next x hv =>
      split at h <;> cases h
      simp [heval v _ _ hv rfl, Lin.value, mapSum, termValue]
    next op type x y hv =>
      split at h <;> try cases h
      next hwide =>
      rw [not_not] at hwide
      refine (binary_modEq heval hwrap hv hwide).trans ?_
      cases op <;> simp only [Option.bind_eq_bind, Option.bind_eq_some_iff] at h
      case add =>
        obtain ⟨a, ha, b, hb, m, hm, h⟩ := h
        rw [accumulate_value h, accumulate_empty hm, Int64.toInt_one, one_mul, one_mul]
        exact (ih ha).add (ih hb)
      case sub =>
        obtain ⟨a, ha, b, hb, m, hm, h⟩ := h
        rw [accumulate_value h, accumulate_empty hm, Int64.toInt_one, one_mul,
          show (-1 : Int64).toInt = -1 from rfl, neg_one_mul, ← sub_eq_add_neg]
        exact (ih ha).sub (ih hb)
      case shl =>
        obtain ⟨s, hs, _, hrange, a, ha, h⟩ := h
        simp only [Option.guard_eq_some', not_or, Int64.lt_iff_toInt_lt, not_lt] at hrange
        have hhigh : s.toInt ≤ 62 := hrange.2
        rw [accumulate_empty h, toInt_one_shiftLeft hrange.1 hhigh, BinOp.exact,
          isIntConstant_value heval hs, Int.emod_eq_of_lt hrange.1 (by omega), Int.mul_comm]
        exact (ih ha).mul_left _
      case mul =>
        rw [BinOp.exact, ← swapIf_mul (isIntConstant d.fn x).isSome (x, y)]
        generalize swapIf (isIntConstant d.fn x).isSome (x, y) = p at h ⊢
        split at h
        next k hk =>
          obtain ⟨a, ha, h⟩ := Option.bind_eq_some_iff.1 h
          rw [accumulate_empty h, isIntConstant_value heval hk, Int.mul_comm]
          exact (ih ha).mul_left _
        next =>
          simp only [Option.bind_eq_some_iff] at h
          obtain ⟨_, -, a, ha, h⟩ := h
          rw [timesInvariant_value h, ← swapIf_mul (d.invariant p.1) p]
          exact (ih ha).mul_right _
    next => cases h

theorem addressLin_modEq {mem : MemInst V} (h : addressLin d mem = some l) :
    mem.address val ≡ l.value val [ZMOD n] := by
  simp only [addressLin, Option.bind_eq_bind, Option.bind_eq_some_iff, Option.some_inj] at h
  obtain ⟨base, hbase, lin, hlin, c, hc, rfl⟩ := h
  have hvalue : (prune { lin with c }).value val = lin.value val + mem.offset.toInt := by
    rw [prune_value]
    simp only [Lin.value, checkedAdd_iff.1 hc, Int32.toInt_toInt64, add_assoc]
  rw [hvalue, MemInst.address]
  refine Int.ModEq.add_right _ ?_
  split at hlin
  next hindexed =>
    rw [if_pos hindexed]
    obtain ⟨idx, hidx, hlin⟩ := Option.bind_eq_some_iff.1 hlin
    have hscale : (if 0 < mem.scale then Int64.ofNat mem.scale.toNat else 1).toInt =
        mem.scale.toNat := by
      have hmem := mem.scale_mem hindexed
      simp only [List.mem_cons, List.not_mem_nil, or_false] at hmem
      rcases hmem with hs | hs | hs | hs <;> rw [hs] <;> rfl
    rw [accumulate_value hlin, hscale, Int.mul_comm (val _)]
    exact (run_modEq heval hwrap hbase).add ((run_modEq heval hwrap hidx).mul_left _)
  next hindexed =>
    cases hlin
    rw [if_neg hindexed, add_zero]
    exact run_modEq heval hwrap hbase

end Run

theorem addressForm_ok {mem : MemInst V} (hok : (addressForm d mem).ok = true) :
    addressLin d mem = some (addressForm d mem).lin := by
  unfold addressForm at hok ⊢
  grind

/-- The form of an address gives it in every iteration modulo `2 ^ 64`, and exactly where nothing
wraps; the checked operations give every result that fits, and no other. -/
theorem addressForm_exact {mem : MemInst V} (hok : (addressForm d mem).ok = true) :
    (∀ it : Iteration d.fn wrap64,
      mem.address it.val ≡ (addressForm d mem).lin.value it.val [ZMOD 2 ^ 64]) ∧
    (∀ it : Iteration d.fn id, mem.address it.val = (addressForm d mem).lin.value it.val) ∧
    (∀ x y z, checkedAdd x y = some z ↔ z.toInt = x.toInt + y.toInt) ∧
    (∀ x y z, checkedSub x y = some z ↔ z.toInt = x.toInt - y.toInt) ∧
    ∀ x y z, checkedMul x y = some z ↔ z.toInt = x.toInt * y.toInt := by
  have hlin := addressForm_ok hok
  refine ⟨fun it => ?_, fun it => ?_, fun _ _ _ => checkedAdd_iff, fun _ _ _ => checkedSub_iff,
    fun _ _ _ => checkedMul_iff⟩
  · exact addressLin_modEq it.evaluates (fun x => Int.bmod_emod) hlin
  · have hmod := addressLin_modEq (n := 0) it.evaluates (fun x => Int.ModEq.refl x) hlin
    simpa [Int.ModEq] using hmod

/-- `base + (row << 3) + 16`, where `row` is the induction variable 0 and `base` the invariant 1. -/
def rowDecomposer : Decomposer Nat where
  fn
    | 2 => some (.iconstI32 3)
    | 3 => some (.binary .shl .i64 0 2)
    | 4 => some (.binary .add .ptr 1 3)
    | _ => none
  ivs := [0]
  invariant v := v = 1

def rowAccess : MemInst Nat where
  op := .load
  operand _ := 4
  size := 8
  scale := 0
  offset := 16
  scale_mem := nofun

def rowIteration : Iteration rowDecomposer.fn wrap64 where
  val v := [5, 1000, 3, 40, 1040].getD v 0
  evaluates := by
    rintro (_ | _ | _ | _ | _ | v) inst x hv hx <;> cases hv <;> cases hx <;> rfl

theorem addressForm_exact_row : rowAccess.address rowIteration.val ≡
    (addressForm rowDecomposer rowAccess).lin.value rowIteration.val [ZMOD 2 ^ 64] :=
  (addressForm_exact (by decide)).1 rowIteration

end Brass.Mir.Affine
