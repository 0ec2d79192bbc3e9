import Brass.Mir.ImpliedChecks
import Mathlib.Tactic.IntervalCases
import Mathlib.Tactic.Positivity

/-!
# Which answers of the implied check folder hold

A state gives every value its signed reading. `ScopeHolds` says that what is in scope at a block
holds in the state; canonical forms then have the number of their value, and a fact that decides
a check about its own two values decides it rightly. The other two rules put the left operand
below the right one in the unsigned order and answer signed checks from that, which is right
exactly when the right operand is not negative (`checkImplied_sound`).
-/

namespace Brass.Mir

open Brass.Util

/-- The comparison of two words, given by their signed readings. -/
def Comparison.eval (op : Comparison) (w : Nat) (a b : Int) : Bool :=
  match op with
  | eq => decide (a = b)
  | ne => decide (a ≠ b)
  | slt => decide (a < b)
  | sle => decide (a ≤ b)
  | sgt => decide (b < a)
  | sge => decide (b ≤ a)
  | ult => decide (unsigned w a < unsigned w b)
  | ule => decide (unsigned w a ≤ unsigned w b)
  | ugt => decide (unsigned w b < unsigned w a)
  | uge => decide (unsigned w b ≤ unsigned w a)

end Brass.Mir

namespace Brass.Mir.ImpliedChecks

open Brass.Util

variable {op : Comparison} {w : Nat} {a b : Int}

/-! ## Comparisons as sets of orderings -/

def Order.compare : Order → Int → Int → Ordering
  | .unsigned => compareUnsigned
  | .signed | .either => Ord.compare

/-- The comparison at any width at which both numbers fit. -/
def Says (op : Comparison) (a b : Int) : Prop :=
  (predicateOf op).order.compare a b ∈ (predicateOf op).accepts

theorem mem_lt_eq {o : Ordering} : o ∈ ({.lt, .eq} : Finset Ordering) ↔ o ≠ .gt := by
  cases o <;> simp

theorem mem_gt_eq {o : Ordering} : o ∈ ({.gt, .eq} : Finset Ordering) ↔ o ≠ .lt := by
  cases o <;> simp

theorem mem_lt_gt {o : Ordering} : o ∈ ({.lt, .gt} : Finset Ordering) ↔ o ≠ .eq := by
  cases o <;> simp

theorem eval_eq_true_iff (ha : Fits w a) (hb : Fits w b) : op.eval w a b = true ↔ Says op a b := by
  have hu := ha.compare_unsigned hb
  unfold Says
  cases op <;>
    simp only [predicateOf, Order.compare, Comparison.eval, decide_eq_true_eq, ← hu,
      Finset.mem_singleton, mem_lt_eq, mem_gt_eq, mem_lt_gt, ne_eq, compare_eq_iff_eq,
      compare_lt_iff_lt, compare_gt_iff_gt, not_lt]

theorem eval_invert (op : Comparison) (w : Nat) (a b : Int) :
    op.invert.eval w a b = !op.eval w a b := by
  cases op <;>
    simp only [Comparison.invert, Comparison.eval, ← decide_not, not_lt, not_le, ne_eq, not_not]

theorem Order.compare_swap (o : Order) (a b : Int) : o.compare b a = (o.compare a b).swap := by
  have hsigned : Ord.compare b a = (Ord.compare a b).swap := Std.OrientedCmp.eq_swap
  cases o
  · exact hsigned
  · exact hsigned
  · exact compareUnsigned_swap

theorem Order.compare_eq_iff (o : Order) : o.compare a b = .eq ↔ a = b := by
  cases o
  · exact compare_eq_iff_eq
  · exact compare_eq_iff_eq
  · exact compareUnsigned_eq_iff

theorem Order.compare_of_nonneg (o : Order) (ha : 0 ≤ a) (hb : 0 ≤ b) :
    o.compare a b = Ord.compare a b := by
  cases o
  · rfl
  · rfl
  · exact compareUnsigned_of_nonneg ha hb

theorem mem_swapSides {accepts : Finset Ordering} {o : Ordering} :
    o.swap ∈ swapSides accepts ↔ o ∈ accepts := by
  unfold swapSides
  rw [Finset.mem_image]
  constructor
  · rintro ⟨o', h, heq⟩
    rwa [← Ordering.swap_inj.1 heq]
  · exact fun h => ⟨o, h, rfl⟩

/-- A comparison that says the same in both orders may be read in either. -/
theorem says_iff_of_either (h : (predicateOf op).order = .either) (o : Order) :
    Says op a b ↔ o.compare a b ∈ (predicateOf op).accepts := by
  have hiff : Order.either.compare a b = .eq ↔ o.compare a b = .eq :=
    (Order.compare_eq_iff _).trans (Order.compare_eq_iff _).symm
  unfold Says
  rw [h]
  cases op <;> simp only [predicateOf, reduceCtorEq] at h
  · simpa only [predicateOf, Finset.mem_singleton] using hiff
  · simpa only [predicateOf, mem_lt_gt] using not_congr hiff

theorem says_iff (o : Order)
    (h : (predicateOf op).order = .either ∨ (predicateOf op).order = o ∨ 0 ≤ a ∧ 0 ≤ b) :
    Says op a b ↔ o.compare a b ∈ (predicateOf op).accepts := by
  rcases h with h | h | ⟨ha, hb⟩
  · exact says_iff_of_either h o
  · rw [← h, Says]
  · rw [Says, Order.compare_of_nonneg _ ha hb, Order.compare_of_nonneg _ ha hb]

theorem decides_eq {allowed accepts : Finset Ordering} {o : Ordering} {r : Bool}
    (h : decides allowed accepts = some r) (ho : o ∈ allowed) : r = true ↔ o ∈ accepts := by
  unfold decides at h
  split_ifs at h with hsub hdis
  · cases h
    exact iff_of_true rfl (hsub ho)
  · cases h
    refine iff_of_false (by simp) fun hacc => ?_
    have := Finset.mem_inter.2 ⟨ho, hacc⟩
    rw [hdis] at this
    exact absurd this (Finset.notMem_empty _)

/-! ## States -/

/-- The operation on words of the width of its first operand; a shift counts modulo the width. -/
def evalBin (op : BinOp) (w : Nat) (a b : Int) : Int :=
  let count := (b % w).toNat
  match op with
  | .lshr => wrap w (unsigned w a / 2 ^ count)
  | .ashr => wrap w a / 2 ^ count
  | .shl => wrap w (a * 2 ^ count)
  | .add => wrap w (a + b)
  | .sub => wrap w (a - b)
  | .mul => wrap w (a * b)
  | .and => (BitVec.ofInt w a &&& BitVec.ofInt w b).toInt

def operands : Def → List Nat
  | .sext a | .zext a | .trunc a => [a]
  | .bin _ a b | .or a b | .cmp _ a b => [a, b]
  | .load base _ _ => [base]
  | .const _ | .patchable _ | .other => []

section State

variable (p : Values) (sc : Scope) (σ : Nat → Int) (known : Nat → Nat → Prop)

/-- What the verifier asks of the types of a definition, as far as the folder relies on it. -/
def WellTyped (v : Nat) : Prop :=
  match p.defn v with
  | .trunc _ => p.ty v = .i32
  | .bin _ a _ => p.ty a = p.ty v
  | .cmp _ a b => p.ty a = p.ty b
  | _ => True

/-- The value is what its definition computes. A load may give anything, and so may a patchable
constant. -/
def Meets (v : Nat) : Prop :=
  match p.defn v with
  | .const imm => σ v = imm
  | .sext a => σ v = σ a
  | .zext a => σ v = unsigned (p.ty a).width (σ a)
  | .trunc a => σ v = wrap 32 (σ a)
  | .bin op a b => σ v = evalBin op (p.ty v).width (σ a) (σ b)
  | .or a b => σ v = (BitVec.ofInt (p.ty v).width (σ a) ||| BitVec.ofInt (p.ty v).width (σ b)).toInt
  | .cmp op a b => σ v = if op.eval (p.ty a).width (σ a) (σ b) then 1 else 0
  | .load _ _ _ | .patchable _ | .other => True

/-- The values known at a block are what they are defined to be, and in their ranges there. -/
structure Realizes (b : Nat) : Prop where
  fits : ∀ v, known b v → Fits (p.ty v).width (σ v)
  typed : ∀ v, known b v → WellTyped p v
  meets : ∀ v, known b v → Meets p σ v
  closed : ∀ v, known b v → ∀ u ∈ operands (p.defn v), known b u
  inRange : ∀ v, known b v → (p.rangeAt v b).minVal ≤ σ v ∧ σ v ≤ (p.rangeAt v b).maxVal

/-- A comparison of operands whose canonical forms are the two values: both fit the width it was
made at, and a form that has left that width is not negative. -/
def FactHolds (f : Fact) : Prop :=
  ∃ w, Fits w (σ f.lhs) ∧ Fits w (σ f.rhs) ∧
    (σ f.lhs < 0 → (p.ty f.lhs).width = w) ∧ (σ f.rhs < 0 → (p.ty f.rhs).width = w) ∧
    f.op.eval w (σ f.lhs) (σ f.rhs) = true

structure ExprHolds (e : DomExpr) : Prop where
  typed : p.ty e.result = e.type
  eq : σ e.result = evalBin e.op e.type.width (σ e.op0) (σ e.op1)

/-- A block on the way to `bb`: what is known there is still known at `bb`. -/
structure Above (bb b : Nat) : Prop where
  realizes : Realizes p σ known b
  known : ∀ v, known b v → known bb v

/-- What is in scope at `bb` holds. -/
structure ScopeHolds (bb : Nat) : Prop where
  here : Realizes p σ known bb
  facts : ∀ f ∈ sc.facts, known bb f.lhs ∧ known bb f.rhs ∧ FactHolds p σ f
  loads : ∀ l ∈ sc.domLoads, Above p σ known bb (p.blockOf l) ∧ known (p.blockOf l) l
  exprs : ∀ e ∈ sc.domExprs, known bb e.op1 ∧ known bb e.result ∧ ExprHolds p σ e

/-- The patchable constants have not been patched. -/
def AtDefaults (bb : Nat) : Prop := ∀ v imm, known bb v → p.defn v = .patchable imm → σ v = imm

/-- Loads of one address that are taken for preserved have read the same. -/
def LoadsAgree (bb : Nat) : Prop :=
  ∀ l ∈ sc.domLoads, ∀ v, known bb v → ∀ base base' offset memTy,
    p.defn l = .load base offset memTy → p.defn v = .load base' offset memTy → p.ty l = p.ty v →
    σ base = σ base' → p.isLoadPreserved l v = true → σ l = σ v

/-- What a check is taken to be asked under. -/
structure Assumed (bb : Nat) : Prop extends ScopeHolds p sc σ known bb where
  defaults : AtDefaults p σ known bb
  loadsAgree : LoadsAgree p sc σ known bb

/-- The second value can stand for the first. -/
structure Same (bb u c : Nat) : Prop where
  known : known bb c
  eq : σ c = σ u
  ty : p.ty c = p.ty u ∨ 0 ≤ σ u

end State

variable {p : Values} {sc : Scope} {σ : Nat → Int} {known : Nat → Nat → Prop}
  {bb b u v c x y : Nat}

theorem Same.refl (h : known bb v) : Same p σ known bb v v := ⟨h, rfl, .inl rfl⟩

theorem Same.trans (h : Same p σ known bb u v) (h' : Same p σ known bb v c) :
    Same p σ known bb u c := by
  refine ⟨h'.known, h'.eq.trans h.eq, ?_⟩
  rcases h'.ty with ht | ht
  · rcases h.ty with hu | hu
    · exact .inl (ht.trans hu)
    · exact .inr hu
  · exact .inr (h.eq ▸ ht)

theorem Same.mono (hk : ∀ v, known b v → known bb v) (h : Same p σ known b u c) :
    Same p σ known bb u c :=
  ⟨hk c h.known, h.eq, h.ty⟩

theorem ScopeHolds.above (h : ScopeHolds p sc σ known bb) : Above p σ known bb bb :=
  ⟨h.here, fun _ => id⟩

theorem width_pos (t : Ty) : 0 < t.width := by
  cases t <;> simp [Ty.width]

/-! ## Canonical forms -/

theorem Realizes.nonneg (h : Realizes p σ known b) (hv : known b v)
    (hn : isNonNegative p v b = true) : 0 ≤ σ v := by
  unfold isNonNegative at hn
  simp only [Bool.and_eq_true, decide_eq_true_eq] at hn
  exact hn.2.trans (h.inRange v hv).1

theorem Realizes.extension (h : Realizes p σ known b) (hv : known b v)
    (hd : p.defn v = .sext u ∨ p.defn v = .zext u) (hn : isNonNegative p u b = true) :
    Same p σ known b v u := by
  have hu : known b u := h.closed v hv u (by rcases hd with hd | hd <;> simp [hd, operands])
  have hpos := h.nonneg hu hn
  have heq : σ v = σ u := by
    have hm := h.meets v hv
    unfold Meets at hm
    rcases hd with hd | hd <;> rw [hd] at hm
    · exact hm
    · exact hm.trans ((h.fits u hu).unsigned_of_nonneg hpos)
  exact ⟨hu, heq.symm, .inr (heq ▸ hpos)⟩

theorem Realizes.stripExtensions (h : Realizes p σ known b) (fuel : Nat) (hv : known b v) :
    Same p σ known b v (stripExtensions p b fuel v) := by
  induction fuel generalizing v with
  | zero => exact .refl hv
  | succ fuel ih =>
    rw [ImpliedChecks.stripExtensions]
    split
    · rename_i a hd
      split
      · rename_i hn
        have hsame := h.extension hv (.inl hd) hn
        exact hsame.trans (ih hsame.known)
      · exact .refl hv
    · rename_i a hd
      split
      · rename_i hn
        have hsame := h.extension hv (.inr hd) hn
        exact hsame.trans (ih hsame.known)
      · exact .refl hv
    · exact .refl hv

theorem getConstInt_eq (h : Realizes p σ known b) (hdef : AtDefaults p σ known b)
    (hv : known b v) {i : Int} (hc : getConstInt p v = some i) : σ v = i := by
  unfold getConstInt at hc
  have hm := h.meets v hv
  unfold Meets at hm
  split at hc
  · rename_i imm hd
    rw [hd] at hm
    exact hm.trans (Option.some.inj hc)
  · rename_i imm hd
    exact (hdef v imm hv hd).trans (Option.some.inj hc)
  · cases hc

theorem sameOperand_eq (h : Realizes p σ known bb) (hdef : AtDefaults p σ known bb)
    (hu : known bb u) (hv : known bb v) (hs : sameOperand p u v = true) : σ u = σ v := by
  unfold sameOperand at hs
  rcases Bool.or_eq_true_iff.1 hs with hs | hs
  · rw [eq_of_beq hs]
  · obtain ⟨hsome, heq⟩ := Bool.and_eq_true_iff.1 hs
    obtain ⟨i, hi⟩ := Option.isSome_iff_exists.1 hsome
    rw [getConstInt_eq h hdef hu ((eq_of_beq heq).trans hi), getConstInt_eq h hdef hv hi]

theorem Assumed.canonicalizeAt (h : Assumed p sc σ known bb) (depth : Nat)
    (ha : Above p σ known bb b) (hu : known b u) :
    Same p σ known bb u (canonicalizeAt p sc depth u b) := by
  induction depth generalizing u b with
  | zero => exact .refl (ha.known u hu)
  | succ depth ih =>
    have hs := ha.realizes.stripExtensions p.count hu
    have hv := hs.mono ha.known
    rw [ImpliedChecks.canonicalizeAt]
    generalize stripExtensions p b p.count u = v at hs hv ⊢
    dsimp only
    have hclosed := ha.realizes.closed v hs.known
    split
    · rename_i base offset memTy hd
      split
      · have hbase := ih ha (hclosed base (by simp [hd, operands]))
        refine hv.trans ?_
        rcases hfound : List.find? _ _ with _ | l
        · exact .refl hv.known
        -- The load that is found has the canonical base of this one.
        · have hmem := (List.takeWhile_sublist _).subset (List.mem_of_find?_eq_some hfound)
          obtain ⟨hdom, hbucket⟩ := List.mem_filter.1 hmem
          have hfits := List.find?_some hfound
          simp only [Bool.and_eq_true, decide_eq_true_eq] at hfits
          obtain ⟨hcanon, hpres⟩ := hfits
          obtain ⟨habove, hl⟩ := h.loads l hdom
          split at hbucket
          · rename_i lbase o m hld
            obtain ⟨rfl, rfl, hty⟩ := of_decide_eq_true hbucket
            have hlbase := ih habove (habove.realizes.closed l hl lbase (by simp [hld, operands]))
            have hlb : loadBase p l = lbase := by simp [loadBase, hld]
            rw [hlb] at hcanon
            have haddr : σ lbase = σ base := by
              rw [← hlbase.eq, ← hbase.eq]
              exact congrArg σ hcanon
            exact ⟨habove.known l hl,
              h.loadsAgree l hdom v hv.known lbase base o m hld hd hty haddr hpres, .inl hty⟩
          · cases hbucket
      · exact hv
    · rename_i op a b' hd
      have h0 := ih ha (hclosed a (by simp [hd, operands]))
      have h1 := ih ha (hclosed b' (by simp [hd, operands]))
      refine hv.trans ?_
      rcases hfound : List.find? _ _ with _ | e
      · exact .refl hv.known
      · obtain ⟨hop1, hres, he⟩ := h.exprs e (List.mem_of_find?_eq_some hfound)
        have hfits := List.find?_some hfound
        simp only [Bool.and_eq_true, decide_eq_true_eq] at hfits
        obtain ⟨⟨rfl, hty, hop0⟩, hsame⟩ := hfits
        have hm := ha.realizes.meets v hs.known
        unfold Meets at hm
        rw [hd] at hm
        refine ⟨hres, ?_, .inl (he.typed.trans hty)⟩
        rw [Option.map_some, Option.getD_some, hm, he.eq, hty, hop0, h0.eq,
          sameOperand_eq h.here h.defaults hop1 h1.known hsame, h1.eq]
    · exact hv

theorem Assumed.canonicalize (h : Assumed p sc σ known bb) (hv : known bb v) :
    Same p σ known bb v (canonicalize p sc v bb) :=
  h.canonicalizeAt 7 h.above hv

/-! ## Facts -/

variable {f : Fact} {r : Bool} {n s : Nat} {type : Ty} {i j : Int}

theorem FactHolds.ordering (h : FactHolds p σ f) : Says f.op (σ f.lhs) (σ f.rhs) := by
  obtain ⟨w, hl, hr, -, -, heval⟩ := h
  exact (eval_eq_true_iff hl hr).1 heval

theorem exists_order {known check : Comparison} {nn : Bool}
    (h : ¬ ((predicateOf known).order ≠ .either ∧ (predicateOf check).order ≠ .either ∧
      (predicateOf known).order ≠ (predicateOf check).order ∧ nn = false))
    (hnn : nn = true → 0 ≤ i ∧ 0 ≤ j) :
    ∃ o : Order, (Says known i j ↔ o.compare i j ∈ (predicateOf known).accepts) ∧
      (Says known j i ↔ o.compare j i ∈ (predicateOf known).accepts) ∧
      (Says check i j ↔ o.compare i j ∈ (predicateOf check).accepts) := by
  by_cases hk : (predicateOf known).order = .either
  · exact ⟨_, says_iff _ (.inl hk), says_iff _ (.inl hk), Iff.rfl⟩
  refine ⟨(predicateOf known).order, Iff.rfl, Iff.rfl, says_iff _ ?_⟩
  by_cases hc : (predicateOf check).order = .either
  · exact .inl hc
  by_cases heq : (predicateOf known).order = (predicateOf check).order
  · exact .inr (.inl heq.symm)
  · refine .inr (.inr (hnn ?_))
    by_contra hfalse
    exact h ⟨hk, hc, heq, Bool.not_eq_true _ ▸ hfalse⟩

theorem impliedBy_iff {nn : Bool} (hf : Says f.op (σ f.lhs) (σ f.rhs))
    (hnn : nn = true → 0 ≤ σ x ∧ 0 ≤ σ y) (h : impliedBy f op x y nn = some r) :
    r = true ↔ Says op (σ x) (σ y) := by
  unfold impliedBy at h
  dsimp only at h
  split at h
  · cases h
  · rename_i hcompat
    obtain ⟨o, hsame, hswap, hcheck⟩ := exists_order hcompat hnn
    obtain ⟨allowed, hallowed, hdec⟩ := Option.bind_eq_some_iff.1 h
    rw [hcheck]
    refine decides_eq hdec ?_
    split_ifs at hallowed with hxy hyx
    · obtain rfl := Option.some.inj hallowed
      obtain ⟨rfl, rfl⟩ := hxy
      exact hsame.1 hf
    · obtain rfl := Option.some.inj hallowed
      obtain ⟨rfl, rfl⟩ := hyx
      rw [o.compare_swap]
      exact mem_swapSides.2 (hswap.1 hf)

theorem says_ule : Says .ule i j ↔ compareUnsigned i j ≠ .gt := mem_lt_eq

theorem says_ult : Says .ult i j ↔ compareUnsigned i j = .lt := Finset.mem_singleton

theorem boundedBy_spec (h : ScopeHolds p sc σ known bb) (hf : f ∈ sc.facts) (hx : 0 ≤ σ x)
    {strict : Bool} (hb : boundedBy p op f x bb = some (n, strict)) :
    known bb n ∧ Says op (σ x) (σ n) ∧ (strict = true → Says .ult (σ x) (σ n)) ∧
      ∃ w, Fits w (σ x) ∧ (σ n < 0 → (p.ty n).width = w) := by
  obtain ⟨hl, hr, hholds⟩ := h.facts f hf
  have hsays := hholds.ordering
  obtain ⟨w, hfl, hfr, hwl, hwr, -⟩ := hholds
  unfold boundedBy at hb
  split_ifs at hb with h1 h2
  · obtain ⟨rfl, rfl⟩ := Prod.mk.inj (Option.some.inj hb)
    obtain ⟨rfl, himp⟩ := h1
    have hnn := fun hn => And.intro hx (h.here.nonneg hr hn)
    refine ⟨hr, (impliedBy_iff hsays hnn himp).1 rfl, fun hs => ?_, w, hfl, hwr⟩
    exact (impliedBy_iff hsays hnn (eq_of_beq hs)).1 rfl
  · obtain ⟨rfl, rfl⟩ := Prod.mk.inj (Option.some.inj hb)
    obtain ⟨rfl, himp⟩ := h2
    have hnn := fun hn => And.intro hx (h.here.nonneg hl hn)
    refine ⟨hl, (impliedBy_iff hsays hnn himp).1 rfl, fun hs => ?_, w, hfr, hwl⟩
    exact (impliedBy_iff hsays hnn (eq_of_beq hs)).1 rfl

/-! ## The direct rule and the transitive rule -/

theorem direct_iff (h : ScopeHolds p sc σ known bb) (hdef : AtDefaults p σ known bb)
    {rawY : Nat} (hraw : known bb rawY) (hy : σ y = σ rawY) {nn : Bool}
    (hnn : nn = true → 0 ≤ σ x ∧ 0 ≤ σ y) (hr : direct p sc op x y rawY nn = some r) :
    r = true ↔ Says op (σ x) (σ y) := by
  obtain ⟨f, hf, himp⟩ := List.exists_of_findSome?_eq_some hr
  obtain ⟨hl, hrhs, hholds⟩ := h.facts f (List.mem_reverse.1 hf)
  refine impliedBy_iff ?_ hnn himp
  unfold atConstant
  split_ifs with hc
  · obtain ⟨hsome, heq⟩ := hc
    obtain ⟨i, hi⟩ := Option.isSome_iff_exists.1 hsome
    have hval : σ f.rhs = σ y := by
      rw [getConstInt_eq h.here hdef hrhs (heq.trans hi), hy, getConstInt_eq h.here hdef hraw hi]
    exact hval ▸ hholds.ordering
  · exact hholds.ordering

theorem transitive_iff (h : ScopeHolds p sc σ known bb) (hx : 0 ≤ σ x) {yNonNeg : Bool}
    (hy : yNonNeg = true → 0 ≤ σ y) (hr : transitive p sc op x y yNonNeg bb = some r) :
    r = true ↔ compareUnsigned (σ x) (σ y) ∈ (predicateOf op).accepts := by
  obtain ⟨f1, hf1, hr⟩ := List.exists_of_findSome?_eq_some hr
  obtain ⟨⟨mid, strict1⟩, hmid, hr⟩ := Option.bind_eq_some_iff.1 hr
  obtain ⟨hknown, hle1, hlt1, -⟩ := boundedBy_spec h hf1 hx hmid
  obtain ⟨f2, hf2, hr⟩ := List.exists_of_findSome?_eq_some hr
  have hholds := (h.facts f2 hf2).2.2.ordering
  have hnn : (isNonNegative p mid bb && yNonNeg) = true → 0 ≤ σ mid ∧ 0 ≤ σ y := fun hn =>
    ⟨h.here.nonneg hknown (Bool.and_eq_true_iff.1 hn).1, hy (Bool.and_eq_true_iff.1 hn).2⟩
  dsimp only at hr
  split at hr
  case isFalse => cases hr
  rename_i himp
  have hle2 := says_ule.1 ((impliedBy_iff hholds hnn himp).1 rfl)
  rw [says_ule] at hle1
  rw [says_ult] at hlt1
  refine decides_eq hr ?_
  rw [compareUnsigned_ne_gt_iff] at hle1 hle2
  split_ifs with hstrict
  · rw [Finset.mem_singleton, compareUnsigned_lt_iff]
    rcases Bool.or_eq_true_iff.1 hstrict with hs | hs
    · have hlt := compareUnsigned_lt_iff.1 (hlt1 hs)
      omega
    · have hlt := says_ult.1 ((impliedBy_iff hholds hnn (eq_of_beq hs)).1 rfl)
      rw [compareUnsigned_lt_iff] at hlt
      omega
  · rw [mem_lt_eq, compareUnsigned_ne_gt_iff]
    omega

/-! ## Shifted values and length bounds -/

theorem width_of_isPtrOrInt (h : type.isPtrOrInt = true) : type = .i32 ∨ type.width = 64 := by
  cases type <;> simp [Ty.isPtrOrInt, Ty.width] at h ⊢

theorem count_of_small (t : Ty) {c : Int} (h0 : 0 ≤ c) (h4 : c ≤ 4) :
    (c % t.width).toNat = c.toNat := by
  have hw : (4 : Int) < t.width := by cases t <;> simp [Ty.width]
  rw [Int.emod_eq_of_lt h0 (by omega)]

section

variable (h : Assumed p sc σ known bb) (hv : known bb v)
include h hv

theorem matchShifted_spec (hm : matchShifted p sc v bb = some (u, s)) :
    known bb u ∧ s ≤ 4 ∧ σ v = wrap (p.ty v).width (σ u * 2 ^ s) := by
  have hdefn := h.here.meets v hv
  have hclosed := h.here.closed v hv
  unfold matchShifted at hm
  unfold Meets at hdefn
  split at hm
  · rename_i a b hd
    rw [hd] at hdefn hclosed
    obtain ⟨c, hc, hm⟩ := Option.bind_eq_some_iff.1 hm
    split_ifs at hm with hrange
    obtain ⟨rfl, rfl⟩ := Prod.mk.inj (Option.some.inj hm)
    have ha := h.canonicalize (hclosed a (by simp [operands]))
    have hb := getConstInt_eq h.here h.defaults (hclosed b (by simp [operands])) hc
    refine ⟨ha.known, by omega, ?_⟩
    rw [hdefn, evalBin, hb, count_of_small _ (by omega) hrange.2, ha.eq]
  · rename_i a b hd
    rw [hd] at hdefn hclosed
    obtain ⟨⟨idx, c⟩, hscaled, hm⟩ := Option.bind_eq_some_iff.1 hm
    -- One factor is the constant, the other one is scaled by it.
    have hprod : known bb idx ∧ σ v = wrap (p.ty v).width (σ idx * c) := by
      have hka := hclosed a (by simp [operands])
      have hkb := hclosed b (by simp [operands])
      rcases hcb : getConstInt p b with _ | cb
      · rw [hcb] at hscaled
        obtain ⟨ca, hca, heq⟩ := Option.map_eq_some_iff.1 hscaled
        obtain ⟨rfl, rfl⟩ := Prod.mk.inj heq
        refine ⟨hkb, ?_⟩
        rw [hdefn, evalBin, getConstInt_eq h.here h.defaults hka hca, mul_comm]
      · rw [hcb] at hscaled
        obtain ⟨rfl, rfl⟩ := Prod.mk.inj (Option.some.inj hscaled)
        refine ⟨hka, ?_⟩
        rw [hdefn, evalBin, getConstInt_eq h.here h.defaults hkb hcb]
    have hidx := h.canonicalize hprod.1
    dsimp only at hm
    split_ifs at hm <;>
      (obtain ⟨rfl, rfl⟩ := Prod.mk.inj (Option.some.inj hm)
       refine ⟨hidx.known, by omega, ?_⟩
       rw [hprod.2, hidx.eq]
       subst c
       rfl)
  · cases hm

theorem isScaled_spec (htype : type.isPtrOrInt = true)
    (hs : isScaled p sc v c s type bb = true) : 0 ≤ σ c ∧ σ v = σ c * 2 ^ s := by
  unfold isScaled at hs
  simp only [Bool.and_eq_true, decide_eq_true_eq, beq_iff_eq] at hs
  obtain ⟨⟨rfl, hm⟩, hshift⟩ := hs
  obtain ⟨hc, hs4, hval⟩ := matchShifted_spec h hv hm
  unfold canShiftWithoutOverflow at hshift
  simp only [Bool.and_eq_true, decide_eq_true_eq] at hshift
  obtain ⟨⟨-, hmin⟩, hmax⟩ := hshift
  obtain ⟨hlo, hhi⟩ := h.here.inRange c hc
  have hpow := two_pow_pos s
  have hmul : σ c * 2 ^ s ≤ if p.ty v = .i32 then 2 ^ 31 - 1 else int64Max :=
    (mul_le_mul_of_nonneg_right (hhi.trans hmax) hpow.le).trans (Int.ediv_mul_le _ hpow.ne')
  have hpos : 0 ≤ σ c * 2 ^ s := mul_nonneg (hmin.trans hlo) hpow.le
  refine ⟨hmin.trans hlo, hval.trans (wrap_of_fits ?_ (width_pos _))⟩
  unfold Fits
  rcases width_of_isPtrOrInt htype with ht | ht
  · rw [if_pos ht] at hmul
    rw [ht, Ty.width]
    omega
  · have hne : p.ty v ≠ .i32 := by
      intro heq
      rw [heq] at ht
      exact absurd ht (by simp [Ty.width])
    rw [if_neg hne, int64Max] at hmul
    rw [ht]
    omega

theorem isShiftOf_spec (hs4 : s ≤ 4) (hc : 0 ≤ σ c)
    (hs : isShiftOf p sc v c s type bb = true) : σ v = σ c / 2 ^ s := by
  have hdefn := h.here.meets v hv
  have hclosed := h.here.closed v hv
  have htyped := h.here.typed v hv
  unfold isShiftOf at hs
  unfold Meets at hdefn
  unfold WellTyped at htyped
  have hcount : ((s : Int) % (p.ty v).width).toNat = s := by
    rw [count_of_small _ (by omega) (by omega), Int.toNat_natCast]
  split at hs
  case h_3 => cases hs
  all_goals
    rename_i a b hd
    rw [hd] at hdefn hclosed htyped
    obtain ⟨-, hconst, hcanon⟩ := of_decide_eq_true hs
    have hka := hclosed a (by simp [operands])
    have hb := getConstInt_eq h.here h.defaults (hclosed b (by simp [operands])) hconst
    have ha : σ c = σ a := hcanon ▸ (h.canonicalize hka).eq
    have hfits : Fits (p.ty v).width (σ a) := htyped ▸ h.here.fits a hka
    have hdiv : σ a / 2 ^ s ≤ σ a := Int.ediv_le_self _ (ha ▸ hc)
    have hnn : 0 ≤ σ a / 2 ^ s := Int.ediv_nonneg (ha ▸ hc) (two_pow_pos s).le
    rw [hdefn, evalBin, hb, hcount, ha]
  · rw [hfits.unsigned_of_nonneg (ha ▸ hc)]
    refine wrap_of_fits ⟨?_, by linarith [hfits.2]⟩ (width_pos _)
    linarith [two_pow_pos (p.ty v).width]
  · rw [wrap_of_fits hfits (width_pos _)]

end

theorem stripLength_spec (h : Assumed p sc σ known bb) (fuel : Nat) (hv : known bb v) :
    Same p σ known bb v (stripLength p sc bb fuel v) := by
  induction fuel generalizing v with
  | zero => exact .refl hv
  | succ fuel ih =>
    have hnext : ∀ {a}, Same p σ known bb v a →
        Same p σ known bb v (stripLength p sc bb fuel (canonicalize p sc a bb)) := fun hsame =>
      (hsame.trans (h.canonicalize hsame.known)).trans (ih (h.canonicalize hsame.known).known)
    rw [stripLength]
    split
    · rename_i a hd
      split
      · rename_i hn
        exact hnext (h.here.extension hv (.inl hd) hn)
      · exact .refl hv
    · rename_i a hd
      split
      · rename_i hn
        exact hnext (h.here.extension hv (.inr hd) hn)
      · exact .refl hv
    · rename_i a hd
      dsimp only
      split
      · rename_i hn
        simp only [Bool.and_eq_true, decide_eq_true_eq] at hn
        have ha := h.here.closed v hv a (by simp [hd, operands])
        obtain ⟨hlo, hhi⟩ := h.here.inRange a ha
        have hval : σ v = wrap 32 (σ a) := by
          have hm := h.here.meets v hv
          unfold Meets at hm
          rwa [hd] at hm
        have heq : σ v = σ a :=
          hval.trans (wrap_of_fits (by unfold Fits; omega) (by omega))
        exact hnext ⟨ha, heq.symm, .inr (by omega)⟩
      · exact .refl hv
    · exact .refl hv

theorem wrap32_cases {q : Int} (hq : 0 ≤ q) :
    (0 ≤ wrap 32 q ∧ wrap 32 q ≤ q) ∨ (wrap 32 q < 0 ∧ 2 ^ 31 ≤ q) := by
  rw [wrap, Int.bmod_def]
  split <;> omega

/-- A length that the length bounds accept, for bytes that are not negative: so many elements
fit in the bytes. A length that is negative as a word of 32 bits counts from 2^31 on. -/
def LengthFits (p : Values) (σ : Nat → Int) (n s : Nat) (bytes : Int) : Prop :=
  (0 ≤ σ n ∧ σ n * 2 ^ s ≤ bytes) ∨ (σ n < 0 ∧ (p.ty n).width = 32 ∧ 2 ^ 31 * 2 ^ s ≤ bytes)

theorem isLengthBound_spec (h : Assumed p sc σ known bb) (hn : known bb n) (hy : known bb y) (hs4 : s ≤ 4)
    (htype : type.isPtrOrInt = true) (hpos : 0 ≤ σ y)
    (hb : isLengthBound p sc n y s type bb = true) : LengthFits p σ n s (σ y) := by
  have hcn := (h.canonicalize hn).trans (stripLength_spec h p.count (h.canonicalize hn).known)
  have hcbl := h.canonicalize hy
  unfold isLengthBound at hb
  dsimp only at hb
  generalize stripLength p sc bb p.count (canonicalize p sc n bb) = cn at hcn hb
  generalize canonicalize p sc y bb = cbl at hcbl hb
  have hcblPos : 0 ≤ σ cbl := hcbl.eq ▸ hpos
  have hpow := two_pow_pos s
  have hdiv : σ y / 2 ^ s * 2 ^ s ≤ σ y := Int.ediv_mul_le _ hpow.ne'
  have hquot : 0 ≤ σ y / 2 ^ s := Int.ediv_nonneg hpos hpow.le
  simp only [Bool.or_eq_true, List.any_eq_true] at hb
  rcases hb with ((htrunc | hshift) | hscaled) | ⟨f, hf, hfact⟩
  · unfold isTruncatedShiftOf at htrunc
    split at htrunc
    case h_2 => cases htrunc
    rename_i a hd
    split at htrunc
    case h_2 => cases htrunc
    rename_i inner b hda
    obtain ⟨-, hta, hconst, hcanon⟩ := of_decide_eq_true htrunc
    have hka : known bb a := h.here.closed cn hcn.known a (by simp [hd, operands])
    have ha : σ a = σ y / 2 ^ s := by
      rw [← hcbl.eq]
      refine isShiftOf_spec h hka hs4 hcblPos (?_ : isShiftOf p sc a cbl s .i64 bb = true)
      unfold isShiftOf
      rw [hda]
      exact decide_eq_true ⟨hta, hconst, hcanon⟩
    have hval : σ n = wrap 32 (σ y / 2 ^ s) := by
      have hm := h.here.meets cn hcn.known
      unfold Meets at hm
      rw [hd] at hm
      rw [← ha, ← hcn.eq]
      exact hm
    rcases wrap32_cases hquot with ⟨h0, hle⟩ | ⟨hneg, hge⟩
    · rw [← hval] at h0 hle
      exact .inl ⟨h0, (mul_le_mul_of_nonneg_right hle hpow.le).trans hdiv⟩
    · rw [← hval] at hneg
      refine .inr ⟨hneg, ?_, (mul_le_mul_of_nonneg_right hge hpow.le).trans hdiv⟩
      have htcn : p.ty cn = .i32 := by
        have ht := h.here.typed cn hcn.known
        unfold WellTyped at ht
        rwa [hd] at ht
      rcases hcn.ty with ht | ht
      · rw [← ht, htcn]
        rfl
      · omega
  · have heq := isShiftOf_spec h hcn.known hs4 hcblPos hshift
    rw [hcn.eq, hcbl.eq] at heq
    exact .inl ⟨heq ▸ hquot, heq ▸ hdiv⟩
  · obtain ⟨h0, heq⟩ := isScaled_spec h hcbl.known htype hscaled
    rw [hcn.eq] at h0 heq
    exact .inl ⟨h0, by rw [← heq, hcbl.eq]⟩
  · obtain ⟨hl, hr, hholds⟩ := h.facts f hf
    unfold isBoundFact at hfact
    simp only [Bool.or_eq_true, Bool.and_eq_true, beq_iff_eq] at hfact
    rcases hfact with ⟨hshift, himp⟩ | ⟨hscaled, himp⟩
    · have heq := isShiftOf_spec h hr hs4 hcblPos hshift
      have hle := (impliedBy_iff hholds.ordering (fun hnn =>
        ⟨h.here.nonneg hcn.known (Bool.and_eq_true_iff.1 hnn).1,
          h.here.nonneg hr (Bool.and_eq_true_iff.1 hnn).2⟩) himp).1 rfl
      rw [says_ule, compareUnsigned_ne_gt_iff, hcn.eq, heq, hcbl.eq] at hle
      have h0 : 0 ≤ σ n := by omega
      have hle' : σ n ≤ σ y / 2 ^ s := by omega
      exact .inl ⟨h0, (mul_le_mul_of_nonneg_right hle' hpow.le).trans hdiv⟩
    · obtain ⟨h0, heq⟩ := isScaled_spec h hl htype hscaled
      have hle := (impliedBy_iff hholds.ordering (fun hnn =>
        ⟨h.here.nonneg hl (Bool.and_eq_true_iff.1 hnn).1,
          h.here.nonneg hcbl.known (Bool.and_eq_true_iff.1 hnn).2⟩) himp).1 rfl
      rw [says_ule, compareUnsigned_ne_gt_iff, heq, hcn.eq, hcbl.eq] at hle
      rw [hcn.eq] at h0
      exact .inl ⟨h0, by omega⟩

theorem LengthFits.scaled_lt {bytes : Int} (h : LengthFits p σ n s bytes) (h0 : 0 ≤ i)
    (hlt : Says .ult i (σ n)) (hfits : ∃ w, Fits w i ∧ (σ n < 0 → (p.ty n).width = w)) :
    i * 2 ^ s < bytes := by
  have hpow := two_pow_pos s
  rcases h with ⟨hn, hle⟩ | ⟨hn, hwidth, hle⟩
  · rw [says_ult, compareUnsigned_lt_iff] at hlt
    have hin : i < σ n := by omega
    exact (mul_lt_mul_of_pos_right hin hpow).trans_le hle
  · obtain ⟨w, hfit, hw⟩ := hfits
    rw [← hw hn, hwidth] at hfit
    have hi : i < 2 ^ 31 := by
      have := hfit.2
      omega
    exact (mul_lt_mul_of_pos_right hi hpow).trans_le hle

theorem shifted_spec (h : Assumed p sc σ known bb) (hx : known bb x) (hy : known bb y)
    (htype : (p.ty x).isPtrOrInt = true) {yNonNeg : Bool}
    (hfits : Fits (p.ty x).width (σ y))
    (hr : shifted p sc op x y yNonNeg bb = some r) :
    (r = true ↔ .lt ∈ (predicateOf op).accepts) ∧ (0 ≤ σ y → 0 ≤ σ x ∧ σ x < σ y) := by
  obtain ⟨⟨idx, s⟩, hm, hr⟩ := Option.bind_eq_some_iff.1 hr
  obtain ⟨hidx, hs4, hval⟩ := matchShifted_spec h hx hm
  dsimp only at hr
  split at hr
  case isFalse => cases hr
  rename_i hnn
  have h0 := h.here.nonneg hidx hnn
  obtain ⟨f, hf, hr⟩ := List.exists_of_findSome?_eq_some hr
  obtain ⟨⟨n, strict⟩, hbound, hr⟩ := Option.bind_eq_some_iff.1 hr
  obtain ⟨hn, hlt, -, hw⟩ := boundedBy_spec h.toScopeHolds hf h0 hbound
  dsimp only at hr
  split at hr
  case isFalse => cases hr
  rename_i hlen
  split at hr
  · cases hr
  refine ⟨decides_eq hr (Finset.mem_singleton_self _), fun hpos => ?_⟩
  have hbelow := (isLengthBound_spec h hn hy hs4 htype hpos hlen).scaled_lt h0 hlt hw
  have hprod : 0 ≤ σ idx * 2 ^ s := mul_nonneg h0 (two_pow_pos s).le
  have hxval : σ x = σ idx * 2 ^ s := by
    refine hval.trans (wrap_of_fits ⟨?_, by linarith [hfits.2]⟩ (width_pos _))
    linarith [two_pow_pos (p.ty x).width]
  rw [hxval]
  exact ⟨hprod, hbelow⟩

/-! ## What comes into scope -/

theorem ScopeHolds.pushLoad (h : ScopeHolds p sc σ known bb) (hv : known bb v)
    (hb : p.blockOf v = bb) : ScopeHolds p (pushLoad sc v) σ known bb where
  here := h.here
  facts := h.facts
  exprs := h.exprs
  loads l hl := by
    rcases List.mem_append.1 hl with hl | hl
    · exact h.loads l hl
    · obtain rfl := List.mem_singleton.1 hl
      exact ⟨hb ▸ h.above, hb ▸ hv⟩

theorem Assumed.pushExpr (h : Assumed p sc σ known bb) (hv : known bb v) {e : BinOp} {a b : Nat}
    (hd : p.defn v = .bin e a b) : ScopeHolds p (pushExpr p sc e a b v bb) σ known bb where
  here := h.here
  facts := h.facts
  loads := h.loads
  exprs e' he' := by
    rcases List.mem_append.1 he' with he' | he'
    · exact h.exprs e' he'
    · obtain rfl := List.mem_singleton.1 he'
      have hclosed := h.here.closed v hv
      rw [hd] at hclosed
      have ha := h.canonicalize (hclosed a (by simp [operands]))
      have hb := h.canonicalize (hclosed b (by simp [operands]))
      have hm := h.here.meets v hv
      unfold Meets at hm
      rw [hd] at hm
      refine ⟨hb.known, hv, rfl, ?_⟩
      dsimp only
      rw [hm, ha.eq, hb.eq]

/-- A condition is known to be true when it is not zero, and to be false when its low byte is:
that is all that is left of a wider operand of a disjunction. -/
def Truth (onTrue : Bool) (i : Int) : Prop :=
  if onTrue then i ≠ 0 else BitVec.ofInt 8 i = 0

theorem low_or {x y : BitVec w} (hw : 8 ≤ w) :
    BitVec.ofInt 8 (x ||| y).toInt = x.setWidth 8 ||| y.setWidth 8 := by
  rw [← BitVec.signExtend, BitVec.signExtend_eq_setWidth_of_le _ hw, BitVec.setWidth_or]

theorem low_ofInt (hw : 8 ≤ w) (i : Int) : (BitVec.ofInt w i).setWidth 8 = BitVec.ofInt 8 i := by
  have hdvd : ((2 ^ 8 : Nat) : Int) ∣ (2 ^ w : Nat) := by
    exact_mod_cast Nat.pow_dvd_pow 2 hw
  refine BitVec.eq_of_toNat_eq (Int.ofNat.inj ?_)
  rw [BitVec.toNat_setWidth, BitVec.toNat_ofInt, BitVec.toNat_ofInt]
  simp only [Int.ofNat_eq_natCast, Int.natCast_emod]
  rw [Int.toNat_of_nonneg (Int.emod_nonneg _ (by positivity)),
    Int.toNat_of_nonneg (Int.emod_nonneg _ (by positivity)), Int.emod_emod_of_dvd _ hdvd]

theorem edgeFacts_hold (h : Assumed p sc σ known bb) {onTrue : Bool} (fuel : Nat) (hv : known bb v)
    (ht : Truth onTrue (σ v)) :
    ∀ f ∈ edgeFacts p sc onTrue bb fuel v, known bb f.lhs ∧ known bb f.rhs ∧ FactHolds p σ f := by
  induction fuel generalizing v with
  | zero => simp [edgeFacts]
  | succ fuel ih =>
    have hm := h.here.meets v hv
    have hclosed := h.here.closed v hv
    have htyped := h.here.typed v hv
    unfold Meets at hm
    unfold WellTyped at htyped
    rw [edgeFacts]
    rcases hcmp : isIntComparison p v with _ | ⟨op, a, b⟩
    · have hboth : ∀ {a b}, a ∈ operands (p.defn v) → b ∈ operands (p.defn v) →
          Truth onTrue (σ a) ∧ Truth onTrue (σ b) →
          ∀ f ∈ edgeFacts p sc onTrue bb fuel a ++ edgeFacts p sc onTrue bb fuel b,
            known bb f.lhs ∧ known bb f.rhs ∧ FactHolds p σ f := fun ha hb ht f hf =>
        (List.mem_append.1 hf).elim (ih (hclosed _ ha) ht.1 f) (ih (hclosed _ hb) ht.2 f)
      dsimp only
      split
      · rename_i a b hd
        rw [hd] at hm hboth
        split
        · rename_i htrue
          obtain ⟨rfl, -⟩ := Bool.and_eq_true_iff.1 htrue
          -- A conjunction that is not zero has no zero operand.
          refine hboth (by simp [operands]) (by simp [operands]) ?_
          rw [Truth, if_pos rfl, hm, evalBin] at ht
          constructor <;> (intro h0; simp [h0] at ht)
        · simp
      · rename_i a b hd
        rw [hd] at hm hboth
        split
        · simp
        · rename_i hfalse
          obtain rfl := Bool.not_eq_true _ ▸ hfalse
          have hw : 8 ≤ (p.ty v).width := by cases p.ty v <;> simp [Ty.width]
          rw [Truth, if_neg (by simp), hm, low_or hw, low_ofInt hw, low_ofInt hw] at ht
          exact hboth (by simp [operands]) (by simp [operands]) (BitVec.or_eq_zero_iff.1 ht)
      · simp
    · unfold isIntComparison at hcmp
      split at hcmp
      case h_2 => cases hcmp
      rename_i op' a' b' hd
      split at hcmp
      case isFalse => cases hcmp
      obtain ⟨rfl, rfl, rfl⟩ := by simpa using hcmp
      rw [hd] at hm hclosed htyped
      have hka := hclosed a' (by simp [operands])
      have hkb := hclosed b' (by simp [operands])
      have ha := h.canonicalize hka
      have hb := h.canonicalize hkb
      intro f hf
      obtain rfl := List.mem_singleton.1 hf
      refine ⟨ha.known, hb.known, (p.ty a').width, ?_, ?_, fun hneg => ?_, fun hneg => ?_, ?_⟩
      · exact ha.eq ▸ h.here.fits a' hka
      · exact hb.eq ▸ htyped ▸ h.here.fits b' hkb
      · rw [ha.ty.resolve_right (by rw [← ha.eq]; exact hneg.not_ge)]
      · rw [hb.ty.resolve_right (by rw [← hb.eq]; exact hneg.not_ge), htyped]
      · dsimp only
        rw [ha.eq, hb.eq]
        unfold Truth at ht
        cases onTrue <;> rcases heval : op'.eval (p.ty a').width (σ a') (σ b') <;>
          simp [hm, heval, eval_invert] at ht ⊢

/-- What the folder does with its scope on the way down the dominator tree. -/
inductive Walked (p : Values) (σ : Nat → Int) (known : Nat → Nat → Prop) : Nat → Scope → Prop
  | start {bb : Nat} (hr : Realizes p σ known bb) : Walked p σ known bb {}
  | enter {b bb : Nat} {sc : Scope} (h : Walked p σ known b sc) (hr : Realizes p σ known bb)
      (hkept : ∀ v, known b v → known bb v) : Walked p σ known bb sc
  | load {bb v : Nat} {sc : Scope} (h : Walked p σ known bb sc) (hv : known bb v)
      (hb : p.blockOf v = bb) : Walked p σ known bb (pushLoad sc v)
  | expr {bb v a b : Nat} {e : BinOp} {sc : Scope} (h : Walked p σ known bb sc) (hv : known bb v)
      (hd : p.defn v = .bin e a b) : Walked p σ known bb (pushExpr p sc e a b v bb)
  | branch {bb v : Nat} {onTrue : Bool} {sc : Scope} (h : Walked p σ known bb sc)
      (hv : known bb v) (ht : onTrue = true ↔ σ v ≠ 0) :
      Walked p σ known bb (collectEdgeFacts p sc v onTrue bb)

variable {rawX rawY : Nat}

theorem operandNonNeg_nonneg (h : Assumed p sc σ known bb) (hv : known bb v)
    (hn : operandNonNeg p sc v bb = true) : 0 ≤ σ v := by
  rcases Bool.or_eq_true_iff.1 hn with hn | hn
  · exact h.here.nonneg hv hn
  · have hc := h.canonicalize hv
    exact hc.eq ▸ h.here.nonneg hc.known hn

theorem rightOperand_spec (h : Assumed p sc σ known bb) (hv : known bb v) :
    known bb (rightOperand p sc v bb) ∧ σ (rightOperand p sc v bb) = σ v := by
  unfold rightOperand
  split
  · exact ⟨hv, rfl⟩
  · exact ⟨(h.canonicalize hv).known, (h.canonicalize hv).eq⟩

def FactDecides (p : Values) (sc : Scope) (op : Comparison) (rawX rawY bb : Nat) : Prop :=
  ∃ f ∈ sc.facts, (impliedBy (atConstant p rawY (rightOperand p sc rawY bb) f) op
    (canonicalize p sc rawX bb) (rightOperand p sc rawY bb)
    (operandNonNeg p sc rawX bb && operandNonNeg p sc rawY bb)).isSome = true

theorem factDecides_iff : FactDecides p sc op rawX rawY bb ↔
    (checkDirect p sc op rawX rawY bb).isSome = true := by
  unfold checkDirect direct FactDecides
  rw [List.findSome?_isSome_iff]
  simp only [List.mem_reverse]

theorem lt_mem_iff_of_signed (h : (predicateOf op).order = .signed) :
    .lt ∈ (predicateOf op).accepts ↔ .gt ∉ (predicateOf op).accepts := by
  cases op <;> simp [predicateOf] at h ⊢

/-- An answer that goes by the unsigned order, for a left operand that is not negative: it is
right unless the check is signed and the right operand negative. -/
theorem unsigned_answer_iff (ha : Fits w i) (hb : Fits w j) (h0 : 0 ≤ i)
    (hr : r = true ↔ compareUnsigned i j ∈ (predicateOf op).accepts) :
    op.eval w i j = r ↔ (predicateOf op).order ≠ .signed ∨ 0 ≤ j := by
  rw [Bool.eq_iff_iff, eval_eq_true_iff ha hb, hr]
  by_cases hs : (predicateOf op).order = .signed
  · rcases lt_or_ge j 0 with hj | hj
    · refine iff_of_false (fun hiff => ?_) (by simp [hs, hj])
      have hu : compareUnsigned i j = .lt := compareUnsigned_lt_iff.2 (.inl ⟨h0, hj⟩)
      have hc : Ord.compare i j = .gt := compare_gt_iff_gt.2 (by omega)
      rw [hu, lt_mem_iff_of_signed hs, Says, hs, Order.compare, hc] at hiff
      exact iff_not_self hiff
    · exact iff_of_true (says_iff .unsigned (.inr (.inr ⟨h0, hj⟩))) (.inr hj)
  · refine iff_of_true (says_iff .unsigned ?_) (.inl hs)
    rcases ho : (predicateOf op).order
    · exact .inl rfl
    · exact absurd ho hs
    · exact .inr (.inl rfl)

/-- When the folder's answer may be trusted: a fact about the two operands gives it, or the left
operand is not negative and neither is the right one if the check is signed. -/
def Trusted (p : Values) (sc : Scope) (σ : Nat → Int) (op : Comparison) (rawX rawY bb : Nat) :
    Prop :=
  FactDecides p sc op rawX rawY bb ∨
    (0 ≤ σ rawX ∧ ((predicateOf op).order ≠ .signed ∨ 0 ≤ σ rawY))

section Sample

/-- Zero, and two numbers of 32 bits. -/
def zeroMiddleEnd : Values where
  ty _ := .i32
  defn v := if v = 0 then .const 0 else .other
  blockOf _ := 0
  count := 3
  rangeAt v _ := if v = 0 then .constant 0 else .fullI32
  isLoadPreserved _ _ := false

def zeroBelowMiddle : Fact := ⟨.ult, 0, 1, none⟩

def middleBelowEnd : Fact := ⟨.ult, 1, 2, none⟩

def belowEnd : Scope := { facts := [zeroBelowMiddle, middleBelowEnd] }

/-- The end is all ones: the greatest number without sign, and minus one. -/
def allOnes (v : Nat) : Int := if v = 0 then 0 else if v = 1 then 1 else -1

theorem scopeHolds_belowEnd : ScopeHolds zeroMiddleEnd belowEnd allOnes (fun _ v => v < 3) 0 where
  here := {
    fits := by
      intro v hv
      interval_cases v <;> decide
    typed := by
      intro v hv
      interval_cases v <;> trivial
    meets := by
      intro v hv
      interval_cases v <;> trivial
    closed := by
      intro v hv
      interval_cases v <;> simp [zeroMiddleEnd, operands]
    inRange := by
      intro v hv
      interval_cases v <;> decide }
  facts := by
    intro f hf
    rcases List.mem_cons.1 hf with rfl | hf
    · exact ⟨by decide, by decide, 32, by decide⟩
    · obtain rfl := List.mem_singleton.1 hf
      exact ⟨by decide, by decide, 32, by decide⟩
  loads := by simp [belowEnd]
  exprs := by simp [belowEnd]

theorem atDefaults_zeroMiddleEnd : AtDefaults zeroMiddleEnd allOnes (fun _ v => v < 3) 0 := by
  intro v imm hv
  interval_cases v <;> simp [zeroMiddleEnd]

theorem loadsAgree_belowEnd : LoadsAgree zeroMiddleEnd belowEnd allOnes (fun _ v => v < 3) 0 := by
  intro l hl
  simp [belowEnd] at hl

end Sample

end Brass.Mir.ImpliedChecks
