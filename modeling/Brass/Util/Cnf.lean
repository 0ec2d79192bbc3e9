import Mathlib.Data.List.Basic

/-!
# Literals and clauses

A literal is a variable with a sign; `Lit.code` is its number in the usual packing, the
variable shifted left by one with the sign in the lowest bit. A clause is a list of
literals, and `Implies` is semantic consequence. Clause learning rests on two rules:
weakening (`Implies.mono`) and dropping literals that are false in every model
(`Implies.resolve_false`).
-/

namespace Brass.Util.Cnf

variable {α : Nat → Bool}

structure Lit where
  var : Nat
  sign : Bool
  deriving DecidableEq, Repr

namespace Lit

variable {a b : Lit}

def code (l : Lit) : Nat := 2 * l.var + l.sign.toNat

def neg (l : Lit) : Lit := ⟨l.var, !l.sign⟩

@[simp] theorem neg_neg (l : Lit) : l.neg.neg = l := by simp [neg]

@[simp] theorem var_neg (l : Lit) : l.neg.var = l.var := rfl

@[simp] theorem sign_neg (l : Lit) : l.neg.sign = !l.sign := rfl

theorem neg_inj : a.neg = b.neg ↔ a = b := by
  constructor
  · intro h
    rw [← neg_neg a, h, neg_neg]
  · rintro rfl
    rfl

theorem neg_eq_iff : a.neg = b ↔ a = b.neg := by
  rw [← neg_inj, neg_neg]

theorem ext' (hv : a.var = b.var) (hs : a.sign = b.sign) : a = b := by
  cases a
  cases b
  cases hv
  cases hs
  rfl

theorem eq_or_eq_neg (h : a.var = b.var) : a = b ∨ a = b.neg := by
  by_cases hs : a.sign = b.sign
  · exact Or.inl (ext' h hs)
  · refine Or.inr (ext' h ?_)
    rw [sign_neg]
    cases ha : a.sign <;> cases hb : b.sign <;> simp_all

theorem code_inj : a.code = b.code ↔ a = b := by
  constructor
  · intro h
    cases ha : a.sign <;> cases hb : b.sign <;> simp only [code, ha, hb, Bool.toNat_true,
      Bool.toNat_false] at h
    · exact ext' (by omega) (by rw [ha, hb])
    · omega
    · omega
    · exact ext' (by omega) (by rw [ha, hb])
  · rintro rfl
    rfl

end Lit

/-! ## Assignments -/

def litTrue (α : Nat → Bool) (l : Lit) : Bool := α l.var ^^ l.sign

@[simp] theorem litTrue_neg (α : Nat → Bool) (l : Lit) : litTrue α l.neg = !litTrue α l := by
  simp [litTrue]

@[simp] theorem litTrue_pos (α : Nat → Bool) (v : Nat) : litTrue α ⟨v, false⟩ = α v := by
  simp [litTrue]

@[simp] theorem litTrue_negated (α : Nat → Bool) (v : Nat) : litTrue α ⟨v, true⟩ = !α v := by
  simp [litTrue]

theorem litTrue_congr {β : Nat → Bool} {l : Lit} (h : α l.var = β l.var) :
    litTrue α l = litTrue β l := by simp [litTrue, h]

def Satisfies (α : Nat → Bool) (c : List Lit) : Prop := ∃ l ∈ c, litTrue α l = true

def Models (F : List (List Lit)) (α : Nat → Bool) : Prop := ∀ c ∈ F, Satisfies α c

/-- Every model of `F` satisfies the clause. -/
def Implies (F : List (List Lit)) (c : List Lit) : Prop := ∀ α, Models F α → Satisfies α c

theorem satisfies_singleton {l : Lit} : Satisfies α [l] ↔ litTrue α l = true := by simp [Satisfies]

variable {c d : List Lit}

theorem Satisfies.mono (h : Satisfies α c) (hcd : ∀ l ∈ c, l ∈ d) : Satisfies α d := by
  obtain ⟨l, hl, ht⟩ := h
  exact ⟨l, hcd l hl, ht⟩

variable {F : List (List Lit)}

theorem Implies.mono (h : Implies F c) (hcd : ∀ l ∈ c, l ∈ d) :
    Implies F d := fun α hα => (h α hα).mono hcd

theorem Implies.weaken {G : List (List Lit)} (h : Implies F c) (hFG : ∀ d ∈ F, d ∈ G) :
    Implies G c := fun α hα => h α (fun d hd => hα d (hFG d hd))

theorem implies_of_mem (h : c ∈ F) : Implies F c :=
  fun _ hα => hα c h

theorem Implies.resolve_false (h : Implies F c) (hcd : ∀ l ∈ c, l ∈ d ∨ Implies F [l.neg]) :
    Implies F d := by
  intro α hα
  obtain ⟨l, hl, ht⟩ := h α hα
  rcases hcd l hl with hd | hneg
  · exact ⟨l, hd, ht⟩
  · have := satisfies_singleton.mp (hneg α hα)
    rw [litTrue_neg, ht] at this
    cases this

end Brass.Util.Cnf
