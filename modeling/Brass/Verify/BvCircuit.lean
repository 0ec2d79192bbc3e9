import Brass.Verify.BvBlast
import Brass.Verify.CdclIncremental

/-!
# Circuits mean what they compute

Under a fixed assignment `β` of the SAT variables, `Means β s l b` says that the literal `l`
has the value `b` if `β` is a model of the clauses of `s`, and `Word β s ls x` that the
literals `ls` are the bits of `x`. `Runs p s Q` says that the circuit `p`, started in `s`,
returns, adds nothing that a model of `s` could violate, and that its result satisfies `Q`.
-/

namespace Brass.Verify.Bv

open Brass.Util.Cnf Brass.Verify.Cdcl

variable {D : Doubles} {s t u : Solver D} {β : Nat → Bool} {α γ : Type}

structure Means (β : Nat → Bool) (s : Solver D) (l : Lit) (b : Bool) : Prop where
  range : l.var < s.nVars
  value : s.Model β → litTrue β l = b

structure Word {w : Nat} (β : Nat → Bool) (s : Solver D) (ls : List Lit) (x : BitVec w) : Prop where
  length : ls.length = w
  bit : ∀ i, Means β s (bitAt ls i) (x.getLsbD i)

def Runs (p : Circuit D α) (s : Solver D) (Q : α → Solver D → Prop) : Prop :=
  ∃ a t, p s = some (a, t) ∧ t.Gates ∧ s.Conservative t ∧ Q a t

/-! ## Literals -/

section Literals

variable {l : Lit} {b : Bool}

theorem Means.mono (h : Means β s l b) (ht : s.Conservative t) : Means β t l b :=
  ⟨Nat.lt_of_lt_of_le h.range ht.nVars, fun hβ => h.value (ht.model hβ)⟩

theorem Means.neg (h : Means β s l b) : Means β s l.neg (!b) :=
  ⟨h.range, fun hβ => by rw [litTrue_neg, h.value hβ]⟩

theorem means_false (hs : s.Gates) : Means β s falseLit false := by
  refine ⟨hs.pos, fun hβ => ?_⟩
  rw [falseLit, litTrue_pos]
  exact hs.inv.zero_false hβ.2

theorem means_true (hs : s.Gates) : Means β s trueLit true := (means_false hs).neg

theorem means_const (hs : s.Gates) (b : Bool) : Means β s (constLit b) b := by
  cases b with
  | false => exact means_false hs
  | true => exact means_true hs

theorem Means.of_false (hs : s.Gates) (h : Means β s falseLit b) (hβ : s.Model β) : b = false := by
  rw [← h.value hβ, (means_false hs).value hβ]

end Literals

/-! ## Words -/

section Words

variable {w : Nat} {x : BitVec w} {ls : List Lit}

theorem Word.mono (h : Word β s ls x) (ht : s.Conservative t) : Word β t ls x :=
  ⟨h.length, fun i => (h.bit i).mono ht⟩

theorem bitAt_of_ge {i : Nat} (h : ls.length ≤ i) : bitAt ls i = falseLit := by
  rw [bitAt, List.getD_eq_getElem?_getD, List.getElem?_eq_none h]
  rfl

theorem word_of_lt (hs : s.Gates) (hlen : ls.length = w)
    (h : ∀ i < w, Means β s (bitAt ls i) (x.getLsbD i)) : Word β s ls x := by
  refine ⟨hlen, fun i => ?_⟩
  by_cases hi : i < w
  · exact h i hi
  · rw [bitAt_of_ge (by omega), BitVec.getLsbD_of_ge x i (by omega)]
    exact means_false hs

theorem bitAt_map_range {f : Nat → Lit} {n i : Nat} (h : i < n) :
    bitAt ((List.range n).map f) i = f i := by
  simp [bitAt, h]

theorem word_map (hs : s.Gates) {f : Nat → Lit} (h : ∀ i < w, Means β s (f i) (x.getLsbD i)) :
    Word β s ((List.range w).map f) x := by
  refine word_of_lt hs (by simp) (fun i hi => ?_)
  rw [bitAt_map_range hi]
  exact h i hi

theorem bitAt_zeros (w i : Nat) : bitAt (zeros w) i = falseLit := by
  by_cases h : i < w
  · simp [bitAt, zeros, h]
  · exact bitAt_of_ge (by simp [zeros]; omega)

theorem word_zeros (hs : s.Gates) (w : Nat) : Word β s (zeros w) (0#w) := by
  refine ⟨by simp [zeros], fun i => ?_⟩
  rw [bitAt_zeros, BitVec.getLsbD_zero]
  exact means_false hs

theorem word_constBits (hs : s.Gates) (w v : Nat) : Word β s (constBits w v) (BitVec.ofNat w v) := by
  refine word_map hs (fun i hi => ?_)
  rw [BitVec.getLsbD_ofNat, decide_eq_true hi, Bool.true_and]
  exact means_const hs _

theorem Word.not (h : Word β s ls x) (hs : s.Gates) : Word β s (notBits ls w) (~~~x) := by
  refine word_map hs (fun i hi => ?_)
  rw [BitVec.getLsbD_not, decide_eq_true hi, Bool.true_and]
  exact (h.bit i).neg

theorem bitAt_set {i j : Nat} {l : Lit} (hi : i < ls.length) :
    bitAt (ls.set i l) j = if i = j then l else bitAt ls j := by
  unfold bitAt
  rw [List.getD_eq_getElem?_getD, List.getElem?_set, List.getD_eq_getElem?_getD]
  by_cases h : i = j
  · subst h
    simp [hi]
  · simp [h]

theorem bitAt_append_left {l : Lit} {i : Nat} (h : i < ls.length) :
    bitAt (ls ++ [l]) i = bitAt ls i := by
  simp [bitAt, List.getD_eq_getElem?_getD, List.getElem?_append_left h]

theorem bitAt_append_length (ls : List Lit) (l : Lit) : bitAt (ls ++ [l]) ls.length = l := by
  simp [bitAt]

theorem word_flag (hs : s.Gates) {l : Lit} {b : Bool} (h : Means β s l b) :
    Word β s ((zeros 1).set 0 l) (BitVec.ofBool b) := by
  refine word_of_lt hs (by simp [zeros]) (fun i hi => ?_)
  obtain rfl : i = 0 := by omega
  rw [bitAt_set (by simp [zeros]), if_pos rfl]
  simpa using h

end Words

/-! ## The rules -/

section Rules

variable {p : Circuit D α} {f : α → Circuit D γ} {P P' : α → Solver D → Prop}
  {Q : γ → Solver D → Prop}

theorem runs_pure {a : α} (hs : s.Gates) (h : P a s) : Runs (pure a) s P :=
  ⟨a, s, rfl, hs, Solver.Conservative.refl s, h⟩

theorem runs_bind (hp : Runs p s P)
    (hf : ∀ a t, t.Gates → s.Conservative t → P a t → Runs (f a) t Q) : Runs (p >>= f) s Q := by
  obtain ⟨a, t, hrun, ht, hst, ha⟩ := hp
  obtain ⟨b, u, hrun', hu, htu, hb⟩ := hf a t ht hst ha
  refine ⟨b, u, ?_, hu, hst.trans htu, hb⟩
  show (p s).bind (fun r => f r.1 r.2) = some (b, u)
  rw [hrun]
  exact hrun'

theorem Runs.mono (h : Runs p s P)
    (hP : ∀ a t, t.Gates → s.Conservative t → P a t → P' a t) : Runs p s P' := by
  obtain ⟨a, t, hrun, ht, hst, ha⟩ := h
  exact ⟨a, t, hrun, ht, hst, hP a t ht hst ha⟩

theorem runs_gate {x : Option (Lit × Solver D)} {g : (Nat → Bool) → Bool} {p : Circuit D Lit}
    (hp : p s = x) (h : ∃ r, x = some r ∧ s.Built g r) :
    Runs p s (fun l t => Means β t l (g β)) := by
  obtain ⟨r, hr, hb⟩ := h
  exact ⟨r.1, r.2, hp.trans hr, hb.gates, hb.conservative, hb.range, hb.value β⟩

theorem Runs.gate {p : Circuit D Lit} {b b' : Bool}
    (h : Runs p s (fun l t => Means β t l b)) (hb : s.Model β → b = b') :
    Runs p s (fun l t => Means β t l b') :=
  h.mono (fun _ _ _ hst hl => ⟨hl.range, fun hβ => (hl.value hβ).trans (hb (hst.model hβ))⟩)

variable {a b c : Lit} {x y z : Bool}

section

variable (hs : s.Gates) (ha : Means β s a x) (hb : Means β s b y)
include hs ha hb

theorem runs_mkAnd : Runs (Circuit.mkAnd a b) s (fun l t => Means β t l (x && y)) :=
  (runs_gate rfl (hs.mkAnd ha.range hb.range)).gate (fun hβ => by rw [ha.value hβ, hb.value hβ])

theorem runs_mkOr : Runs (Circuit.mkOr a b) s (fun l t => Means β t l (x || y)) :=
  (runs_gate rfl (hs.mkOr ha.range hb.range)).gate (fun hβ => by rw [ha.value hβ, hb.value hβ])

theorem runs_mkXor : Runs (Circuit.mkXor a b) s (fun l t => Means β t l (x ^^ y)) :=
  (runs_gate rfl (hs.mkXor ha.range hb.range)).gate (fun hβ => by rw [ha.value hβ, hb.value hβ])

end

theorem runs_mkIte (hs : s.Gates) (hc : Means β s c z) (ha : Means β s a x) (hb : Means β s b y) :
    Runs (Circuit.mkIte c a b) s (fun l t => Means β t l (bif z then x else y)) :=
  (runs_gate rfl (hs.mkIte hc.range ha.range hb.range)).gate
    (fun hβ => by rw [hc.value hβ, ha.value hβ, hb.value hβ])

theorem runs_loop {f : Nat → α → Circuit D α} (Inv : Nat → α → Solver D → Prop) {n : Nat} {acc : α}
    (hs : s.Gates) (h0 : Inv 0 acc s)
    (hstep : ∀ i acc t, i < n → t.Gates → s.Conservative t → Inv i acc t →
      Runs (f i acc) t (Inv (i + 1))) : Runs (Circuit.loop f n acc) s (Inv n) := by
  induction n with
  | zero => exact runs_pure hs h0
  | succ n ih =>
    have hrec := ih (fun i acc t hi => hstep i acc t (by omega))
    exact runs_bind hrec (fun acc t ht hst hinv => hstep n acc t (by omega) ht hst hinv)

theorem runs_build {w : Nat} {f : Nat → Circuit D Lit} {x : BitVec w} (hs : s.Gates)
    (h : ∀ i t, i < w → t.Gates → s.Conservative t →
      Runs (f i) t (fun l u => Means β u l (x.getLsbD i))) :
    Runs (Circuit.build f w) s (fun ls t => Word β t ls x) := by
  have hloop : Runs (Circuit.build f w) s (fun ls t => ls.length = w ∧
      ∀ j < w, Means β t (bitAt ls j) (x.getLsbD j)) := by
    refine runs_loop (fun i ls t => ls.length = i ∧
      ∀ j < i, Means β t (bitAt ls j) (x.getLsbD j)) hs ⟨List.length_nil, by simp⟩
      (fun i ls t hi ht hst hinv => ?_)
    refine runs_bind (h i t hi ht hst) (fun l u hu htu hl => runs_pure hu ?_)
    obtain ⟨hlen, hbits⟩ := hinv
    refine ⟨by simp [hlen], fun j hj => ?_⟩
    by_cases hji : j < i
    · rw [bitAt_append_left (by omega)]
      exact (hbits j hji).mono htu
    · obtain rfl : j = ls.length := by omega
      rw [bitAt_append_length]
      rwa [hlen]
  exact hloop.mono (fun ls t ht _ hinv => word_of_lt ht hinv.1 hinv.2)

end Rules

end Brass.Verify.Bv
