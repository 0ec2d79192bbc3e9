import Brass.Codegen.RegisterLimits

/-!
# The table of constrained instructions

`constraint_or_` of `codegen/linear_scan.cpp` holds, level by level, the disjunctions of `2 ^ k`
consecutive words (`constraintOr`). `first_constrained` descends it to the index that a scan of
the words one by one finds (`firstConstrainedIn_eq_scan`).
-/

namespace Brass.Codegen.ScanData

open List

/-- The disjunctions of `span` words, from those of half as many. -/
def nextLevel (n span : Nat) (prev : List (BitVec 32)) : List (BitVec 32) :=
  (range (n - span + 1)).map fun i => prev.getD i 0 ||| prev.getD (i + span / 2) 0

def levelsFrom (n : Nat) : Nat → Nat → List (BitVec 32) → List (List (BitVec 32))
  | 0, _, _ => []
  | fuel + 1, span, prev =>
    if span ≤ n then nextLevel n span prev :: levelsFrom n fuel (span * 2) (nextLevel n span prev)
    else []

def constraintOr (words : List (BitVec 32)) : List (List (BitVec 32)) :=
  if words = [] then [] else words :: levelsFrom words.length words.length 2 words

/-- `levelUp` on the levels of a table. -/
def levelUpIn (table : List (List (BitVec 32))) (i stop : Nat) (want : BitVec 32) :
    Nat → Nat → Nat
  | 0, k => k
  | fuel + 1, k =>
    if k + 1 < table.length ∧ i + 2 * 2 ^ k ≤ stop ∧ (table.getD (k + 1) []).getD i 0 &&& want = 0
    then levelUpIn table i stop want fuel (k + 1)
    else k

/-- `firstConstrained` on the levels of a table. -/
def firstConstrainedIn (table : List (List (BitVec 32))) (stop : Nat) (want : BitVec 32) :
    Nat → Nat → Nat
  | 0, _ => stop
  | fuel + 1, i =>
    if i < stop then
      if (table.getD 0 []).getD i 0 &&& want ≠ 0 then i
      else firstConstrainedIn table stop want fuel
        (i + 2 ^ levelUpIn table i stop want table.length 0)
    else stop

variable {words : List (BitVec 32)} {want : BitVec 32} {i stop k : Nat}

/-! ## The levels -/

/-- Level `k` as the table should have it. -/
def orRow (words : List (BitVec 32)) (k : Nat) : List (BitVec 32) :=
  (range (words.length - 2 ^ k + 1)).map (orLevel words k)

theorem orRow_getD (hi : i + 2 ^ k ≤ words.length) : (orRow words k).getD i 0 = orLevel words k i := by
  have hlt : i < words.length - 2 ^ k + 1 := by omega
  simp [orRow, getD_eq_getElem?_getD, hlt]

theorem nextLevel_orRow (hk : 2 ^ (k + 1) ≤ words.length) :
    nextLevel words.length (2 ^ (k + 1)) (orRow words k) = orRow words (k + 1) := by
  refine map_congr_left fun i hi => ?_
  have hlt := mem_range.1 hi
  rw [Nat.pow_succ] at hk hlt ⊢
  rw [Nat.mul_div_cancel _ (by decide), orRow_getD (by omega), orRow_getD (by omega)]
  rfl

theorem levelsFrom_getElem? {j fuel : Nat} (hj : j < fuel)
    (hle : 2 ^ (k + 1 + j) ≤ words.length) :
    (levelsFrom words.length fuel (2 ^ (k + 1)) (orRow words k))[j]? =
      some (orRow words (k + 1 + j)) := by
  induction fuel generalizing k j with
  | zero => omega
  | succ fuel ih =>
    have hspan : 2 ^ (k + 1) ≤ 2 ^ (k + 1 + j) := Nat.pow_le_pow_right (by decide) (by omega)
    rw [levelsFrom, if_pos (hspan.trans hle), nextLevel_orRow (hspan.trans hle), ← Nat.pow_succ]
    cases j with
    | zero => rfl
    | succ j =>
      rw [show k + 1 + (j + 1) = k + 1 + 1 + j by omega] at hle ⊢
      exact ih (by omega) hle

theorem constraintOr_getElem? (hle : 2 ^ k ≤ words.length) :
    (constraintOr words)[k]? = some (orRow words k) := by
  have hpos := Nat.two_pow_pos k
  have hne : words ≠ [] := ne_nil_of_length_pos (by omega)
  have hzero : orRow words 0 = words := by
    have hlen : (orRow words 0).length = words.length := by simp [orRow]; omega
    exact ext_getElem hlen fun i _ hi => by simp [orRow, orLevel, Util.sparse, hi]
  rw [constraintOr, if_neg hne]
  cases k with
  | zero => rw [hzero]; rfl
  | succ k =>
    have hlt : k < 2 ^ (k + 1) := Nat.lt_two_pow_self.trans (Nat.pow_lt_pow_right (by decide) (by omega))
    have hrow := @levelsFrom_getElem? words 0 k words.length (hlt.trans_le hle)
      (by rwa [show 0 + 1 + k = k + 1 by omega])
    rwa [hzero, show 0 + 1 + k = k + 1 by omega] at hrow

theorem constraintOr_getD (hi : i + 2 ^ k ≤ words.length) :
    ((constraintOr words).getD k []).getD i 0 = orLevel words k i := by
  have hrow : (constraintOr words).getD k [] = orRow words k := by
    rw [getD_eq_getElem?_getD, constraintOr_getElem? (by omega), Option.getD_some]
  rw [hrow, orRow_getD hi]

/-! ## The descent -/

section Descent

variable (hstop : stop ≤ words.length)

include hstop

theorem levelUpIn_spec (fuel : Nat) (hzero : orLevel words k i &&& want = 0)
    (hk : i + 2 ^ k ≤ stop) :
    orLevel words (levelUpIn (constraintOr words) i stop want fuel k) i &&& want = 0 ∧
      i + 2 ^ levelUpIn (constraintOr words) i stop want fuel k ≤ stop := by
  induction fuel generalizing k with
  | zero => exact ⟨hzero, hk⟩
  | succ fuel ih =>
    rw [levelUpIn]
    split
    next hup =>
      obtain ⟨-, hle, hup⟩ := hup
      rw [← Nat.pow_succ'] at hle
      rw [constraintOr_getD (hle.trans hstop)] at hup
      exact ih hup hle
    next => exact ⟨hzero, hk⟩

/-- The descent returns what a scan of the words one by one does. -/
theorem firstConstrainedIn_eq_scan :
    firstConstrainedIn (constraintOr words) stop want words.length i =
      ((range' i (stop - i)).find? fun j => words.getD j 0 &&& want ≠ 0).getD stop := by
  have hall : ∀ fuel, stop - i ≤ fuel → firstConstrainedIn (constraintOr words) stop want fuel i =
      ((range' i (stop - i)).find? fun j => words.getD j 0 &&& want ≠ 0).getD stop := by
    intro fuel hfuel
    induction fuel generalizing i with
    | zero => simp [firstConstrainedIn, show stop - i = 0 by omega]
    | succ fuel ih =>
      rw [firstConstrainedIn]
      split
      next hi =>
        rw [constraintOr_getD (by simp; omega)]
        split
        next hmeets =>
          have hword : words.getD i 0 &&& want ≠ 0 := hmeets
          rw [show stop - i = stop - i - 1 + 1 by omega, range'_succ,
            find?_cons_of_pos (by simpa using hword), Option.getD_some]
        next hzero =>
          obtain ⟨hlevel, hle⟩ := levelUpIn_spec hstop (constraintOr words).length
            (not_not.1 hzero) hi
          generalize levelUpIn (constraintOr words) i stop want (constraintOr words).length 0 = up
            at hlevel hle ⊢
          have hpos := Nat.two_pow_pos up
          have hnone : (range' i (2 ^ up)).find? (fun j => words.getD j 0 &&& want ≠ 0) = none := by
            refine find?_eq_none.2 fun j hj => ?_
            have hrange := mem_range'_1.1 hj
            simpa using orLevel_and_eq_zero.1 hlevel j hrange.1 hrange.2
          rw [ih (by omega), show stop - i = 2 ^ up + (stop - (i + 2 ^ up)) by omega,
            ← range'_append_1, find?_append, hnone, Option.none_or]
      next hi => simp [show stop - i = 0 by omega]
  exact hall _ (by omega)

end Descent

theorem firstConstrainedIn_eq_scan_third :
    firstConstrainedIn (constraintOr [1, 0, 2, 0]) 4 2 4 0 = 2 :=
  (@firstConstrainedIn_eq_scan [1, 0, 2, 0] 2 0 4 (by decide)).trans (by decide)

end Brass.Codegen.ScanData
