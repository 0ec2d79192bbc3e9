import Brass.Codegen.PieceQueries

/-!
# The limits of registers

`regLimits` walks the constrained instructions inside a piece in jumps over runs of words
that block no register without a limit. The limit of a register is at most every position
in the piece at which an instruction blocks it (`regLimits_le`): the jumps pass no word that
meets the registers left (`firstConstrained_bounds`), until the position is reached the
register is either left or has an earlier limit (`Limits.Within`), and from then on its
limit stays (`Limits.Settled`).
-/

namespace Brass.Codegen

open Brass.Util

namespace ScanData

/-! ## Jumps -/

variable {words : List (BitVec 32)} {want : BitVec 32} {i t stop k x : Nat}

theorem or_and_eq_zero (a b want : BitVec 32) :
    (a ||| b) &&& want = 0 ↔ a &&& want = 0 ∧ b &&& want = 0 := by
  constructor
  · intro h
    have hbit : ∀ j, ((a.getLsbD j || b.getLsbD j) && want.getLsbD j) = false := by
      intro j
      have := congrArg (fun z : BitVec 32 => z.getLsbD j) h
      simpa using this
    constructor <;>
    · apply BitVec.eq_of_getLsbD_eq
      intro j _
      have := hbit j
      simp only [BitVec.getLsbD_and, BitVec.ofNat_eq_ofNat, BitVec.getLsbD_zero]
      grind
  · rintro ⟨ha, hb⟩
    rw [BitVec.and_comm, BitVec.and_or_distrib_left, BitVec.and_comm want a, BitVec.and_comm want b, ha, hb]
    rfl

theorem orLevel_and_eq_zero : orLevel words k i &&& want = 0 ↔
    ∀ j, i ≤ j → j < i + 2 ^ k → words.getD j 0 &&& want = 0 :=
  sparse_iff (P := fun z => z &&& want = 0) (fun a b => or_and_eq_zero a b want) k i

theorem levelUp_and_eq_zero (fuel : Nat) (h : orLevel words k i &&& want = 0) :
    orLevel words (levelUp words i stop want fuel k) i &&& want = 0 := by
  induction fuel generalizing k with
  | zero => exact h
  | succ fuel ih =>
    rw [levelUp]
    split
    · rename_i hup
      exact ih hup.2.2
    · exact h

theorem firstConstrained_lt_or (fuel : Nat) : firstConstrained words stop want fuel i = stop ∨
      i ≤ firstConstrained words stop want fuel i ∧
        firstConstrained words stop want fuel i < stop := by
  induction fuel generalizing i with
  | zero => exact .inl rfl
  | succ fuel ih =>
    rw [firstConstrained]
    split
    · rename_i hi
      split
      · exact .inr ⟨Nat.le_refl i, hi⟩
      · rcases ih (i := i + 2 ^ levelUp words i stop want words.length 0) with h | h
        · exact .inl h
        · exact .inr ⟨(Nat.le_add_right _ _).trans h.1, h.2⟩
    · exact .inl rfl

theorem firstConstrained_bounds {fuel : Nat} (hi : i ≤ t) (ht : t < stop)
    (hw : words.getD t 0 &&& want ≠ 0) (hfuel : stop - i ≤ fuel) :
    i ≤ firstConstrained words stop want fuel i ∧ firstConstrained words stop want fuel i ≤ t := by
  induction fuel generalizing i with
  | zero => omega
  | succ fuel ih =>
    rw [firstConstrained, if_pos (by omega)]
    split
    · exact ⟨Nat.le_refl i, hi⟩
    · rename_i hzero
      have hlevel : orLevel words (levelUp words i stop want words.length 0) i &&& want = 0 :=
        levelUp_and_eq_zero words.length (not_not.mp hzero)
      have hrun := orLevel_and_eq_zero.mp hlevel
      clear hlevel
      generalize levelUp words i stop want words.length 0 = up at hrun ⊢
      have hpos : 0 < 2 ^ up := Nat.two_pow_pos up
      have hpast : i + 2 ^ up ≤ t := by
        by_contra hlt
        exact hw (hrun t hi (by omega))
      obtain ⟨h₁, h₂⟩ := ih hpast (by omega)
      exact ⟨by omega, h₂⟩

/-! ## Limits -/

section Limits

variable {l : Limits} {mask : BitVec 32} {pos : Nat}

theorem Limits.hit_remaining : (l.hit mask pos).remaining.getLsbD k =
    (l.remaining.getLsbD k && (!decide (k < 32) || !mask.getLsbD k)) := by
  by_cases hk : k < 32
  · simp [Limits.hit, hk]
  · simp [Limits.hit, BitVec.getLsbD_of_ge _ _ (Nat.le_of_not_lt hk)]

theorem Limits.hit_out (hk : k < l.out.length) : (l.hit mask pos).out.getD k 0 =
    if mask.getLsbD k then pos else l.out.getD k 0 := by
  simp only [Limits.hit, List.getD_eq_getElem?_getD, List.getElem?_mapIdx,
    List.getElem?_eq_getElem hk, Option.map_some, Option.getD_some]

/-- Register `k` is without a limit, or its limit is at most `x`. -/
structure Limits.Within (l : Limits) (k x : Nat) : Prop where
  lt : k < l.out.length
  within : l.remaining.getLsbD k = true ∨ l.out.getD k 0 ≤ x

/-- Register `k` has a limit, at most `x`. -/
structure Limits.Settled (l : Limits) (k x : Nat) : Prop where
  lt : k < l.out.length
  gone : l.remaining.getLsbD k = false
  le : l.out.getD k 0 ≤ x

theorem Limits.Within.settled (h : l.Within k x) (hgone : ¬ l.remaining.getLsbD k = true) :
    l.Settled k x :=
  ⟨h.lt, by simpa using hgone, h.within.resolve_left hgone⟩

theorem Limits.Settled.hit (h : l.Settled k x) :
    (l.hit (mask &&& l.remaining) pos).Settled k x where
  lt := by simpa [Limits.hit] using h.lt
  gone := by simp [Limits.hit, h.gone]
  le := by
    rw [Limits.hit_out h.lt]
    simpa [h.gone] using h.le

theorem Limits.Within.hit (h : l.Within k x) (hpos : pos ≤ x) : (l.hit mask pos).Within k x where
  lt := by simpa [Limits.hit] using h.lt
  within := by
    rw [Limits.hit_out h.lt, Limits.hit_remaining]
    split
    · exact .inr hpos
    · rename_i hno
      rcases h.within with h' | h'
      · left; simp [h', hno]
      · exact .inr h'

theorem Limits.Within.hit_settled (h : l.Within k x) (hk : k < 32) (hmask : mask.getLsbD k = true)
    (hpos : pos ≤ x) : (l.hit (mask &&& l.remaining) pos).Settled k x := by
  by_cases hleft : l.remaining.getLsbD k = true
  · refine ⟨by simpa [Limits.hit] using h.lt, ?_, ?_⟩
    · simp [Limits.hit, hleft, hmask, hk]
    · rw [Limits.hit_out h.lt]
      simpa [hleft, hmask] using hpos
  · exact (h.settled hleft).hit

end Limits

/-! ## One segment -/

variable {d : ScanData} {p : AllocPiece} {wide : Bool} {cs : List (Nat × ConstraintWord)}

theorem limitsIn_settled {fuel : Nat} {l : Limits} (h : l.Settled k x) :
    (d.limitsIn p wide cs words stop fuel i l).Settled k x := by
  induction fuel generalizing i l with
  | zero => exact h
  | succ fuel ih =>
    rw [limitsIn]
    split
    · dsimp only
      split
      · exact h
      · split
        · exact h
        · exact ih h.hit
    · exact h

theorem limitsIn_within {fuel : Nat} {l : Limits}
    (hcs : ∀ j e, i ≤ j → j < stop → cs[j]? = some e → e.1 ≤ x) (h : l.Within k x) :
    (d.limitsIn p wide cs words stop fuel i l).Within k x := by
  induction fuel generalizing i l with
  | zero => exact h
  | succ fuel ih =>
    rw [limitsIn]
    split
    · dsimp only
      rcases @firstConstrained_lt_or words l.remaining i stop words.length with hj | ⟨hj₁, hj₂⟩
      · split
        · exact h
        · rw [if_pos hj]
          exact h
      · split
        · exact h
        · rename_i pos w he
          rw [if_neg (by omega)]
          refine ih (fun j e hj hlt => hcs j e (by omega) hlt) (h.hit ?_)
          exact hcs _ _ hj₁ hj₂ he
    · exact h

/-- The walk over a segment gives a register that the instruction `t` of the segment blocks a
limit at that instruction or before. -/
theorem limitsIn_target {fuel : Nat} {l : Limits} {w : ConstraintWord} (hk : k < 32)
    (hlen : stop ≤ words.length) (hi : i ≤ t) (ht : t < stop) (hfuel : stop - i ≤ fuel)
    (hcs : ∀ j e, j ≤ t → cs[j]? = some e → e.1 ≤ x) (htarget : cs[t]? = some (x, w))
    (hblocked : (d.blockedBy p wide x w).getLsbD k = true)
    (hword : (words.getD t 0).getLsbD k = true) (h : l.Within k x) :
    (d.limitsIn p wide cs words stop fuel i l).Settled k x := by
  induction fuel generalizing i l with
  | zero => omega
  | succ fuel ih =>
    by_cases hleft : l.remaining.getLsbD k = true
    · have hmeet : ∀ z : BitVec 32, z.getLsbD k = true → z &&& l.remaining ≠ 0 := by
        intro z hz hzero
        have := congrArg (fun y : BitVec 32 => y.getLsbD k) hzero
        simp [hz, hleft] at this
      have hne : l.remaining ≠ 0 := by
        intro hzero
        simp [hzero] at hleft
      rw [limitsIn, if_pos ⟨by omega, hne⟩]
      obtain ⟨hj₁, hj₂⟩ := @firstConstrained_bounds words l.remaining i t stop words.length hi ht
        (hmeet _ hword) (by omega)
      generalize firstConstrained words stop l.remaining words.length i = j at hj₁ hj₂ ⊢
      dsimp only
      rcases Nat.lt_or_eq_of_le hj₂ with hlt | rfl
      · -- an earlier instruction, which may give the register its limit
        cases he : cs[j]? with
        | none =>
          have := List.getElem?_eq_none_iff.mp he
          have := (List.getElem?_eq_some_iff.mp htarget).1
          omega
        | some e =>
          dsimp only
          rw [if_neg (by omega)]
          exact ih (by omega) (by omega) (h.hit (hcs j e hj₂ he))
      · rw [htarget]
        dsimp only
        rw [if_neg (by omega)]
        exact limitsIn_settled (h.hit_settled hk hblocked (Nat.le_refl x))
    · exact limitsIn_settled (h.settled hleft)

/-! ## All segments -/

theorem blockedBy_word {pos : Nat} {w : ConstraintWord}
    (h : (d.blockedBy p wide pos w).getLsbD k = true) :
    (w.clob ||| w.pin ||| (if wide then w.call else 0)).getLsbD k = true := by
  unfold blockedBy at h
  simp only [BitVec.getLsbD_or, BitVec.getLsbD_and, Bool.or_eq_true, Bool.and_eq_true] at h ⊢
  rcases h with (h | h) | h
  · exact .inl (.inl h)
  · exact .inr h
  · exact .inl (.inr h.1)

/-- The register is blocked for the piece's value at position `x`: always, or by an instruction
there. -/
def Blocks (d : ScanData) (p : AllocPiece) (r : PReg) (x : Nat) : Prop :=
  (d.alwaysBlocked p).getLsbD r.code.toNat = true ∨
    ∃ w, (x, w) ∈ d.constraints (d.vreg p).regClass ∧
      (d.blockedBy p (d.fprWiderThanCalleeSaved (d.vreg p)) x w).getLsbD r.code.toNat = true

/-- No instruction in the piece blocks the register. -/
def Unblocked (d : ScanData) (p : AllocPiece) (r : PReg) : Prop :=
  ∀ c ∈ d.clamped p, ∀ x, c.start ≤ x → x ≤ c.stop → ¬ d.Blocks p r x

theorem Blocks.of_base {q : AllocPiece} {r : PReg} (hbase : p.base = q.base) (h : d.Blocks p r x) :
    d.Blocks q r x := by
  have hv : d.vreg p = d.vreg q := by simp only [vreg, hbase]
  have ha : d.alwaysBlocked p = d.alwaysBlocked q := by simp only [alwaysBlocked, hv, hbase]
  have hb : ∀ wide pos w, d.blockedBy p wide pos w = d.blockedBy q wide pos w := by
    intro wide pos w
    simp only [blockedBy, ownFixedRegs, hv, hbase]
  simpa only [Blocks, hv, ha, hb] using h

theorem Unblocked.mono (wf : d.WellFormed) {q : AllocPiece} {r : PReg} (hn : Narrower p q)
    (h : d.Unblocked q r) : d.Unblocked p r := by
  intro c hc x h₁ h₂ hx
  obtain ⟨c', hc', h₃, h₄⟩ := hn.clamped wf hc
  exact h c' hc' x (h₃.trans h₁) (h₂.trans h₄) (hx.of_base hn.base)

theorem getLsbD_regBit {r : Nat} (hk : k < 32) : (regBit r).getLsbD k = true ↔ r = k := by
  simp only [regBit, BitVec.getLsbD_shiftLeft, BitVec.getLsbD_one, hk, decide_true,
    Bool.true_and, Bool.and_eq_true, Bool.not_eq_true', decide_eq_false_iff_not,
    decide_eq_true_eq]
  omega

theorem getLsbD_maskOf {regs : List PReg} (hk : k < 32) :
    (maskOf regs).getLsbD k = true ↔ ∃ r ∈ regs, r.code.toNat = k := by
  unfold maskOf
  have hgen : ∀ (regs : List PReg) (m : BitVec 32),
      (regs.foldl (fun m r => if r.code < 32 then m ||| regBit r.code.toNat else m) m).getLsbD k =
        true ↔ m.getLsbD k = true ∨ ∃ r ∈ regs, r.code.toNat = k := by
    intro regs
    induction regs with
    | nil => simp
    | cons r regs ih =>
      intro m
      rw [List.foldl_cons, ih]
      split
      · rw [BitVec.getLsbD_or, Bool.or_eq_true, getLsbD_regBit hk, or_assoc]
        simp
      · rename_i hlarge
        have hne : r.code.toNat ≠ k := by
          intro h
          apply hlarge
          rw [UInt8.lt_iff_toNat_lt]
          exact h ▸ hk
        simp [hne]
  simpa using hgen regs 0

/-- The walk over the segments: those before the position leave the register's limit within it,
the one that holds it settles it. -/
theorem foldl_settled {f : Limits → LiveRangeSegment → Limits} {segs : List LiveRangeSegment}
    {c : LiveRangeSegment} (hsep : Separated segs) (hc : c ∈ segs)
    (hbefore : ∀ l s, s.stop < c.start → Limits.Within l k x → (f l s).Within k x)
    (hat : ∀ l, Limits.Within l k x → (f l c).Settled k x)
    (hafter : ∀ l s, Limits.Settled l k x → (f l s).Settled k x) {l : Limits}
    (h : l.Within k x) : (segs.foldl f l).Settled k x := by
  induction segs generalizing l with
  | nil => cases hc
  | cons s segs ih =>
    obtain ⟨-, hlater, hsep'⟩ := separated_cons.mp hsep
    rw [List.foldl_cons]
    rcases List.mem_cons.mp hc with rfl | hc'
    · exact List.foldlRecOn segs f (hat l h) (fun l hl s _ => hafter l s hl)
    · have := hlater c hc'
      exact ih hsep' hc' (hbefore l s (by omega) h)

theorem segment_index (hids : cs.Pairwise (fun a b => a.1 < b.1)) {lo hi i j : Nat}
    (hi' : i = partitionPoint cs (fun c => decide (c.1 < lo))) {e : Nat × ConstraintWord}
    (he : cs[j]? = some e) :
    (i ≤ j ↔ lo ≤ e.1) ∧ (i ≤ j →
      (j < i + partitionPoint (cs.drop i) (fun c => decide (¬ hi < c.1)) ↔ e.1 ≤ hi)) := by
  have hmono := hids.imp (S := fun a b => decide (b.1 < lo) = true → decide (a.1 < lo) = true)
    (fun {a b} h hb => by simp only [decide_eq_true_eq] at hb ⊢; omega)
  have hmono' := (hids.sublist (List.drop_sublist i cs)).imp
    (S := fun a b => decide (¬ hi < b.1) = true → decide (¬ hi < a.1) = true)
    (fun {a b} h hb => by simp only [decide_eq_true_eq] at hb ⊢; omega)
  rw [partitionPoint_eq_takeWhile hmono] at hi'
  rw [partitionPoint_eq_takeWhile hmono']
  have hfirst := partitionedAt_takeWhile hmono j e he
  rw [← hi', decide_eq_true_eq] at hfirst
  refine ⟨by omega, fun hij => ?_⟩
  have hlast := partitionedAt_takeWhile hmono' (j - i) e (by
    rw [List.getElem?_drop, Nat.add_sub_cancel' hij]
    exact he)
  simp only [decide_eq_true_eq] at hlast
  omega

theorem start_within (hk : k < 32) (mask : BitVec 32) (pool : BitVec 32)
    (hpool : pool.getLsbD k = true) :
    (Limits.hit { remaining := pool, out := List.replicate 32 kNever } mask 0).Within k x :=
  Limits.Within.hit ⟨by simpa using hk, .inl hpool⟩ (Nat.zero_le x)

theorem regLimits_le (wf : d.WellFormed) (hp : p.fromPos ≤ p.toPos) {r : PReg}
    (hr : r ∈ d.available (d.vreg p).regClass) {c : LiveRangeSegment} (hc : c ∈ d.clamped p)
    (h₁ : c.start ≤ x) (h₂ : x ≤ c.stop) (hb : d.Blocks p r x) :
    (d.regLimits p).getD r.code.toNat 0 ≤ x := by
  have hk : r.code.toNat < 32 := by
    have := (wf.pool _ r hr).2
    rwa [UInt8.lt_iff_toNat_lt] at this
  have hpool : (maskOf (d.available (d.vreg p).regClass)).getLsbD r.code.toNat = true :=
    (getLsbD_maskOf hk).mpr ⟨r, hr, rfl⟩
  unfold regLimits
  dsimp only
  set wide := d.fprWiderThanCalleeSaved (d.vreg p) with hwide
  set cs := d.constraints (d.vreg p).regClass with hcs
  set f := fun (c : Nat × ConstraintWord) =>
    c.2.clob ||| c.2.pin ||| (if wide = true then c.2.call else 0) with hf
  rcases hb with halways | ⟨w, hw, hblocked⟩
  · -- blocked always: the limit is 0 before the first segment
    refine (List.foldlRecOn (motive := fun l => Limits.Settled l r.code.toNat x) _ _ ?_ ?_).le
    · set pool := maskOf (d.available (d.vreg p).regClass)
      have hstart : Limits.Within
          { remaining := pool, out := List.replicate 32 kNever } r.code.toNat x :=
        ⟨by simpa using hk, .inl hpool⟩
      exact hstart.hit_settled hk halways (Nat.zero_le x)
    · intro l hl s _
      split
      · exact hl
      · exact limitsIn_settled hl
  · obtain ⟨t, ht⟩ := List.mem_iff_getElem?.mp hw
    have hids := wf.ids (d.vreg p).regClass
    rw [← hcs] at hids ht
    have hlen : t < cs.length := (List.getElem?_eq_some_iff.mp ht).1
    have hword : ((cs.map f).getD t 0).getLsbD r.code.toNat = true := by
      rw [List.getD_eq_getElem?_getD, List.getElem?_map, ht]
      exact blockedBy_word hblocked
    have hsorted : ∀ j e, j ≤ t → cs[j]? = some e → e.1 ≤ x := by
      intro j e hj he
      rcases Nat.lt_or_eq_of_le hj with hlt | rfl
      · obtain ⟨hj', rfl⟩ := List.getElem?_eq_some_iff.mp he
        have hlt' := List.pairwise_iff_getElem.mp hids j t hj' hlen hlt
        rw [(List.getElem?_eq_some_iff.mp ht).2] at hlt'
        exact Nat.le_of_lt hlt'
      · rw [ht] at he
        cases he
        exact Nat.le_refl x
    refine (foldl_settled (clamped_separated wf hp) hc ?_ ?_ ?_ (start_within hk _ _ hpool)).le
    · -- an earlier segment: all its instructions stand before `x`
      intro l s hs h
      split
      · exact h
      · refine limitsIn_within (fun j e hj hlt he => ?_) h
        have := ((@segment_index cs hids s.start s.stop _ _ rfl _ he).2 hj).mp hlt
        omega
    · intro l h
      split
      · rename_i hzero
        exact h.settled (by simp [hzero])
      · have hin := @segment_index cs hids c.start c.stop _ _ rfl _ ht
        have hi := hin.1.mpr h₁
        have hlt := (hin.2 hi).mpr h₂
        refine limitsIn_target hk ?_ hi hlt (Nat.le_of_eq (by omega)) hsorted ht hblocked hword h
        have := partitionPoint_le cs (fun e => decide (e.1 < c.start))
        have := partitionPoint_le (cs.drop (partitionPoint cs (fun e => decide (e.1 < c.start))))
          (fun e => decide (¬ c.stop < e.1))
        simp only [List.length_drop, List.length_map] at *
        omega
    · intro l s h
      split
      · exact h
      · exact limitsIn_settled h

/-- A piece that stops before the limit of a register for a wider one has the register to
itself. -/
theorem unblocked_of_limit (wf : d.WellFormed) {q : AllocPiece} (hp : d.Windowed p)
    (hq : d.Windowed q) (hn : Narrower q p) {r : PReg}
    (hr : r ∈ d.available (d.vreg p).regClass)
    (h : q.stop ≤ limitBefore ((d.regLimits p).getD r.code.toNat 0)) : d.Unblocked q r := by
  intro c hc x h₁ h₂ hb
  have hpos := clamped_stop_pos wf hq hc
  have hlt := clamped_stop_lt wf hc
  have hstop := hq.le_stop c hc
  obtain ⟨c', hc', h₃, h₄⟩ := hn.clamped wf hc
  have hle := regLimits_le wf (Nat.le_of_lt hp.proper) hr hc' (h₃.trans h₁) (h₂.trans h₄)
    (hb.of_base hn.base)
  unfold limitBefore at h
  split at h <;> omega

end ScanData

end Brass.Codegen
