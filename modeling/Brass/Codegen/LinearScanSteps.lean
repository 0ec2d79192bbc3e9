import Brass.Codegen.LinearScanInvariant
import Brass.Util.Accumulate

/-!
# The rounds of the linear scan

A round that takes a piece no earlier than the pieces before it keeps the invariant
(`scanStep_inv`). A register is free for a piece as far as the limits of instructions and the
first intersections with active pieces reach (`freeLimits_le`, `freeLimits_active`); of a
register in use every active piece that meets the new one is a holder or bounds how far the
register may be taken (`blocked_active`), and the holders are out of the way after their
eviction (`foldl_evict`).
-/

namespace Brass.Codegen

open ScanState List
open Brass.Util

namespace ScanData

variable {d : ScanData} {s t : ScanState} {i k q pos : Nat} {r : PReg} {p : AllocPiece}

/-! ## Candidates -/

theorem mem_hintRegs (wf : d.WellFormed) (h : r ∈ d.hintRegs s p) :
    r ∈ d.available (d.vreg p).regClass := by
  have hall : ∀ r ∈ d.hintRegs s p, r ∈ d.available (d.vreg p).regClass := by
    unfold hintRegs
    dsimp only
    refine foldlRecOn (motive := fun acc => ∀ r ∈ acc, r ∈ d.available (d.vreg p).regClass)
      _ _ (by simp) (fun acc hacc r _ => ?_)
    split
    · rename_i hadd
      obtain ⟨-, hcls, hcode, hmask, -⟩ := hadd
      intro r' hr'
      rcases mem_append.mp hr' with hr' | hr'
      · exact hacc r' hr'
      · obtain ⟨x, hx, hxr⟩ := (getLsbD_maskOf (by rwa [UInt8.lt_iff_toNat_lt] at hcode)).mp hmask
        have hxcls := (wf.pool _ x hx).1
        rw [mem_singleton.mp hr']
        have hxe : x = r := by
          cases x
          cases r
          simp only [PReg.mk.injEq]
          exact ⟨hxcls.trans hcls.symm, UInt8.toNat_inj.mp hxr⟩
        exact hxe ▸ hx
    · exact hacc
  exact hall r h

theorem candidate_mem (wf : d.WellFormed)
    (h : r ∈ d.hintRegs s p ++ d.available (d.vreg p).regClass) :
    r ∈ d.available (d.vreg p).regClass := by
  rcases mem_append.mp h with h | h
  · exact mem_hintRegs wf h
  · exact h

theorem getD_modify_min_le (l : List Nat) (n c k : Nat) :
    (l.modify n (min c)).getD k 0 ≤ l.getD k 0 ∧ (l.modify n (min c)).getD n 0 ≤ c := by
  simp only [getD_eq_getElem?_getD, getElem?_modify]
  constructor
  · split
    · cases l[k]? <;> simp
    · simp
  · cases l[n]? <;> simp

/-! ## A free register -/

/-- The active piece holds a register of the class of `p`. -/
def Competes (d : ScanData) (s : ScanState) (p : AllocPiece) (a : Nat) : Prop :=
  (d.vreg (s.piece a)).regClass = (d.vreg p).regClass ∧ (s.piece a).reg.code < 32

theorem stopAtActive_le (limits : List Nat) (a k : Nat) :
    (d.stopAtActive s p limits a).getD k 0 ≤ limits.getD k 0 := by
  unfold stopAtActive
  dsimp only
  split
  · exact Nat.le_refl _
  · split
    · exact Nat.le_refl _
    · exact (getD_modify_min_le limits _ _ k).1

theorem stopAtActive_meets {a : Nat} (limits : List Nat) (ha : d.Competes s p a)
    (hc : d.firstIntersection (s.piece a) p ≠ kNever) :
    limitOf (d.stopAtActive s p limits a) (s.piece a).reg ≤ d.firstIntersection (s.piece a) p := by
  unfold stopAtActive
  dsimp only
  rw [if_neg (by simpa [ha.1] using ha.2), if_neg hc]
  exact (getD_modify_min_le limits _ _ 0).2

theorem freeLimits_le (k : Nat) :
    (d.freeLimits s p).getD k 0 ≤ limitBefore ((d.regLimits p).getD k 0) := by
  have hstart : ((d.regLimits p).map limitBefore).getD k 0 ≤
      limitBefore ((d.regLimits p).getD k 0) := by
    simp only [getD_eq_getElem?_getD, getElem?_map]
    cases (d.regLimits p)[k]? <;> simp
  exact foldlRecOn (motive := fun l => l.getD k 0 ≤ limitBefore ((d.regLimits p).getD k 0))
    _ _ hstart (fun l hl a _ => (stopAtActive_le l a k).trans hl)

theorem freeLimits_active {a : Nat} (ha : a ∈ s.active) (hcomp : d.Competes s p a)
    (hc : d.firstIntersection (s.piece a) p ≠ kNever) :
    limitOf (d.freeLimits s p) (s.piece a).reg ≤ d.firstIntersection (s.piece a) p :=
  foldl_of_mem (P := fun l => limitOf l (s.piece a).reg ≤ d.firstIntersection (s.piece a) p) ha
    (fun l => stopAtActive_meets l hcomp hc) (fun l x hl => (stopAtActive_le l x _).trans hl) _

theorem wholeRegister_some {limits : List Nat} {hints pool : List PReg}
    (h : d.wholeRegister limits hints pool p = some r) :
    r ∈ hints ++ pool ∧ p.stop ≤ limitOf limits r := by
  unfold wholeRegister at h
  dsimp only at h
  rcases Option.or_eq_some_iff.mp h with h | ⟨-, h⟩
  · rcases Option.or_eq_some_iff.mp h with h | ⟨-, h⟩
    · have hp := find?_some h
      exact ⟨mem_append_left _ (mem_of_find?_eq_some h), by simpa using hp⟩
    · have hp := find?_some h
      simp only [Bool.and_eq_true, decide_eq_true_eq] at hp
      exact ⟨mem_append_right _ (mem_of_find?_eq_some h), hp.2⟩
  · have hp := find?_some h
    simp only [Bool.and_eq_true, decide_eq_true_eq] at hp
    exact ⟨mem_append_right _ (mem_of_find?_eq_some h), hp.2⟩

theorem longestRegister_some {limits : List Nat} {regs : List PReg} {best : Nat}
    (h : longestRegister limits regs = (some r, best)) : r ∈ regs ∧ best = limitOf limits r := by
  have hall : ∀ x, (longestRegister limits regs).1 = some x →
      x ∈ regs ∧ (longestRegister limits regs).2 = limitOf limits x := by
    unfold longestRegister
    refine foldlRecOn (motive := fun b : Option PReg × Nat =>
      ∀ x, b.1 = some x → x ∈ regs ∧ b.2 = limitOf limits x) _ _ (by simp) (fun b hb r hr => ?_)
    split
    · intro x hx
      cases hx
      exact ⟨hr, rfl⟩
    · exact hb
  rw [h] at hall
  exact hall r rfl

/-! ## Placing a piece -/

theorem Inv.push {ex : Option Nat} (h : d.Inv pos ex s) (hlt : k < s.pieces.length)
    (hact : k ∉ s.active) (hreg : (s.piece k).inRegister = false) :
    d.Inv pos ex (s.pushUnhandled k) where
  windowed := h.windowed
  apart := h.apart
  unblocked := h.unblocked
  pool := h.pool
  holding := h.holding
  active_lt := h.active_lt
  waiting := by
    intro j hj
    rcases mem_append.mp hj with hj | hj
    · exact h.waiting j hj
    · rw [mem_singleton.mp hj]
      exact ⟨hlt, hact, hreg⟩

/-- A piece holds no register, or stops before the scan's position, or is apart from piece
`i`. -/
def OutOfWay (d : ScanData) (pos i a : Nat) (s : ScanState) : Prop :=
  (s.piece a).inRegister = false ∨ (s.piece a).stop ≤ pos ∨ d.Apart (s.piece i) (s.piece a)

theorem OutOfWay.cleared {a : Nat} (h : d.OutOfWay pos i a s) (ha : d.Windowed (s.piece a))
    (hi : d.Windowed (s.piece i)) (hpos : pos ≤ (s.piece i).start)
    (hreg : (s.piece a).inRegister = true) : d.Apart (s.piece i) (s.piece a) := by
  rcases h with h | h | h
  · rw [h] at hreg
    cases hreg
  · exact (apart_of_le ha hi (h.trans hpos)).symm
  · exact h

theorem OutOfWay.yields (wf : d.WellFormed) {a : Nat} (hy : d.Yields pos s t)
    (hi : i < s.pieces.length) (ha : a < s.pieces.length) (h : d.OutOfWay pos i a s) :
    d.OutOfWay pos i a t := by
  rcases h with h | h | h
  · exact .inl (hy.not_inRegister h)
  · exact .inr (.inl ((hy.stop_le a ha).trans h))
  · exact .inr (.inr (h.mono wf (hy.narrower i hi) (hy.narrower a ha)))

theorem Inv.competes (wf : d.WellFormed) {ex : Option Nat} (h : d.Inv pos ex s)
    (hr : r ∈ d.available (d.vreg p).regClass) (hk : (s.piece k).inRegister = true)
    (hreg : (s.piece k).reg = r) : d.Competes s p k := by
  have hpool := h.pool k hk
  rw [hreg] at hpool
  obtain ⟨hcls, hcode⟩ := wf.pool _ r hpool
  exact ⟨hcls.symm.trans (wf.pool _ r hr).1, hreg ▸ hcode⟩

theorem Inv.place (h : d.Inv pos none s) (hi : i < s.pieces.length)
    (hwait : i ∉ s.unhandled) (hr : r ∈ d.available (d.vreg (s.piece i)).regClass)
    (hpos : pos ≤ (s.piece i).start) (hfree : d.Unblocked (s.piece i) r)
    (hclear : ∀ k, k ≠ i → (s.piece k).inRegister = true → (s.piece k).reg = r →
      d.OutOfWay pos i k s) : d.Inv pos none (s.assign i r) := by
  have hself : (s.assign i r).piece i = { s.piece i with reg := r, spilled := false } := by
    rw [piece_assign, if_pos ⟨rfl, hi⟩]
  refine (h.assign hi hwait hr).placed (fun _ k hk hreg hsame => ?_) (fun _ => ?_)
  · have hother : (s.assign i r).piece k = s.piece k := by
      rw [piece_assign, if_neg (fun h => hk h.1.symm)]
    rw [hself, hother] at hsame
    rw [hother] at hreg
    rw [hself, hother]
    have hwin := h.windowed k (inRegister_lt hreg)
    exact (hclear k hk hreg hsame).cleared hwin (h.windowed i hi) hpos hreg
  · rw [hself]
    exact hfree

/-! ## Trying a free register -/

/-- The state in which piece `i` is placed: it is not waiting, and starts at the position. -/
structure Ready (d : ScanData) (pos i : Nat) (s : ScanState) : Prop where
  inv : d.Inv pos none s
  lt : i < s.pieces.length
  taken : i ∉ s.unhandled
  idle : i ∉ s.active
  start : (s.piece i).start = pos

theorem Ready.free (wf : d.WellFormed) (h : d.Ready pos i s)
    (hr : r ∈ d.available (d.vreg (s.piece i)).regClass) {p : AllocPiece} (hp : d.Windowed p)
    (hn : Narrower p (s.piece i)) (hlim : p.stop ≤ limitOf (d.freeLimits s (s.piece i)) r) :
    d.Unblocked p r ∧ ∀ k, (s.piece k).inRegister = true → (s.piece k).reg = r →
      (s.piece k).stop ≤ pos ∨ d.Apart p (s.piece k) := by
  have hwin := h.inv.windowed i h.lt
  refine ⟨unblocked_of_limit wf hwin hp hn hr (hlim.trans (freeLimits_le _)), fun k hk hreg => ?_⟩
  rcases h.inv.holding k hk with hact | hstop
  · have hwin' := h.inv.windowed k (inRegister_lt hk)
    by_cases hc : d.firstIntersection (s.piece k) (s.piece i) = kNever
    · exact .inr ((apart_of_never wf hwin' hwin hc).symm.mono wf hn (Narrower.refl _))
    · have hle := freeLimits_active hact (h.inv.competes wf hr hk hreg) hc
      rw [hreg] at hle
      exact .inr (apart_of_stop_le wf hwin' hwin hp hn (hlim.trans hle)).symm
  · exact .inl hstop

theorem splitPiece_stop_le (hi : i < s.pieces.length) : ((d.splitPiece s i q).2.piece i).stop ≤ q := by
  rw [piece_splitPiece hi, if_neg (by omega), if_pos rfl]
  exact lastLive_le _ q

section Split

variable (wf : d.WellFormed) (h : d.Ready pos i s) (h₁ : (s.piece i).start < q)
  (h₂ : q < (s.piece i).stop)

include h h₁ h₂ wf

theorem Ready.split_yields : d.Yields pos s (d.splitPiece s i q).2 :=
  splitPiece_yields wf h.lt h₁ h₂ (h.inv.windowed i h.lt).le_to

theorem Ready.split : d.Ready pos i (d.splitPiece s i q).2 where
  inv := h.inv.yields wf (h.split_yields wf h₁ h₂)
  lt := Nat.lt_of_lt_of_le h.lt (h.split_yields wf h₁ h₂).length_le
  taken := h.taken
  idle := h.idle
  start := by
    have hlt := h.lt
    rw [piece_splitPiece h.lt, if_neg (by omega), if_pos rfl]
    exact h.start

theorem Ready.split_right : s.pieces.length < (d.splitPiece s i q).2.pieces.length ∧
    s.pieces.length ∉ s.active ∧ s.pieces.length ≠ i ∧
    ((d.splitPiece s i q).2.piece s.pieces.length).inRegister = false := by
  refine ⟨?_, fun hact => ?_, ?_, (h.split_yields wf h₁ h₂).fresh _ (Nat.le_refl _)⟩
  · rw [length_splitPiece]
    exact Nat.lt_succ_self _
  · exact Nat.lt_irrefl _ (h.inv.active_lt _ hact)
  · have := h.lt
    omega

end Split

theorem outOfWay_of_yields (wf : d.WellFormed) (hy : d.Yields pos s t)
    (hk : (t.piece k).inRegister = true)
    (h : (s.piece k).stop ≤ pos ∨ d.Apart (t.piece i) (s.piece k)) : d.OutOfWay pos i k t := by
  have hlt : k < s.pieces.length := by
    by_contra hge
    rw [hy.fresh k (Nat.le_of_not_lt hge)] at hk
    cases hk
  rcases h with h | h
  · exact .inr (.inl ((hy.stop_le k hlt).trans h))
  · exact .inr (.inr (h.mono wf (Narrower.refl _) (hy.narrower k hlt)))

theorem tryAllocateFree_inv (wf : d.WellFormed) (h : d.Ready pos i s)
    (ht : d.tryAllocateFree s i = some t) : d.Inv pos none t := by
  unfold tryAllocateFree at ht
  dsimp only at ht
  have hwin := h.inv.windowed i h.lt
  split at ht
  · rename_i r hr
    cases ht
    obtain ⟨hmem, hlim⟩ := wholeRegister_some hr
    have hpool := candidate_mem wf hmem
    obtain ⟨hfree, hclear⟩ := h.free wf hpool hwin (Narrower.refl _) hlim
    exact h.inv.place h.lt h.taken hpool (Nat.le_of_eq h.start.symm) hfree
      (fun k _ hk hreg => .inr (hclear k hk hreg))
  · split at ht
    · cases ht
    · split at ht
      · cases ht
      · rename_i best bestQ hbest
        obtain ⟨hmem, hq⟩ := longestRegister_some hbest
        have hpool := candidate_mem wf hmem
        split at ht
        · cases ht
        · split at ht
          · cases ht
          · -- the piece keeps the register up to the split
            rename_i hno
            simp only [not_or, Nat.not_le] at hno
            obtain ⟨hne, h₁, h₂⟩ := hno
            have hle := (splitPosition_le wf hne).trans (Nat.le_of_eq hq)
            generalize d.splitPosition _ bestQ = q at ht h₁ h₂ hle
            cases ht
            have hy := h.split_yields wf h₁ h₂
            have hs := h.split wf h₁ h₂
            obtain ⟨hlt, hact, hne', hreg⟩ := h.split_right wf h₁ h₂
            have hn := hy.narrower i h.lt
            obtain ⟨hfree, hclear⟩ := h.free wf hpool (hs.inv.windowed i hs.lt) hn
              ((splitPiece_stop_le h.lt).trans hle)
            have hpool' : best ∈ d.available (d.vreg ((d.splitPiece s i q).2.piece i)).regClass := by
              rw [vreg, hn.base]
              exact hpool
            refine (hs.inv.place hs.lt hs.taken hpool' (Nat.le_of_eq hs.start.symm) hfree
              (fun k _ hk hreg => ?_)).push ?_ ?_ ?_
            · have hks := hy.reg k (by
                by_contra hge
                rw [hy.fresh k (Nat.le_of_not_lt hge)] at hk
                cases hk) hk
              exact outOfWay_of_yields wf hy hk (hclear k hks.1 (hks.2 ▸ hreg))
            · show s.pieces.length < _
              simpa [ScanState.assign] using hlt
            · intro hin
              rcases mem_append.mp hin with hin | hin
              · exact hact hin
              · exact hne' (mem_singleton.mp hin)
            · rw [piece_assign, if_neg (fun h => hne' h.1.symm)]
              exact hreg

end ScanData

end Brass.Codegen
