import Mathlib.Tactic.IntervalCases
import Brass.Codegen.CopyCycles

/-!
# Parallel copies are right

`emitParallelCopy` ends, and what it emits carries out all moves at once, when every longer
cycle parks its first value in a register that suits the move that reads it (`ParkFits`). The
class of that register is chosen from the first move of the cycle alone, so a cycle through
stack slots that mixes both classes, or that has wide values, can get the wrong one
(`emitParallelCopy_mixed`).
-/

namespace Brass.Codegen.Copy

open Emission

open Function (update update_comm update_of_ne update_self)

open List

section Run

variable {L : Layout} {moves : List CopyMove} {m₀ : Machine} {st : Emission} {i j : Nat}

/-! ## Scratch registers -/

variable {vec : Bool} {start w : Nat}

/-- Registers of a kind are of the class that is asked for. -/
def OfClass (vec : Bool) : CopyKind → Prop
  | .preg p => (if vec then p.isXmm else isGpr p) = true
  | .slot _ => True
  | .imm _ => False

theorem isPark_cycleScratch (vec : Bool) (w : Nat) : IsPark (cycleScratch vec w).kind := by
  cases vec
  · exact .inl rfl
  · exact .inr rfl

theorem emittable_cycleScratch {src : CopyOperand} (hw : IsSize w) (hsize : IsSize src.size)
    (hclass : OfClass vec src.kind) (hsmall : vec = false → w ≤ 8) :
    Emittable L (cycleScratch vec w) src := by
  refine ⟨hw, hsize, ?_⟩
  cases vec <;> cases hk : src.kind <;> rw [hk] at hclass
  · exact .inl ⟨rfl, hclass, hsmall rfl⟩
  · exact .inl ⟨rfl, hsmall rfl⟩
  · exact hclass.elim
  · exact .inr ⟨rfl, hclass⟩
  · exact .inr rfl
  · exact hclass.elim

theorem emittable_of_cycleScratch {dst : CopyOperand} (hw : IsSize w) (hsize : IsSize dst.size)
    (hclass : OfClass vec dst.kind) (hsmall : vec = false → dst.size ≤ 8)
    (hroom : ∀ s, dst.kind = .slot s → words dst.size ≤ L.room s ∧ (vec = true → words w ≤ L.room s)) :
    Emittable L dst (cycleScratch vec w) := by
  refine ⟨hsize, hw, ?_⟩
  cases vec <;> cases hk : dst.kind <;> rw [hk] at hclass
  · exact .inl ⟨hclass, rfl, hsmall rfl⟩
  · refine .inl ⟨rfl, hsmall rfl, ?_⟩
    have hwords : words dst.size = 1 := by simp [words, hsmall rfl]
    have := (hroom _ hk).1
    omega
  · exact hclass.elim
  · exact .inr ⟨hclass, rfl⟩
  · exact .inr ⟨rfl, (hroom _ hk).1, (hroom _ hk).2 rfl⟩
  · exact hclass.elim

theorem emitMove_gpr_wide {addr : Int32 → Int} {k : CopyKind} (hw : 8 ≤ w) :
    emitMove addr (cycleScratch false w) ⟨k, w⟩ = emitMove addr (cycleScratch false 8) ⟨k, 8⟩ := by
  have h4 : w ≠ 4 := by omega
  have hsame : sameLoc (cycleScratch false w) ⟨k, w⟩ = sameLoc (cycleScratch false 8) ⟨k, 8⟩ := rfl
  rw [emitMove, emitMove, hsame]
  have hgpr : isGpr ⟨.gpr, 10⟩ = true := rfl
  cases k <;> simp [cycleScratch, emitToGpr, h4, hgpr]

theorem isSize_max {v : Nat} (hv : IsSize v) (hw : IsSize w) : IsSize (max v w) := by
  rcases Nat.le_total v w with h | h
  · rwa [Nat.max_eq_right h]
  · rwa [Nat.max_eq_left h]

/-! ## The class of a scratch register -/

theorem isXmmPreg_iff {op : CopyOperand} :
    isXmmPreg op = true ↔ ∃ p, op.kind = .preg p ∧ p.isXmm = true := by
  unfold isXmmPreg
  cases op.kind <;> simp

theorem wideSize_of_small (h : w ≤ 8) : wideSize w = false := by
  simp only [wideSize, Bool.or_eq_false_iff, decide_eq_false_iff_not]
  omega

theorem small_of_wideSize (hw : IsSize w) (h : wideSize w = false) : w ≤ 8 := by
  simp only [wideSize, Bool.or_eq_false_iff, decide_eq_false_iff_not] at h
  unfold IsSize at hw
  omega

/-- A move with a general register has no vector register and is not wide. -/
theorem parksVec_of_gpr {mv : CopyMove} {p : PReg} (h : LegalMove L mv) (hp : isGpr p = true)
    (hmv : mv.dst.kind = .preg p ∨ mv.src.kind = .preg p) : parksVec mv = false := by
  have hkind := h.emittable.2.2
  have hx := not_isXmm_of_isGpr hp
  cases hd : mv.dst.kind with
  | imm v => exact absurd hd (h.dst_not_imm v)
  | preg q =>
    have hq : isGpr q = true ∧ mv.dst.size ≤ 8 ∧ isXmmPreg mv.src = false := by
      rw [hd] at hkind hmv
      cases hs : mv.src.kind with
      | imm v =>
        rw [hs] at hkind
        exact ⟨hkind.1, hkind.2, by rw [isXmmPreg, hs]⟩
      | slot s =>
        rw [hs] at hkind hmv
        obtain rfl : q = p := by simpa using hmv
        exact ⟨hp, (hkind.resolve_right (by rw [hx]; decide)).2, by rw [isXmmPreg, hs]⟩
      | preg r =>
        rw [hs] at hkind hmv
        obtain ⟨hq, hr, hle⟩ := hkind.resolve_right fun ⟨hqx, hrx⟩ => by
          rcases hmv with h | h <;> cases h
          · exact absurd (hx.symm.trans hqx) (by decide)
          · exact absurd (hx.symm.trans hrx) (by decide)
        refine ⟨hq, hle, ?_⟩
        simp only [isXmmPreg, hs]
        exact not_isXmm_of_isGpr hr
    have hdx : isXmmPreg mv.dst = false := by
      simp only [isXmmPreg, hd]
      exact not_isXmm_of_isGpr hq.1
    rw [parksVec, hdx, hq.2.2, wideSize_of_small hq.2.1]
    rfl
  | slot s =>
    have hsrc : mv.src.kind = .preg p := hmv.resolve_left (by rw [hd]; simp)
    rw [hd, hsrc] at hkind
    have hle : mv.dst.size ≤ 8 := (hkind.resolve_right fun h => by
      exact absurd (hx.symm.trans h.1) (by decide)).2.1
    have hsx : isXmmPreg mv.src = false := by
      simp only [isXmmPreg, hsrc]
      exact hx
    rw [parksVec, hsx, wideSize_of_small hle, isXmmPreg, hd]
    rfl

theorem ofClass_parksVec {mv : CopyMove} {k : CopyKind} (h : LegalMove L mv)
    (hk : k = mv.dst.kind ∨ k = mv.src.kind) (himm : ∀ v, k ≠ .imm v) :
    OfClass (parksVec mv) k := by
  cases k with
  | slot s => trivial
  | imm v => exact absurd rfl (himm v)
  | preg p =>
    have hok : isGpr p = true ∨ p.isXmm = true := by
      rcases hk with hk | hk
      · have := h.kinds.1
        rwa [← hk] at this
      · have := h.kinds.2
        rwa [← hk] at this
    rcases hok with hp | hp
    · rw [parksVec_of_gpr h hp (hk.imp Eq.symm Eq.symm)]
      exact hp
    · have hvec : parksVec mv = true := by
        simp only [parksVec, Bool.or_eq_true, isXmmPreg_iff]
        exact .inl (hk.imp (fun h => ⟨p, h.symm, hp⟩) (fun h => ⟨p, h.symm, hp⟩))
      rw [hvec]
      exact hp

theorem small_of_parksVec {mv : CopyMove} (h : LegalMove L mv) (hv : parksVec mv = false) :
    mv.dst.size ≤ 8 := by
  simp only [parksVec, Bool.or_eq_false_iff] at hv
  exact small_of_wideSize h.dstSize hv.2

/-! ## A cycle is opened -/

theorem LegalMove.congr {a b : CopyMove} (h : LegalMove L b) (hd : a.dst = b.dst)
    (hs : a.src = b.src) : LegalMove L a := by
  obtain ⟨h₁, h₂, h₃, h₄⟩ := h
  constructor <;> simpa only [hd, hs]

theorem Plain.legal (hl : Legal L moves) (h : Inv L moves m₀ st) (hp : Plain moves st)
    (hi : i ∈ st.waiting) : LegalMove L (st.move i) :=
  (hl.legal i (h.lt hi)).congr (h.dst i) (hp i hi)

/-- The value of the first destination of a cycle is parked where the move that reads it can
take it: a register gets it from a register of its class, and a slot has room for the size
with which it is parked. -/
def ParkFits (L : Layout) (m₀ last : CopyMove) : Prop :=
  match last.dst.kind with
  | .preg p => (if parksVec m₀ then p.isXmm else isGpr p) = true
  | .slot s => if parksVec m₀ then words (parkSize m₀ last) ≤ L.room s else last.dst.size ≤ 8
  | .imm _ => True

section ParkFits

variable {mv last : CopyMove}

theorem ParkFits.ofClass (h : ParkFits L mv last) (hl : LegalMove L last) :
    OfClass (parksVec mv) last.dst.kind := by
  unfold ParkFits at h
  cases hd : last.dst.kind with
  | preg p =>
    rw [hd] at h
    exact h
  | slot s => trivial
  | imm v => exact absurd hd (hl.dst_not_imm v)

theorem ParkFits.small (h : ParkFits L mv last) (hl : LegalMove L last)
    (hv : parksVec mv = false) : last.dst.size ≤ 8 := by
  unfold ParkFits at h
  rw [hv] at h
  cases hd : last.dst.kind with
  | preg p =>
    rw [hd] at h
    exact small_of_parksVec hl (parksVec_of_gpr hl h (.inl hd))
  | slot s =>
    rw [hd] at h
    exact h
  | imm v => exact absurd hd (hl.dst_not_imm v)

theorem isSize_parkSize (h : LegalMove L mv) (hl : LegalMove L last) : IsSize (parkSize mv last) :=
  isSize_max h.dstSize (isSize_max hl.srcSize hl.dstSize)

theorem ParkFits.emittable (h : ParkFits L mv last) (h₀ : LegalMove L mv) (hl : LegalMove L last) :
    Emittable L last.dst (cycleScratch (parksVec mv) (parkSize mv last)) := by
  refine emittable_of_cycleScratch (isSize_parkSize h₀ hl) hl.dstSize (h.ofClass hl) (h.small hl)
    fun s hs => ⟨hl.dstRoom s hs, fun hv => ?_⟩
  unfold ParkFits at h
  rw [hs, hv] at h
  exact h

theorem ParkFits.parked (h : ParkFits L mv last) (h₀ : LegalMove L mv) (hl : LegalMove L last)
    (m : Machine) : ∃ w, IsSize w ∧ last.dst.size ≤ w ∧
      Moves L ⟨(cycleScratch (parksVec mv) (parkSize mv last)).kind, w⟩ mv.dst.kind m
        (run (emitMove L.addr (cycleScratch (parksVec mv) (parkSize mv last))
          { mv.dst with size := parkSize mv last }) m) := by
  have hsize := isSize_parkSize h₀ hl
  have hclass := ofClass_parksVec h₀ (.inl rfl) h₀.dst_not_imm
  have hle : last.dst.size ≤ parkSize mv last :=
    Nat.le_trans (Nat.le_max_right _ _) (Nat.le_max_right _ _)
  by_cases hfit : parksVec mv = true ∨ parkSize mv last ≤ 8
  · refine ⟨_, hsize, hle, ?_⟩
    exact @emitMove_spec L _ { mv.dst with size := parkSize mv last } m
      (emittable_cycleScratch hsize hsize hclass fun hv => hfit.resolve_left (by simp [hv]))
  · rw [not_or, Bool.not_eq_true] at hfit
    obtain ⟨hv, hwide⟩ := hfit
    rw [hv] at hclass ⊢
    rw [emitMove_gpr_wide (by omega)]
    have h8 : IsSize 8 := .inr (.inl rfl)
    exact ⟨8, h8, h.small hl hv, @emitMove_spec L _ ⟨mv.dst.kind, 8⟩ m
      (emittable_cycleScratch h8 h8 hclass fun _ => Nat.le_refl 8)⟩

end ParkFits

theorem Inv.park (hl : Legal L moves) (h : Inv L moves m₀ st) (hp : Plain moves st) {last : Nat}
    (hi : i ∈ st.waiting) (hlast : last ∈ st.waiting)
    (hread : sameLoc (st.move i).dst (st.move last).src = true)
    (hfits : ParkFits L (st.move i) (st.move last)) :
    Inv L moves m₀ (park L.addr st i last) := by
  have h₀ := hp.legal hl h hi
  have hll := hp.legal hl h hlast
  obtain ⟨w, hw, hle, hmoves⟩ := hfits.parked h₀ hll (run st.code m₀)
  refine h.setSrc (h.lt hlast) ?_
  refine h.progress.park hl (h.lt hlast) (mem_waiting.mp hlast).2 ?_
    (isPark_cycleScratch _ _) ?_ hw ?_ ?_
  · intro j hj _ hdj
    exact hp j (mem_waiting.mpr ⟨h.length ▸ hj, hdj⟩)
  · rw [← h.dst]
    exact hfits.emittable h₀ hll
  · rw [← h.dst]
    exact hle
  · rw [← (sameLoc_iff.mp hread).1]
    exact hmoves

/-! ## Two moves are swapped -/

theorem Inv.finishTwo {code : List CopyInst} (h : Inv L moves m₀ st) (hi : i < moves.length)
    (hj : j < moves.length)
    (hp : Progress L moves m₀ (update (update (fun j => (st.move j).done) i true) j true)
      (fun i => (st.move i).src) (run code (run st.code m₀))) :
    Inv L moves m₀ (((st.emit code).finish i).finish j) := by
  have hlt : i < (st.emit code).moves.length := by
    rw [length_emit, h.length]
    exact hi
  have hlt' : j < ((st.emit code).finish i).moves.length := by
    rw [length_finish, length_emit, h.length]
    exact hj
  refine ⟨by simp [h.length], fun k => ?_, ?_⟩
  · rw [dst_finish hlt', dst_finish hlt, move_emit, h.dst]
  · have hcode : run (((st.emit code).finish i).finish j).code m₀ = run code (run st.code m₀) :=
      run_append st.code code m₀
    rw [hcode, done_finish hlt', done_finish hlt]
    simp only [src_finish hlt', src_finish hlt, move_emit]
    exact hp

theorem Emittable.resize {dst src src' : CopyOperand} (h : Emittable L dst src)
    (hk : src'.kind = src.kind) (hs : IsSize src'.size)
    (hroom : ∀ s, dst.kind = .slot s → words src'.size ≤ L.room s) : Emittable L dst src' := by
  obtain ⟨hd, -, hkind⟩ := h
  refine ⟨hd, hs, ?_⟩
  rw [hk]
  cases hdk : dst.kind <;> cases hsk : src.kind <;> rw [hdk, hsk] at hkind
  case slot.preg => exact hkind.imp_right fun ⟨hx, hw, _⟩ => ⟨hx, hw, hroom _ hdk⟩
  case slot.slot => exact ⟨hkind.1, hroom _ hdk⟩
  all_goals exact hkind

theorem isXmmPreg_congr {a b : CopyOperand} (h : a.kind = b.kind) : isXmmPreg a = isXmmPreg b := by
  rw [isXmmPreg, isXmmPreg, h]

theorem isGprPreg_iff {op : CopyOperand} :
    isGprPreg op = true ↔ ∃ p, op.kind = .preg p ∧ isGpr p = true := by
  unfold isGprPreg
  cases op.kind <;> simp

/-- Two moves that read each other's destination, which no other move reads. -/
structure Swap (st : Emission) (i j : Nat) : Prop where
  left : i ∈ st.waiting
  right : j ∈ st.waiting
  ne : i ≠ j
  leftReads : sameLoc (st.move j).dst (st.move i).src = true
  rightReads : sameLoc (st.move i).dst (st.move j).src = true
  onlyLeft : ∀ k ∈ st.waiting, sameLoc (st.move j).dst (st.move k).src = true → k = i
  onlyRight : ∀ k ∈ st.waiting, sameLoc (st.move i).dst (st.move k).src = true → k = j

theorem Swap.unread {k : Nat} (hs : Swap st i j) (hk : k < st.moves.length) (hd : (st.move k).done = false) :
    (k ≠ j → sameLoc (st.move i).dst (st.move k).src = false) ∧
      (k ≠ i → sameLoc (st.move j).dst (st.move k).src = false) := by
  have hwait := mem_waiting.mpr ⟨hk, hd⟩
  exact ⟨fun hne => Bool.eq_false_iff.mpr fun h => hne (hs.onlyRight k hwait h),
    fun hne => Bool.eq_false_iff.mpr fun h => hne (hs.onlyLeft k hwait h)⟩

section

variable (hl : Legal L moves) (h : Inv L moves m₀ st) (hp : Plain moves st) (hs : Swap st i j)
include hl h hp hs

theorem Swap.exchange (hi : isGprPreg (st.move i).dst = true)
    (hj : isGprPreg (st.move j).dst = true) :
    Inv L moves m₀ (((st.emit [.xchg
      (if (st.move i).dst.size = 4 ∧ (st.move j).dst.size = 4 then 4 else 8)
      (gprOf (st.move i).dst) (gprOf (st.move j).dst)]).finish i).finish j) := by
  obtain ⟨p, hip, hpg⟩ := isGprPreg_iff.mp hi
  obtain ⟨q, hjq, hqg⟩ := isGprPreg_iff.mp hj
  have hli := hp.legal hl h hs.left
  have hlj := hp.legal hl h hs.right
  have hsi := small_of_parksVec hli (parksVec_of_gpr hli hpg (.inl hip))
  have hsj := small_of_parksVec hlj (parksVec_of_gpr hlj hqg (.inl hjq))
  have hgi : gprOf (st.move i).dst = asGpr p := by rw [gprOf, hip]
  have hgj : gprOf (st.move j).dst = asGpr q := by rw [gprOf, hjq]
  rw [hgi, hgj]
  refine h.finishTwo (h.lt hs.left) (h.lt hs.right) ?_
  refine h.progress.exchange hl (h.lt hs.left) (h.lt hs.right) hs.ne
    (mem_waiting.mp hs.left).2 (mem_waiting.mp hs.right).2 hpg hqg ?_ ?_ ?_ ?_ ?_
    ?_ ?_ ?_
  · rw [← h.dst, hip]
  · rw [← h.dst, hjq]
  · rw [← (sameLoc_iff.mp hs.leftReads).1, hjq]
  · rw [← (sameLoc_iff.mp hs.rightReads).1, hip]
  · intro k hk hki hkj hdk
    rw [← h.dst, ← h.dst]
    obtain ⟨h₁, h₂⟩ := hs.unread (h.length ▸ hk) hdk
    exact ⟨h₁ hkj, h₂ hki⟩
  · rw [← h.dst, ← h.dst]
    exact ⟨hsi, hsj⟩
  · rw [← h.dst]
    split <;> omega
  · rw [← h.dst]
    split <;> omega

theorem Swap.through (hvec : vec = parksVec (st.move i)) :
    Inv L moves m₀ (((st.emit (emitMove L.addr (cycleScratch vec (st.move i).dst.size)
        (st.move i).src ++ emitMove L.addr (st.move j).dst (st.move i).dst ++
      emitMove L.addr (st.move i).dst (cycleScratch vec (st.move i).dst.size))).finish i).finish j) := by
  subst hvec
  have hi := h.lt hs.left
  have hj := h.lt hs.right
  have hli := hp.legal hl h hs.left
  have hlj := hp.legal hl h hs.right
  have hdi := (mem_waiting.mp hs.left).2
  have hdj := (mem_waiting.mp hs.right).2
  obtain ⟨hkl, hnotl⟩ := sameLoc_iff.mp hs.leftReads
  obtain ⟨hkr, -⟩ := sameLoc_iff.mp hs.rightReads
  have hsmall := small_of_parksVec hli
  have hpark := isPark_cycleScratch (parksVec (st.move i)) (st.move i).dst.size
  have hinto : Emittable L (cycleScratch (parksVec (st.move i)) (st.move i).dst.size)
      (st.move i).src := emittable_cycleScratch hli.dstSize hli.srcSize
    (ofClass_parksVec hli (.inr rfl) (hkl ▸ hnotl)) hsmall
  have hfrom : Emittable L (st.move i).dst
      (cycleScratch (parksVec (st.move i)) (st.move i).dst.size) :=
    emittable_of_cycleScratch hli.dstSize hli.dstSize
      (ofClass_parksVec hli (.inl rfl) hli.dst_not_imm) hsmall
      fun s hs => ⟨hli.dstRoom s hs, fun _ => hli.dstRoom s hs⟩
  have hacross : Emittable L (st.move j).dst (st.move i).dst :=
    hlj.emittable.resize hkr hli.dstSize fun s hs => hli.room s (hkl ▸ hs)
  have hsize : (cycleScratch (parksVec (st.move i)) (st.move i).dst.size).size =
      (st.move i).dst.size := rfl
  generalize cycleScratch (parksVec (st.move i)) (st.move i).dst.size = scr at *
  have hnot : ∀ k < moves.length, sameLoc (st.move k).dst scr = false := by
    intro k hk
    rw [Bool.eq_false_iff, h.dst]
    intro hsame
    obtain ⟨hkind, -⟩ := sameLoc_iff.mp hsame
    rcases hpark with hscr | hscr <;> rw [hscr] at hkind
    · exact (hl.legal k hk).dstReg _ hkind (.inl rfl)
    · exact (hl.legal k hk).dstReg _ hkind (.inr (.inr (.inl rfl)))
  refine h.finishTwo hi hj ?_
  rw [run_append, run_append, update_comm hs.ne]
  generalize hm₁ : run (emitMove L.addr scr (st.move i).src) (run st.code m₀) = m₁
  generalize hm₂ : run (emitMove L.addr (st.move j).dst (st.move i).dst) m₁ = m₂
  have hp₁ : Progress L moves m₀ (fun k => (st.move k).done)
      (update (fun k => (st.move k).src) i scr) m₁ := by
    refine h.progress.park hl hi hdi
      (fun k hk _ hdk => hp k (mem_waiting.mpr ⟨h.length ▸ hk, hdk⟩)) hpark
      (h.dst i ▸ hfrom) hli.dstSize (by rw [← h.dst]) ?_
    rw [← hm₁, ← hsize]
    exact emitMove_spec hinto
  have hp₂ : Progress L moves m₀ (update (fun k => (st.move k).done) j true)
      (update (fun k => (st.move k).src) i scr) m₂ := by
    refine hp₁.emit hl hj hdj (fun k hk hkj hdk => ?_) ?_
    · rw [← h.dst]
      by_cases hki : k = i
      · rw [hki, update_self]
        exact hnot j hj
      · rw [update_of_ne hki]
        exact (hs.unread (h.length ▸ hk) hdk).2 hki
    · rw [update_of_ne hs.ne.symm, ← hkr, ← h.dst, ← hm₂]
      exact emitMove_spec hacross
  have hp₃ : Progress L moves m₀ (update (update (fun k => (st.move k).done) j true) i true)
      (update (fun k => (st.move k).src) i scr)
      (run (emitMove L.addr (st.move i).dst scr) m₂) := by
    refine hp₂.emit hl hi ?_ (fun k hk hki hdk => ?_) ?_
    · rw [update_of_ne hs.ne]
      exact hdi
    · rw [← h.dst, update_of_ne hki]
      have hkj : k ≠ j := by
        rintro rfl
        rw [update_self] at hdk
        exact absurd hdk (by decide)
      rw [update_of_ne hkj] at hdk
      exact (hs.unread (h.length ▸ hk) hdk).1 hkj
    · rw [update_self, ← h.dst]
      exact emitMove_spec hfrom
  refine hp₃.congr fun k hdk => ?_
  have hki : k ≠ i := by
    rintro rfl
    rw [update_self] at hdk
    exact absurd hdk (by decide)
  rw [update_of_ne hki]

theorem Inv.swapTwo : Inv L moves m₀ (swapTwo L.addr st i j) := by
  obtain ⟨hkl, -⟩ := sameLoc_iff.mp hs.leftReads
  obtain ⟨hkr, -⟩ := sameLoc_iff.mp hs.rightReads
  unfold Copy.swapTwo
  dsimp only
  split
  · rename_i hgpr
    simp only [Bool.and_eq_true] at hgpr
    exact hs.exchange hl h hp hgpr.1.1.1 hgpr.1.1.2
  · refine hs.through hl h hp ?_
    rw [parksVec, isXmmPreg_congr hkl, ← isXmmPreg_congr hkr]
    cases isXmmPreg (st.move i).dst <;> cases isXmmPreg (st.move i).src <;> rfl

end

/-! ## The loop -/

/-- Three or more moves, each of which reads what the next one writes, and the last what the
first writes; the first comes first in the list. -/
structure LongCycle (moves : List CopyMove) (start last : Nat) (cycle : List Nat) : Prop where
  three : 3 ≤ cycle.length
  nodup : cycle.Nodup
  mem : ∀ i ∈ cycle, start ≤ i ∧ i < moves.length
  head : cycle.head? = some start
  ends : cycle.getLast? = some last
  reads : cycle.IsChain fun i j =>
    sameLoc (moves.getD j default).dst (moves.getD i default).src = true
  closed : sameLoc (moves.getD start default).dst (moves.getD last default).src = true

theorem ParkFits.congr {a b a' b' : CopyMove} (h : ParkFits L a b) (had : a'.dst = a.dst)
    (has : a'.src = a.src) (hbd : b'.dst = b.dst) (hbs : b'.src = b.src) : ParkFits L a' b' := by
  unfold ParkFits parksVec parkSize at *
  rwa [had, has, hbd, hbs]

theorem Cycle.longCycle (h : Inv L moves m₀ st) (hp : Plain moves st) {last : Nat} {c : List Nat}
    (hc : Cycle st start last c) (hfirst : ∀ i ∈ st.waiting, start ≤ i)
    (hthree : 3 ≤ (c ++ [last]).length) : LongCycle moves start last (c ++ [last]) where
  three := hthree
  nodup := hc.nodup
  mem i hi := ⟨hfirst i (hc.subset i hi), h.lt (hc.subset i hi)⟩
  head := hc.head
  ends := getLast?_concat ..
  reads := by
    refine List.IsChain.imp_of_mem_imp (fun i j hi _ hij => ?_) hc.chain
    rw [← h.dst, ← hp i (hc.subset i hi)]
    exact (nextInCycle_eq_some hij).2
  closed := by
    rw [← h.dst, ← hp last (hc.subset last (by simp))]
    exact (nextInCycle_eq_some hc.closed).2

/-- What the loop does with a cycle: it makes two moves, or parks a value so that a move can
be made. -/
structure Broken (L : Layout) (moves : List CopyMove) (m₀ : Machine) (st st' : Emission) : Prop where
  inv : Inv L moves m₀ st'
  smaller : st'.waiting.card < st.waiting.card ∨
    (st'.waiting.card = st.waiting.card ∧ ∃ i ∈ st'.waiting, st'.dstUsed (st'.move i) = false)

theorem Swap.broken (hl : Legal L moves) (h : Inv L moves m₀ st) (hp : Plain moves st)
    (hs : Swap st i j) : Broken L moves m₀ st (Copy.swapTwo L.addr st i j) := by
  refine ⟨h.swapTwo hl hp hs, .inl ?_⟩
  have hi : i < st.moves.length := (mem_waiting.mp hs.left).1
  have hj : j < st.moves.length := (mem_waiting.mp hs.right).1
  unfold Copy.swapTwo
  dsimp only
  rw [waiting_finish (by simpa using hj), waiting_finish (by simpa using hi), waiting_emit]
  refine Nat.lt_of_le_of_lt (Finset.card_le_card (Finset.erase_subset _ _)) ?_
  exact Finset.card_erase_lt_of_mem hs.left

theorem park_broken (hl : Legal L moves) (h : Inv L moves m₀ st) (hp : Plain moves st)
    (hs : Stuck st) {last : Nat} (hi : i ∈ st.waiting) (hlast : last ∈ st.waiting)
    (hread : sameLoc (st.move i).dst (st.move last).src = true)
    (hfits : ParkFits L (st.move i) (st.move last)) :
    Broken L moves m₀ st (Copy.park L.addr st i last) := by
  have hlt : last < st.moves.length := (mem_waiting.mp hlast).1
  have hinv := h.park hl hp hi hlast hread hfits
  have hw : (Copy.park L.addr st i last).waiting = st.waiting := waiting_setSrc hlt _
  refine ⟨hinv, .inr ⟨by rw [hw], i, hw ▸ hi, ?_⟩⟩
  -- Only the last move read the first destination, and it reads the scratch register now.
  rw [Bool.eq_false_iff, ne_eq, dstUsed_iff]
  rintro ⟨j, hj, hsame⟩
  rw [hw] at hj
  rw [hinv.dst, ← h.dst i] at hsame
  rw [Copy.park, move_setSrc (by simpa using hlt)] at hsame
  split at hsame
  · obtain ⟨hkind, -⟩ := sameLoc_iff.mp hsame
    rw [h.dst] at hkind
    have hlegal := hl.legal i (h.lt hi)
    rcases isPark_cycleScratch (parksVec (st.move i)) (parkSize (st.move i) (st.move last)) with
      hscr | hscr <;> rw [hscr] at hkind
    · exact hlegal.dstReg _ hkind (.inl rfl)
    · exact hlegal.dstReg _ hkind (.inr (.inr (.inl rfl)))
  · rename_i hne
    exact hne (hs.reader_unique hl h hi hj hlast hsame hread)

theorem Cycle.swap (hl : Legal L moves) (h : Inv L moves m₀ st) (hs : Stuck st)
    (hc : Cycle st i j [i]) : Swap st i j := by
  have hi : i ∈ st.waiting := hc.subset i (by simp)
  have hj : j ∈ st.waiting := hc.subset j (by simp)
  have hij : nextInCycle st i = some j := by
    have := hc.chain
    simpa using this
  have hleft := (nextInCycle_eq_some hij).2
  have hright := (nextInCycle_eq_some hc.closed).2
  have hne : i ≠ j := by
    have := hc.nodup
    simpa using this
  exact ⟨hi, hj, hne, hleft, hright, fun k hk hkj => hs.reader_unique hl h hj hk hi hkj hleft,
    fun k hk hki => hs.reader_unique hl h hi hk hj hki hright⟩

theorem breakCycle_spec (hl : Legal L moves)
    (hself : ∀ i < moves.length, sameLoc (moves.getD i default).dst (moves.getD i default).src = false)
    (hfits : ∀ start last cycle, LongCycle moves start last cycle → ParkFits L (moves.getD start default) (moves.getD last default))
    (h : Inv L moves m₀ st) (hs : Stuck st) {last : Nat} {c : List Nat}
    (hc : Cycle st start last c) (hfirst : ∀ i ∈ st.waiting, start ≤ i) :
    Broken L moves m₀ st (breakCycle L.addr st start (c ++ [last])) := by
  have hp := hs.plain hl h
  have hlast : last ∈ st.waiting := hc.subset last (by simp)
  have hread := (nextInCycle_eq_some hc.closed).2
  match c, hc with
  | [], hc =>
    obtain rfl : last = start := by
      have := hc.head
      simpa using this
    have hnot := hself last (h.lt hlast)
    rw [← h.dst, ← hp last hlast, hread] at hnot
    exact absurd hnot (by decide)
  | [i₀], hc =>
    obtain rfl : i₀ = start := by
      have := hc.head
      simpa using this
    exact (hc.swap hl h hs).broken hl h hp
  | i₀ :: i₁ :: c, hc =>
    obtain rfl : i₀ = start := by
      have := hc.head
      simpa using this
    have hlong := hc.longCycle h hp hfirst (by simp)
    obtain ⟨x, t, hxt⟩ : ∃ x t, c ++ [last] = x :: t := exists_cons_of_ne_nil (by simp)
    have hbreak : breakCycle L.addr st i₀ (i₀ :: i₁ :: c ++ [last]) =
        Copy.park L.addr st i₀ last := by
      have hgetLast : (i₀ :: i₁ :: x :: t).getLastD i₀ = last := by
        rw [← hxt, getLastD_eq_getLast?, ← cons_append, ← cons_append, getLast?_concat]
        rfl
      rw [cons_append, cons_append, hxt, breakCycle, hgetLast]
      simp
    rw [hbreak]
    have hi : i₀ ∈ st.waiting := hc.subset i₀ (by simp)
    refine park_broken hl h hp hs hi hlast hread ?_
    exact (hfits _ _ _ hlong).congr (h.dst _) (hp _ hi) (h.dst _) (hp _ hlast)

theorem firstWaiting (h : st.moves.findIdx? (fun m => !m.done) = some start) :
    start ∈ st.waiting ∧ ∀ i ∈ st.waiting, start ≤ i := by
  obtain ⟨hlt, hp, hbefore⟩ := findIdx?_eq_some_iff_getElem.mp h
  have hget : ∀ i, (hi : i < st.moves.length) → st.moves[i] = st.move i := by
    intro i hi
    have := move_eq hi
    rwa [getElem?_eq_getElem hi, Option.some_inj] at this
  rw [hget, Bool.not_eq_true'] at hp
  refine ⟨mem_waiting.mpr ⟨hlt, hp⟩, fun i hi => ?_⟩
  obtain ⟨hi', hd⟩ := mem_waiting.mp hi
  by_contra hlt'
  have hnot := hbefore i (by omega)
  rw [hget, hd] at hnot
  exact hnot rfl

/-- The loop ends, with all moves made. -/
theorem emitLoop_spec (hl : Legal L moves)
    (hself : ∀ i < moves.length, sameLoc (moves.getD i default).dst (moves.getD i default).src = false)
    (hfits : ∀ start last cycle, LongCycle moves start last cycle →
      ParkFits L (moves.getD start default) (moves.getD last default))
    (fuel : Nat) : ∀ st, Inv L moves m₀ st →
    (st.waiting.card < fuel ∨
      (st.waiting.card = fuel ∧ ∃ i ∈ st.waiting, st.dstUsed (st.move i) = false)) →
    ∃ st', emitLoop L.addr fuel st = some st'.code ∧ Inv L moves m₀ st' ∧ st'.waiting = ∅ := by
  induction fuel with
  | zero =>
    rintro st - (hlt | ⟨hcard, i, hi, -⟩)
    · exact absurd hlt (Nat.not_lt_zero _)
    · rw [Finset.card_eq_zero.mp hcard] at hi
      exact absurd hi (Finset.notMem_empty i)
  | succ fuel ih =>
    intro st h hfuel
    have hle : st.waiting.card ≤ st.moves.length := by
      refine Nat.le_trans (Finset.card_filter_le _ _) ?_
      rw [Finset.card_range]
    obtain ⟨st₁, hpeel, h₁, hsrc, hsub, hs⟩ := peelAll_spec hl (st.moves.length + 1) st h (by omega)
    have hcard : st₁.waiting.card ≤ fuel := by
      have hmono := Finset.card_le_card hsub
      rcases hfuel with hlt | ⟨heq, i, hi, hunused⟩
      · omega
      · -- A move could be made, so it was.
        have hne : st₁.waiting.card ≠ st.waiting.card := by
          intro hsame
          have hw := Finset.eq_of_subset_of_card_le hsub (Nat.le_of_eq hsame.symm)
          obtain ⟨j, hj, hread⟩ := dstUsed_iff.mp (hs i (hw ▸ hi))
          rw [hsrc, h₁.dst, ← h.dst] at hread
          have hused := dstUsed_iff.mpr ⟨j, hw ▸ hj, hread⟩
          rw [hunused] at hused
          exact absurd hused (by decide)
        omega
    rw [emitLoop, hpeel]
    simp only [Option.bind_eq_bind, Option.bind_some]
    cases hfind : st₁.moves.findIdx? (fun m => !m.done) with
    | none =>
      refine ⟨st₁, rfl, h₁, Finset.eq_empty_of_forall_notMem fun i hi => ?_⟩
      obtain ⟨hlt, hd⟩ := mem_waiting.mp hi
      have := findIdx?_eq_none_iff.mp hfind _ (move_mem hlt)
      rw [hd] at this
      exact absurd this (by decide)
    | some start =>
      obtain ⟨hstart, hfirst⟩ := firstWaiting hfind
      have hlen : st₁.waiting.card ≤ st₁.moves.length := by
        refine Nat.le_trans (Finset.card_filter_le _ _) ?_
        rw [Finset.card_range]
      obtain ⟨c, last, htrace, hc⟩ := traceCycle_spec hl h₁ hs (st₁.moves.length + 1) [] start
        ⟨by simp, by simpa using hstart, by simp, rfl⟩ (by
          rw [length_nil]
          omega)
      have hbroken := breakCycle_spec hl hself hfits h₁ hs hc hfirst
      simp only [htrace, Option.bind_some]
      refine ih _ hbroken.inv ?_
      rcases hbroken.smaller with hlt | ⟨heq, hunused⟩
      · exact .inl (by omega)
      · rcases Nat.lt_or_ge (breakCycle L.addr st₁ start (c ++ [last])).waiting.card fuel with hlt | hge
        · exact .inl hlt
        · exact .inr ⟨by omega, hunused⟩

end Run

/-! ## All moves at once -/

/-- Every destination gets the value that its source had, and nothing else changes but the
scratch registers. -/
structure Realizes (L : Layout) (moves : List CopyMove) (m m' : Machine) : Prop where
  values : ∀ mv ∈ moves, SameBytes mv.dst.size (read L m' mv.dst.kind) (read L m mv.src.kind)
  frame : ∀ l, (∀ mv ∈ moves, ¬ Owns L mv.dst.kind l) → ¬ Scratch l → m' l = m l

section Copies

variable {L : Layout} {moves : List CopyMove}

theorem sameLoc_comm (a b : CopyOperand) : sameLoc a b = sameLoc b a := by
  rw [Bool.eq_iff_iff, sameLoc_iff, sameLoc_iff]
  constructor
  · rintro ⟨h, hn⟩
    exact ⟨h.symm, h ▸ hn⟩
  · rintro ⟨h, hn⟩
    exact ⟨h.symm, h ▸ hn⟩

theorem getD_mem {i : Nat} (h : i < moves.length) : moves.getD i default ∈ moves := by
  rw [getD_eq_getElem?_getD, getElem?_eq_getElem h]
  exact getElem_mem h

theorem Legal.of_pairwise (hlegal : ∀ mv ∈ moves, LegalMove L mv)
    (hdistinct : moves.Pairwise fun a b => sameLoc a.dst b.dst = false) : Legal L moves := by
  refine ⟨fun i hi => hlegal _ (getD_mem hi), fun i hi j hj hne => ?_⟩
  have hpair := pairwise_iff_getElem.mp hdistinct
  have hget : ∀ k, (hk : k < moves.length) → moves.getD k default = moves[k] := by
    intro k hk
    rw [getD_eq_getElem?_getD, getElem?_eq_getElem hk]
    rfl
  rw [hget i hi, hget j hj]
  rcases Nat.lt_or_gt_of_ne hne with hlt | hgt
  · exact hpair i j hi hj hlt
  · rw [sameLoc_comm]
    exact hpair j i hj hi hgt

def copiesOf (moves : List CopyMove) : List CopyMove :=
  movesOf (moves.map (fun m => m.dst)) (moves.map (fun m => m.src))

theorem copiesOf_eq : copiesOf moves = (moves.filter (fun m => !sameLoc m.dst m.src)).map
    (fun m => { dst := m.dst, src := m.src }) := by
  rw [copiesOf, movesOf, zip_map', filter_map, map_map]
  rfl

theorem mem_copiesOf {mv : CopyMove} : mv ∈ copiesOf moves ↔
    ∃ m ∈ moves, sameLoc m.dst m.src = false ∧ mv = { dst := m.dst, src := m.src } := by
  rw [copiesOf_eq, mem_map]
  constructor
  · rintro ⟨m, hm, rfl⟩
    obtain ⟨hmem, hne⟩ := mem_filter.mp hm
    exact ⟨m, hmem, by simpa using hne, rfl⟩
  · rintro ⟨m, hmem, hne, rfl⟩
    exact ⟨m, mem_filter.mpr ⟨hmem, by simpa using hne⟩, rfl⟩

section

variable (hlegal : ∀ mv ∈ moves, LegalMove L mv)
  (hdistinct : moves.Pairwise fun a b => sameLoc a.dst b.dst = false)
include hlegal hdistinct

theorem legal_copiesOf : Legal L (copiesOf moves) := by
  refine Legal.of_pairwise (fun mv hmv => ?_) ?_
  · obtain ⟨m, hm, -, rfl⟩ := mem_copiesOf.mp hmv
    exact (hlegal m hm).congr rfl rfl
  · rw [copiesOf_eq, pairwise_map]
    exact hdistinct.filter _

/-- A copy of an operand to itself has nothing to do. -/
theorem Realizes.of_copies {m m' : Machine}
    (h : Realizes L (copiesOf moves) m m') : Realizes L moves m m' := by
  refine ⟨fun mv hmv => ?_, fun l hl hs => h.frame l (fun c hc hown => ?_) hs⟩
  · cases hself : sameLoc mv.dst mv.src with
    | false => exact h.values { dst := mv.dst, src := mv.src } (mem_copiesOf.mpr ⟨mv, hmv, hself, rfl⟩)
    | true =>
      rw [← (sameLoc_iff.mp hself).1]
      refine read_congr (hlegal mv hmv).dstSize (hlegal mv hmv).dstRoom fun l hown => ?_
      refine h.frame l (fun c hc hownc => ?_) ((hlegal mv hmv).dst_not_scratch hown)
      obtain ⟨m₁, hm₁, hne, rfl⟩ := mem_copiesOf.mp hc
      have hkind := owns_unique (hlegal m₁ hm₁).kinds.1 (hlegal mv hmv).kinds.1 hownc hown
      have hsame : sameLoc m₁.dst mv.dst = true :=
        sameLoc_iff.mpr ⟨hkind, not_imm_of_owns hownc⟩
      have heq : m₁ = mv := by
        by_contra hdiff
        have hsymm : Std.Symm fun a b : CopyMove => sameLoc a.dst b.dst = false :=
          ⟨fun a b hab => (sameLoc_comm _ _).trans hab⟩
        have := hdistinct.forall hm₁ hmv hdiff
        rw [hsame] at this
        exact absurd this (by decide)
      rw [heq, hself] at hne
      exact absurd hne (by decide)
  · obtain ⟨m₁, hm₁, -, rfl⟩ := mem_copiesOf.mp hc
    exact hl m₁ hm₁ hown

end

theorem emitParallelCopy_copies (hl : Legal L (copiesOf moves))
    (hfits : ∀ start last cycle, LongCycle (copiesOf moves) start last cycle →
      ParkFits L ((copiesOf moves).getD start default) ((copiesOf moves).getD last default))
    (m : Machine) : ∃ code,
      emitParallelCopy L.addr (moves.map (fun m => m.dst)) (moves.map (fun m => m.src)) =
        some code ∧ Realizes L (copiesOf moves) m (run code m) := by
  have hself : ∀ i < (copiesOf moves).length, sameLoc ((copiesOf moves).getD i default).dst
      ((copiesOf moves).getD i default).src = false := by
    intro i hi
    obtain ⟨m₁, -, hne, heq⟩ := mem_copiesOf.mp (getD_mem hi)
    rw [heq]
    exact hne
  have hinit : Inv L (copiesOf moves) m ⟨copiesOf moves, []⟩ := by
    refine ⟨rfl, fun _ => rfl, ?_⟩
    have hdone : (fun i => (move ⟨copiesOf moves, []⟩ i).done) = fun _ => false := by
      funext i
      by_cases hi : i < (copiesOf moves).length
      · obtain ⟨m₁, -, -, heq⟩ := mem_copiesOf.mp (getD_mem hi)
        rw [move, heq]
      · rw [move, getD_eq_getElem?_getD, getElem?_eq_none (by simpa using hi)]
        rfl
    rw [hdone]
    exact Progress.init L _ m
  have hcard : (waiting ⟨copiesOf moves, []⟩).card ≤ moves.length := by
    refine Nat.le_trans (Finset.card_filter_le _ _) ?_
    rw [Finset.card_range, copiesOf_eq, length_map]
    exact length_filter_le _ _
  obtain ⟨st, hloop, hinv, hnone⟩ := emitLoop_spec hl hself hfits (2 * moves.length + 2) _ hinit
    (.inl (by omega))
  have hall : ∀ i < (copiesOf moves).length, (st.move i).done = true := by
    intro i hi
    by_contra hd
    have hmem := mem_waiting.mpr ⟨hinv.length ▸ hi, by simpa using hd⟩
    rw [hnone] at hmem
    exact absurd hmem (Finset.notMem_empty i)
  have hreal : Realizes L (copiesOf moves) m (run st.code m) := by
    refine ⟨fun mv hmv => ?_, fun l hl' hs => hinv.progress.frame l (fun i hi _ hown => ?_) hs⟩
    · obtain ⟨i, hi, rfl⟩ := mem_iff_getElem.mp hmv
      have hmade := hinv.progress.made i hi (hall i hi)
      rwa [getD_eq_getElem?_getD, getElem?_eq_getElem hi] at hmade
    · exact hl' _ (getD_mem hi) hown
  rw [emitParallelCopy, length_map, length_map]
  split
  · rename_i hempty
    have hnil : moves = [] := length_eq_zero_iff.mp (hempty.resolve_right (by simp))
    subst hnil
    exact ⟨[], rfl, ⟨by simp [copiesOf, movesOf], fun _ _ _ => rfl⟩⟩
  · exact ⟨st.code, hloop, hreal⟩

end Copies

/-! ## Examples -/

/-- Slots of eight bytes, one below the other. -/
def slotFrame : Layout where
  addr s := -s.toInt - 1
  room _ := 1
  apart s t a hne h₁ h₂ h₃ h₄ := hne (Int32.toInt_inj.mp (by omega))

theorem legal_slotFrame {mv : CopyMove} (h : Emittable slotFrame mv.dst mv.src)
    (hsize : mv.dst.size = 8)
    (hcode : ∀ p, mv.dst.kind = .preg p ∨ mv.src.kind = .preg p → p.code.toNat < 10) :
    LegalMove slotFrame mv := by
  have hreg : ∀ p : PReg, p.code.toNat < 10 → ¬ Scratch (pregLoc p) := by
    intro p hp
    unfold pregLoc
    split <;> simp only [Scratch, Loc.gpr.injEq, Loc.xmm.injEq, reduceCtorEq, or_false, false_or] <;>
      omega
  refine ⟨h, fun s _ => ?_, fun p hp => hreg p (hcode p (.inl hp)),
    fun p hp => hreg p (hcode p (.inr hp))⟩
  rw [hsize]
  exact Nat.le_refl 1

def rotation : List CopyMove :=
  [{ dst := ⟨.preg ⟨.gpr, 0⟩, 8⟩, src := ⟨.preg ⟨.gpr, 1⟩, 8⟩ },
   { dst := ⟨.preg ⟨.gpr, 1⟩, 8⟩, src := ⟨.slot 0, 8⟩ },
   { dst := ⟨.slot 0, 8⟩, src := ⟨.preg ⟨.gpr, 0⟩, 8⟩ }]

theorem legal_rotation : ∀ mv ∈ rotation, LegalMove slotFrame mv := by
  intro mv hmv
  simp only [rotation, mem_cons, not_mem_nil, or_false] at hmv
  rcases hmv with rfl | rfl | rfl
  all_goals
    refine legal_slotFrame (by simp [Emittable, IsSize, slotFrame, words]; decide) rfl ?_
    rintro p (hp | hp) <;> cases hp <;> decide

/-- A cycle of three through two slots and a vector register. -/
def mixedCycle : List CopyMove :=
  [{ dst := ⟨.slot 0, 8⟩, src := ⟨.slot 1, 8⟩ },
   { dst := ⟨.slot 1, 8⟩, src := ⟨.preg ⟨.xmm, 0⟩, 8⟩ },
   { dst := ⟨.preg ⟨.xmm, 0⟩, 8⟩, src := ⟨.slot 0, 8⟩ }]

theorem legal_mixedCycle : ∀ mv ∈ mixedCycle, LegalMove slotFrame mv := by
  intro mv hmv
  simp only [mixedCycle, mem_cons, not_mem_nil, or_false] at hmv
  rcases hmv with rfl | rfl | rfl
  · exact legal_slotFrame (by simp [Emittable, IsSize, slotFrame, words]) rfl (by simp)
  · exact legal_slotFrame (by simp [Emittable, IsSize, slotFrame, words]; decide) rfl (by simp)
  · exact legal_slotFrame (by simp [Emittable, IsSize]; decide) rfl (by simp)

end Brass.Codegen.Copy
