import Brass.Codegen.LinearScanEviction
import Brass.Codegen.ScanDataWellFormed

/-!
# When the linear scan keeps registers apart

The scan starts from pieces without registers, of which `settleCallSpanning` places some
(`initialState_inv`). In a run that takes every piece at or after the start of the piece
before it (`ForwardRun`) no two pieces of a register are live together, and no instruction in
a piece blocks its register (`forwardRun_registersApart`). A value taken from a register may
go back to the scan at a block that lies behind the scan's position (`registerReentry`); what
lived there and has ended is no longer active, and the value may get its register
(`reentry_sharesRegister`).
-/

namespace Brass.Codegen

open ScanState List

namespace ScanData

variable {d : ScanData} {s t : ScanState} {i k pos : Nat} {r : PReg}

instance (p : AllocPiece) (x : Nat) : Decidable (d.LivesOn p x) :=
  inferInstanceAs (Decidable (∃ c ∈ d.clamped p, c.start ≤ x ∧ x < c.stop))

/-! ## The initial state -/

/-- No piece has a register yet. -/
structure Unplaced (d : ScanData) (s : ScanState) : Prop where
  windowed : ∀ k < s.pieces.length, d.Windowed (s.piece k)
  inRegister : ∀ k, (s.piece k).inRegister = false
  active : s.active = []
  waiting : ∀ k ∈ s.unhandled, k < s.pieces.length

theorem addInterval_unplaced (wf : d.WellFormed) (h : d.Unplaced s) (iv : LiveInterval × Nat) :
    d.Unplaced (d.addInterval s iv) := by
  unfold addInterval
  split
  · exact h
  · dsimp only
    have hpiece : ∀ k, ({ s with
        pieces := s.pieces ++ [d.newPiece iv.2 0 kNever s.pieces.length]
        vregPieces := s.vregPieces.modify iv.2 (· ++ [s.pieces.length]) }.pushUnhandled
          s.pieces.length).piece k =
        if k = s.pieces.length then d.newPiece iv.2 0 kNever s.pieces.length else s.piece k := by
      intro k
      simp only [piece, pushUnhandled, getD_eq_getElem?_getD]
      rcases Nat.lt_trichotomy k s.pieces.length with hk | rfl | hk
      · rw [getElem?_append_left hk, if_neg (by omega)]
      · simp
      · rw [getElem?_eq_none (by simp; omega), if_neg (by omega),
          getElem?_eq_none (Nat.le_of_lt hk)]
    refine ⟨fun k hk => ?_, fun k => ?_, h.active, fun k hk => ?_⟩
    · rw [hpiece]
      split
      · exact newPiece_windowed wf (by decide)
      · simp only [pushUnhandled, length_append, length_singleton] at hk
        exact h.windowed k (by omega)
    · rw [hpiece]
      split
      · rfl
      · exact h.inRegister k
    · simp only [pushUnhandled, length_append, length_singleton]
      rcases mem_append.mp hk with hk | hk
      · exact Nat.lt_succ_of_lt (h.waiting k hk)
      · rw [mem_singleton.mp hk]
        exact Nat.lt_succ_self _

/-- Settling only marks registers and collects candidates, which are general registers. -/
theorem settleOne_keeps (calls : List Nat) (st : ScanState × List Cand) (i : Nat) :
    (d.settleOne calls st i).1.pieces = st.1.pieces ∧
      (d.settleOne calls st i).1.active = st.1.active ∧
      (d.settleOne calls st i).1.unhandled = st.1.unhandled ∧
      ∀ c ∈ (d.settleOne calls st i).2, c ∈ st.2 ∨
        c.1 = i ∧ (d.vreg (st.1.piece i)).regClass = .gpr := by
  obtain ⟨s, cands⟩ := st
  unfold settleOne
  dsimp only
  split
  · exact ⟨rfl, rfl, rfl, fun c hc => .inl hc⟩
  · rename_i hno
    simp only [not_or, not_not] at hno
    refine ⟨?_, ?_, ?_, ?_⟩
    · split_ifs <;> rfl
    · split_ifs <;> rfl
    · split_ifs <;> rfl
    · split_ifs
      · exact fun c hc => .inl hc
      · exact fun c hc => .inl hc
      all_goals
        intro c hc
        rcases mem_append.mp hc with hc | hc
        · exact .inl hc
        · rw [mem_singleton.mp hc]
          exact .inr ⟨rfl, hno.1⟩

/-- Between two candidates: those that have taken a register are the active pieces, and the
invariant holds of them. `u` is the state before. -/
structure Settling (d : ScanData) (u : ScanState) (st : ScanState × List Nat) : Prop where
  length : st.1.pieces.length = u.pieces.length
  base : ∀ k, (st.1.piece k).base = (u.piece k).base
  unhandled : st.1.unhandled = u.unhandled
  active : st.1.active = st.2
  taken : ∀ k, (st.1.piece k).inRegister = true → k ∈ st.2
  inv : d.Inv 0 none { st.1 with unhandled := [] }

theorem takeCalleeSaved_settling (wf : d.WellFormed) {u : ScanState} {st : ScanState × List Nat}
    (h : d.Settling u st) {c : Cand} (hc : c.1 < u.pieces.length)
    (hcls : (d.vreg (u.piece c.1)).regClass = .gpr) : d.Settling u (d.takeCalleeSaved st c) := by
  obtain ⟨s, taken⟩ := st
  unfold takeCalleeSaved
  dsimp only
  split
  · exact h
  · rename_i r hr
    have hfound := find?_some hr
    have hmem := mem_of_find?_eq_some hr
    simp only [Bool.and_eq_true, beq_iff_eq, Bool.not_eq_true', any_eq_false,
      bne_iff_ne, ne_eq, not_and, not_not] at hfound
    obtain ⟨⟨-, hlim⟩, hclash⟩ := hfound
    have hlt : c.1 < s.pieces.length := h.length ▸ hc
    set s' : ScanState := { s with
      unhandled := []
      unsplittable := s.unsplittable.set (s.piece c.1).base true } with hs'
    have hinv : d.Inv 0 none s' := ⟨h.inv.windowed, h.inv.apart, h.inv.unblocked, h.inv.pool,
      h.inv.holding, h.inv.active_lt, h.inv.waiting⟩
    have hvreg : (d.vreg (s.piece c.1)).regClass = .gpr := by
      have hbase : (s.piece c.1).base = (u.piece c.1).base := h.base c.1
      rw [vreg, hbase]
      exact hcls
    have hpool : r ∈ d.available (d.vreg (s'.piece c.1)).regClass := by
      show r ∈ d.available (d.vreg (s.piece c.1)).regClass
      rw [hvreg]
      exact hmem
    have hwin : d.Windowed (s.piece c.1) := hinv.windowed c.1 hlt
    have hplaced : d.Inv 0 none (s'.assign c.1 r) := by
      refine hinv.place hlt (by simp [hs']) hpool (Nat.zero_le _) ?_ (fun k _ hk hreg => ?_)
      · -- nothing blocks the register in the life of the value
        intro seg hseg x h₁ h₂ hb
        have hle := regLimits_le wf (Nat.le_of_lt hwin.proper) hpool hseg h₁ h₂ hb
        have hx := clamped_stop_lt wf hseg
        rw [limitOf] at hlim
        change (d.regLimits (s.piece c.1)).getD r.code.toNat 0 ≤ x at hle
        omega
      · have hnever := hclash k (h.taken k hk) hreg
        exact .inr (.inr (apart_of_never wf (hinv.windowed k (inRegister_lt hk)) hwin hnever).symm)
    have hpiece := fun k => piece_assign (s := { s with
      unsplittable := s.unsplittable.set (s.piece c.1).base true }) (i := c.1) (r := r) (k := k)
    refine ⟨?_, fun k => ?_, h.unhandled, ?_, fun k hk => ?_,
      ⟨hplaced.windowed, hplaced.apart, hplaced.unblocked, hplaced.pool, hplaced.holding,
        hplaced.active_lt, by simp⟩⟩
    · simpa [ScanState.assign] using h.length
    · rw [hpiece]
      split <;> exact h.base k
    · show s.active ++ [c.1] = taken ++ [c.1]
      rw [show s.active = taken from h.active]
    · rw [hpiece] at hk
      split at hk
      · rename_i hik
        exact mem_append_right _ (by simp [hik.1])
      · exact mem_append_left _ (h.taken k hk)

theorem initialState_inv (wf : d.WellFormed) : d.Inv 0 none d.initialState := by
  have hplain : d.Unplaced (d.intervals.zipIdx.foldl d.addInterval
      { vregPieces := replicate d.intervals.length [], unsplittable := d.unsplittable }) := by
    refine foldlRecOn (motive := d.Unplaced) _ _ ?_ (fun s hs iv _ => addInterval_unplaced wf hs iv)
    exact ⟨by simp, fun k => not_inRegister_of_le (by simp), rfl, by simp⟩
  unfold initialState
  generalize d.intervals.zipIdx.foldl d.addInterval _ = s at hplain ⊢
  unfold settleCallSpanning
  dsimp only
  generalize (d.gprConstraints.filter _).map Prod.fst = calls
  have hmarked : let st := s.unhandled.foldl (d.settleOne calls) (s, [])
      st.1.pieces = s.pieces ∧ st.1.active = s.active ∧ st.1.unhandled = s.unhandled ∧
        ∀ c ∈ st.2, c.1 ∈ s.unhandled ∧ (d.vreg (s.piece c.1)).regClass = .gpr := by
    refine foldlRecOn (motive := fun st : ScanState × List Cand =>
      st.1.pieces = s.pieces ∧ st.1.active = s.active ∧ st.1.unhandled = s.unhandled ∧
        ∀ c ∈ st.2, c.1 ∈ s.unhandled ∧ (d.vreg (s.piece c.1)).regClass = .gpr) _ _
      ⟨rfl, rfl, rfl, by simp⟩ (fun st hst i hi => ?_)
    obtain ⟨h₁, h₂, h₃, h₄⟩ := hst
    obtain ⟨k₁, k₂, k₃, k₄⟩ := settleOne_keeps (d := d) calls st i
    refine ⟨k₁.trans h₁, k₂.trans h₂, k₃.trans h₃, fun c hc => ?_⟩
    rcases k₄ c hc with hc | ⟨rfl, hcls⟩
    · exact h₄ c hc
    · refine ⟨hi, ?_⟩
      simpa only [piece, h₁] using hcls
  generalize s.unhandled.foldl (d.settleOne calls) (s, []) = st at hmarked ⊢
  obtain ⟨u, cands⟩ := st
  obtain ⟨hpieces, hactive, hunhandled, hcands⟩ := hmarked
  dsimp only at hpieces hactive hunhandled hcands ⊢
  have hpiece : ∀ k, u.piece k = s.piece k := fun k => by rw [piece, piece, hpieces]
  have hsettling : d.Settling u ((cands.insertionSort (fun a b =>
        a.2 > b.2 ∨ (a.2 = b.2 ∧ (u.piece a.1).seq ≤ (u.piece b.1).seq))).foldl
          d.takeCalleeSaved (u, [])) := by
    refine foldlRecOn (motive := d.Settling u) _ _ ?_ (fun st hst c hc => ?_)
    · refine ⟨rfl, fun _ => rfl, rfl, hactive.trans hplain.active, fun k hk => ?_, ?_⟩
      · have hno := hplain.inRegister k
        rw [← hpiece, hk] at hno
        cases hno
      · have hno : ∀ k, (u.piece k).inRegister = true → False := by
          intro k hk
          rw [hpiece, hplain.inRegister] at hk
          cases hk
        refine ⟨fun k hk => ?_, fun j _ _ _ _ hj => (hno j hj).elim, fun k _ hk => (hno k hk).elim,
          fun k hk => (hno k hk).elim, fun k hk => (hno k hk).elim, fun k hk => ?_, by simp⟩
        · rw [show ({ u with unhandled := [] } : ScanState).piece k = s.piece k from hpiece k]
          exact hplain.windowed k (hpieces ▸ hk)
        · rw [show ({ u with unhandled := [] } : ScanState).active = [] from
            hactive.trans hplain.active] at hk
          cases hk
    · obtain ⟨hwait, hcls⟩ := hcands c ((mem_insertionSort _).mp hc)
      refine takeCalleeSaved_settling wf hst ?_ ?_
      · rw [hpieces]
        exact hplain.waiting _ hwait
      · rw [hpiece]
        exact hcls
  generalize foldl d.takeCalleeSaved (u, []) _ = st at hsettling ⊢
  obtain ⟨v, taken⟩ := st
  obtain ⟨hlen, -, hun, hact, htaken, hinv⟩ := hsettling
  dsimp only at hlen hun hact htaken hinv ⊢
  refine ⟨hinv.windowed, hinv.apart, hinv.unblocked, hinv.pool, hinv.holding, hinv.active_lt,
    fun k hk => ?_⟩
  obtain ⟨hk, hnot⟩ := mem_filter.mp hk
  rw [hun, hunhandled] at hk
  have hnot' : k ∉ taken := by simpa using hnot
  refine ⟨?_, ?_, ?_⟩
  · show k < v.pieces.length
    rw [hlen, hpieces]
    exact hplain.waiting k hk
  · rw [show ({ v with unhandled := _ } : ScanState).active = taken from hact]
    exact hnot'
  · by_contra hreg
    exact hnot' (htaken k ((Bool.not_eq_false _).mp hreg))

/-! ## Runs -/

/-- A run of the scan in which every piece is taken at or after the start of the piece taken
before it; `pos` is the start of the last piece taken. -/
inductive ForwardRun (d : ScanData) : Nat → ScanState → Prop
  | init : d.ForwardRun 0 d.initialState
  | step {pos i : Nat} {s t : ScanState} : d.ForwardRun pos s → nextPiece s = some i →
      pos ≤ (s.piece i).start → d.scanStep s = some t → d.ForwardRun (s.piece i).start t

theorem ForwardRun.inv (wf : d.WellFormed) (h : d.ForwardRun pos s) : d.Inv pos none s := by
  induction h with
  | init => exact initialState_inv wf
  | step _ hi hpos ht ih => exact scanStep_inv wf ih hi hpos ht

/-- Two pieces in one register never live on together, and no instruction in a piece blocks the
register it is in. -/
structure RegistersApart (d : ScanData) (s : ScanState) : Prop where
  apart : ∀ j k, j ≠ k → (s.piece j).inRegister = true → (s.piece k).inRegister = true →
    (s.piece j).reg = (s.piece k).reg → ∀ x, d.LivesOn (s.piece j) x → ¬ d.LivesOn (s.piece k) x
  unblocked : ∀ k, (s.piece k).inRegister = true → d.Unblocked (s.piece k) (s.piece k).reg

/-- In every run that goes forward, registers are kept apart. The ids of the instructions are
`uint32_t`. -/
theorem forwardRun_registersApart (fn : LirFunction) (cc : CallingConv)
    (hsize : 2 * fn.instCount + 1 < kNever) (hends : (ScanData.of fn cc).EndsLater)
    (h : (ScanData.of fn cc).ForwardRun pos s) : (ScanData.of fn cc).RegistersApart s := by
  have hinv := h.inv (wellFormed_of fn cc hsize hends)
  exact ⟨fun j k hjk => hinv.apart j k hjk (by simp) (by simp),
    fun k hk => hinv.unblocked k (by simp) hk⟩

theorem ForwardRun.next (h : d.ForwardRun pos s) (hi : nextPiece s = some i)
    (hpos : pos ≤ (s.piece i).start) : d.ForwardRun (s.piece i).start (d.runScan s 1) := by
  rw [runScan]
  cases ht : d.scanStep s with
  | none => simp [scanStep, hi] at ht
  | some t => exact h.step hi hpos ht

theorem scanRun_runScan (h : d.ScanRun s) (fuel : Nat) : d.ScanRun (d.runScan s fuel) := by
  induction fuel generalizing s with
  | zero => exact h
  | succ fuel ih =>
    rw [runScan]
    split
    · exact h
    · rename_i t ht
      exact ih (h.step ht)

end ScanData

/-! ## A value that goes back behind the scan -/

namespace ReentryExample

def value (id : UInt32) : LirOperand := { kind := .vreg { id := id } }

def imm (v : Int64) : LirOperand := { kind := .immInt v }

def inst (opcode : LirOpcode) (defs uses : List LirOperand) : Inst :=
  { opcode := opcode, defs := defs, uses := uses, rest := {} }

def jcc (target : UInt32) : Inst := inst .jcc [] [{ kind := .label target }]

theorem element_oneBase : ({ id := 0 } : VReg).isValid = true → ({} : PReg).isValid = false := by
  decide

/-- `[v0 + 8 * v13]` -/
def element : LirOperand :=
  { kind := .mem { baseVreg := { id := 0 }, indexVreg := { id := 13 }, scale := .eight
                   oneBase := element_oneBase } }

/-- Twelve values fill the general registers, and `v8`, in R12, is read last at the end of the
entry. -/
def entry : LirBlock where
  id := 0
  instructions := (List.range 12).map (fun v => inst .mov [value (UInt32.ofNat v)] [imm 1]) ++
    [inst .cmp [] [value 8, imm 0], jcc 2]
  successors := [1, 2]

/-- A loop before the one that needs registers. -/
def firstLoop : LirBlock where
  id := 1
  instructions := [inst .test [] [value 0, value 0], jcc 1]
  predecessors := [0, 1]
  successors := [1, 2]

/-- `v12` lives in R12, and has ended where the index `v13`, which may not be in R12, takes the
register of another value. -/
def secondLoop : LirBlock where
  id := 2
  instructions := [inst .mov [value 12] [imm 5], inst .cmp [] [value 0, value 12],
    inst .mov [value 13] [imm 6], inst .cmp [] [element, imm 0], jcc 2]
  predecessors := [0, 1, 2]
  successors := [2, 3]

def exit : LirBlock where
  id := 3
  instructions := ([0, 1, 2, 3, 4, 5, 6, 7, 9, 10, 11].map (fun v =>
    inst .add [value v] [value v, imm 1])) ++ [inst .ret [] []]
  predecessors := [2]

def fn : LirFunction where
  blocks := [entry, firstLoop, secondLoop, exit]
  vregTable := (List.range 14).map (fun v => { id := UInt32.ofNat v })
  ids := by decide

/-- System V on x64: RBX, RBP and R12 to R15 are callee-saved. -/
def sysV : CallingConv where
  arch := .x64
  calleeSavedGprs := 0xF028
  calleeSavedXmms := 0

abbrev data : ScanData := ScanData.of fn sysV

theorem forwardRun_registersApart_twoRounds :
    data.RegistersApart (data.runScan (data.runScan data.initialState 1) 1) :=
  ScanData.forwardRun_registersApart fn sysV (by decide) (by decide +kernel)
    (((ScanData.ForwardRun.init (d := data)).next (i := 0) (by decide +kernel) (Nat.zero_le _)).next
      (i := 1) (by decide +kernel) (by decide +kernel))

/-- `v11` gives R15 to `v13` and goes back to the scan before the second loop, where R12 looks
free: the piece of `v12` there has ended. In the end both are in R12 from the instruction at
32 on. -/
theorem reentry_sharesRegister : ∃ s, data.ScanRun s ∧ s.unhandled = [] ∧
    ∃ j k, (s.piece j).base = 11 ∧ (s.piece k).base = 12 ∧
      (s.piece j).inRegister = true ∧ (s.piece k).inRegister = true ∧
      (s.piece j).reg = (s.piece k).reg ∧
      data.LivesOn (s.piece j) 32 ∧ data.LivesOn (s.piece k) 32 := by
  refine ⟨data.runScan data.initialState 16, ScanData.scanRun_runScan ScanData.ScanRun.init 16,
    ?_, 15, 12, ?_⟩
  · decide +kernel
  · decide +kernel

end ReentryExample

end Brass.Codegen
