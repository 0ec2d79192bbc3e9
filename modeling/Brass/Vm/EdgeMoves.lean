import Brass.Vm.ParallelMovesSound

/-!
# An edge assigns its arguments

The moves collected for an edge are those of its arguments and parameters whose registers
differ (`collectMoves_eq`, `moves_addMoves`). Emitted from tables that are clear, they give
every parameter its argument and leave the tables clear (`emitParallelMoves_spec`), so they do so
along all the edges of a function (`emitEdges_realizes`).
-/

namespace Brass.Vm

open Function (update update_of_ne update_self)

open MoveState List

variable {ctx : MoveContext} {s t : MoveState} {i j : Nat} {r : Reg}

/-! ## Collecting -/

/-- The registers of the arguments and parameters that have both. -/
def edgeRegs (ctx : MoveContext) (pairs : List (Option Nat × Option Nat)) : List (Reg × Reg) :=
  pairs.filterMap fun p => (p.1.bind ctx.reg).bind fun src => (p.2.bind ctx.reg).map (src, ·)

def addMoves (s : MoveState) (regs : List (Reg × Reg)) : MoveState :=
  regs.foldl (fun s r => addMove s r.1 r.2) s

theorem getReg_ok {v : Option Nat} (h : getReg ctx v = .ok r) : v.bind ctx.reg = some r := by
  unfold getReg at h
  cases v with
  | none => exact absurd h (by simp [failure])
  | some v =>
    dsimp only at h
    cases hv : ctx.reg v with
    | none =>
      rw [hv] at h
      exact absurd h (by simp [failure])
    | some q =>
      rw [hv] at h
      rw [Option.bind_some, hv, Except.ok.inj h]

theorem getReg_of_reg {v : Option Nat} (h : v.bind ctx.reg = some r) : getReg ctx v = .ok r := by
  obtain ⟨w, rfl, hw⟩ := Option.bind_eq_some_iff.1 h
  rw [getReg, hw]

theorem collectMoves_eq {pairs : List (Option Nat × Option Nat)} (h : collectMoves ctx pairs s = .ok t) :
    t = addMoves s (edgeRegs ctx pairs) := by
  induction pairs generalizing s with
  | nil => exact (Except.ok.inj h).symm
  | cons p pairs ih =>
    obtain ⟨arg, param⟩ := p
    cases param with
    | none =>
      have hskip : edgeRegs ctx ((arg, none) :: pairs) = edgeRegs ctx pairs := by
        cases harg : arg.bind ctx.reg <;> simp [edgeRegs, harg]
      rw [hskip]
      exact ih h
    | some v =>
      unfold collectMoves at h
      cases hsrc : getReg ctx arg with
      | error e =>
        rw [hsrc] at h
        cases h
      | ok src =>
        cases hdst : getReg ctx (some v) with
        | error e =>
          rw [hsrc, hdst] at h
          cases h
        | ok dst =>
          rw [hsrc, hdst] at h
          have hcons : edgeRegs ctx ((arg, some v) :: pairs) = (src, dst) :: edgeRegs ctx pairs := by
            simp only [edgeRegs, filterMap_cons, getReg_ok hsrc, getReg_ok hdst,
              Option.bind_some, Option.map_some]
          rw [hcons]
          exact ih h

/-- Every parameter that is not null has a register, and so has its argument. -/
def Assigned (ctx : MoveContext) (pairs : List (Option Nat × Option Nat)) : Prop :=
  ∀ p ∈ pairs, p.2 ≠ none → (∃ r, p.1.bind ctx.reg = some r) ∧ ∃ r, p.2.bind ctx.reg = some r

theorem exists_collectMoves {pairs : List (Option Nat × Option Nat)} (h : Assigned ctx pairs) :
    ∃ t, collectMoves ctx pairs s = .ok t := by
  induction pairs generalizing s with
  | nil => exact ⟨s, rfl⟩
  | cons p pairs ih =>
    obtain ⟨arg, param⟩ := p
    have hrest : Assigned ctx pairs := fun p hp => h p (mem_cons_of_mem _ hp)
    cases param with
    | none => exact ih hrest
    | some v =>
      obtain ⟨⟨src, hsrc⟩, dst, hdst⟩ := h _ mem_cons_self (Option.some_ne_none v)
      unfold collectMoves
      rw [getReg_of_reg hsrc, getReg_of_reg hdst]
      exact ih hrest

/-! ## The moves collected -/

theorem moves_addMoves {regs : List (Reg × Reg)} (hnodup : (regs.map Prod.snd).Nodup)
    (hnone : ∀ p ∈ regs, s.writerOf p.2 = none) :
    (addMoves s regs).moves = s.moves ++
      (regs.filter (fun p => p.1 ≠ p.2)).map (fun p => { src := p.1, dst := p.2 }) := by
  induction regs generalizing s with
  | nil => simp [addMoves]
  | cons p regs ih =>
    obtain ⟨src, dst⟩ := p
    rw [map_cons, nodup_cons] at hnodup
    have hdst : s.writerOf dst = none := hnone _ mem_cons_self
    change (addMoves (addMove s src dst) regs).moves = _
    by_cases heq : src = dst
    · have hadd : addMove s src dst = s := by rw [addMove, if_pos (.inl heq)]
      rw [hadd, ih hnodup.2 fun p hp => hnone p (mem_cons_of_mem _ hp),
        filter_cons_of_neg (by simp [heq])]
    · have hadd : addMove s src dst = { s with
            writerOf := update s.writerOf dst (some s.moves.length)
            useCount := update s.useCount src (s.useCount src + 1)
            moves := s.moves ++ [{ src, dst }] } := by
        rw [addMove, if_neg (by simp [heq, hdst])]
      rw [ih hnodup.2, hadd, filter_cons_of_pos (by simp [heq]), map_cons, append_assoc]
      · rfl
      · intro p hp
        have hne : p.2 ≠ dst := fun h => hnodup.1 (mem_map.2 ⟨p, hp, h⟩)
        rw [hadd]
        exact (update_of_ne hne ..).trans (hnone p (mem_cons_of_mem _ hp))

/-- The state while moves are collected: all of them wait. -/
structure Collecting (ctx : MoveContext) (s : MoveState) : Prop where
  counted : Counted ctx s
  waits : ∀ i < s.moves.length, (s.move i).done = false
  code : s.code = []
  scan : s.scan = 0

theorem Collecting.addMove {src dst : Reg} (h : Collecting ctx s) (hsrc : src ≠ ctx.scratchReg) :
    Collecting ctx (addMove s src dst) := by
  unfold Vm.addMove
  split
  · exact h
  rename_i hskip
  rw [not_or, Bool.not_eq_true, Option.isSome_eq_false_iff, Option.isNone_iff_eq_none] at hskip
  obtain ⟨-, hnone⟩ := hskip
  let t : MoveState :=
    { s with
      writerOf := update s.writerOf dst (some s.moves.length)
      useCount := update s.useCount src (s.useCount src + 1)
      moves := s.moves ++ [{ src, dst }] }
  change Collecting ctx t
  have hmove : ∀ j, t.move j = if j = s.moves.length then { src, dst } else s.move j := by
    intro j
    rw [move, move, getD_eq_getElem?_getD, getD_eq_getElem?_getD, getElem?_append]
    by_cases hlt : j < s.moves.length
    · rw [if_pos hlt, if_neg hlt.ne]
    · rw [if_neg hlt]
      by_cases heq : j = s.moves.length
      · rw [if_pos heq, heq, Nat.sub_self]
        rfl
      · rw [if_neg heq, getElem?_eq_none (by simp; omega), getElem?_eq_none (by omega)]
  have hwait : ∀ j, j ∈ t.waiting ↔ j = s.moves.length ∨ j ∈ s.waiting := by
    intro j
    rw [mem_waiting, mem_waiting, hmove]
    by_cases heq : j = s.moves.length
    · simp [heq]
    · simp [heq]
  have hnew : s.moves.length ∉ s.waiting := fun hmem => (lt_of_waiting hmem).ne rfl
  refine ⟨⟨?_, ?_, ?_⟩, ?_, h.code, h.scan⟩
  · exact (update_of_ne hsrc.symm ..).trans h.counted.scratch
  · intro q hq
    have hreaders : t.readers q =
        if q = src then insert s.moves.length (s.readers q) else s.readers q := by
      ext j
      rw [mem_readers, hwait, hmove]
      by_cases heq : j = s.moves.length
      · by_cases hqs : q = src
        · simp [heq, hqs]
        · simp [heq, hqs, Ne.symm hqs, mem_readers, hnew]
      · by_cases hqs : q = src
        · simp [heq, hqs, mem_readers]
        · simp [heq, hqs, mem_readers]
    rw [hreaders]
    change update s.useCount src (s.useCount src + 1) q = _
    by_cases hqs : q = src
    · rw [if_pos hqs, hqs, update_self, Finset.card_insert_of_notMem, h.counted.count _ hsrc]
      exact fun hmem => hnew (mem_readers.1 hmem).1
    · rw [if_neg hqs, update_of_ne hqs, h.counted.count q hq]
  · intro q j
    rw [hwait, hmove]
    change update s.writerOf dst (some s.moves.length) q = some j ↔ _
    by_cases heq : j = s.moves.length
    · by_cases hqd : q = dst
      · simp [heq, hqd]
      · rw [update_of_ne hqd, h.counted.writer, if_pos heq, heq]
        exact iff_of_false (fun hmem => hnew hmem.1) (fun hd => hqd hd.2.symm)
    · rw [if_neg heq, or_iff_right heq]
      by_cases hqd : q = dst
      · rw [hqd, update_self, ← h.counted.writer, hnone]
        exact iff_of_false (fun hj => heq (Option.some.inj hj).symm) (by simp)
      · rw [update_of_ne hqd, h.counted.writer]
  · intro j hj
    rw [hmove]
    by_cases heq : j = s.moves.length
    · rw [if_pos heq]
    · rw [if_neg heq]
      have hlen : t.moves.length = s.moves.length + 1 := length_append
      exact h.waits j (by omega)

theorem Collecting.start : Collecting ctx { toMoveTables := {} } where
  counted :=
    { scratch := rfl
      count := fun _ _ => rfl
      writer := iff_of_false (by simp) fun h => absurd (lt_of_waiting h.1) (Nat.not_lt_zero _) }
  waits := fun _ hi => absurd hi (Nat.not_lt_zero _)
  code := rfl
  scan := rfl

theorem Collecting.addMoves {regs : List (Reg × Reg)} (h : Collecting ctx s)
    (hregs : ∀ p ∈ regs, p.1 ≠ ctx.scratchReg) : Collecting ctx (addMoves s regs) :=
  foldlRecOn regs _ h fun _ hs p hp => hs.addMove (hregs p hp)

/-- The state in which the loops start. -/
theorem Collecting.emitting (h : Collecting ctx s) (hok : MovesOk ctx s.move s.moves.length) :
    Emitting ctx s.move s.moves.length
      { s with ready := initialReady s, remaining := s.moves.length } := by
  have hall : ∀ i < s.moves.length, i ∈ s.waiting := fun i hi => mem_waiting.2 (h.waits i hi)
  have hmem : ∀ i, i ∈ initialReady s ↔ i < s.moves.length ∧ s.useCount (s.move i).dst = 0 := by
    intro i
    rw [initialReady, mem_reverse, mem_filter, mem_range, decide_eq_true_iff]
  refine ⟨⟨h.counted.scratch, h.counted.count, h.counted.writer⟩, ⟨?_, ?_, ?_⟩, ?_, fun m₀ => ?_⟩
  · intro i hi hcount
    exact (hmem i).2 ⟨lt_of_waiting hi, hcount⟩
  · intro i hi _
    exact ((hmem i).1 hi).2
  · intro i hi
    exact absurd (h.scan ▸ hi) (Nat.not_lt_zero _)
  · have hrange : s.waiting = Finset.range s.moves.length :=
      Finset.ext fun i => ⟨fun hi => Finset.mem_range.2 (lt_of_waiting hi),
        fun hi => hall i (Finset.mem_range.1 hi)⟩
    change s.moves.length = s.waiting.card
    rw [hrange, Finset.card_range]
  · have hrun : ∀ r, runMoves s.code m₀ r = m₀ r := fun r => by rw [h.code]; rfl
    refine ⟨rfl, fun _ _ => rfl, fun _ _ => .inl rfl, ?_, fun r _ _ => hrun r, ?_, ?_, ?_⟩
    · intro i hi hnot
      exact absurd (hall i hi) hnot
    · intro i _ _ j hj hnot
      exact absurd (hall j hj) hnot
    · intro i hi hsrc
      exact absurd hsrc (hok.src_ne i (lt_of_waiting hi))
    · intro i hi j hj hsrc
      exact absurd hsrc (hok.src_ne i (lt_of_waiting hi))

/-! ## The edge -/

namespace BranchTarget

def params (target : BranchTarget) : List (Option Nat) := target.block.getD []

def paramRegs (ctx : MoveContext) (target : BranchTarget) : List Reg :=
  target.params.filterMap (fun p => p.bind ctx.reg)

def regs (ctx : MoveContext) (target : BranchTarget) : List (Reg × Reg) :=
  edgeRegs ctx (target.args.zip target.params)

end BranchTarget

/-- The destination holds what the source held, as far as a value of its type reaches. -/
def Holds (ctx : MoveContext) (m m' : Registers) (src dst : Reg) : Prop :=
  (m' dst).scalar = (m src).scalar ∧ (ctx.isVector dst = true → m' dst = m src)

/-- The code of an edge assigns the arguments to the parameters, all at once, and changes no
other register but the scratch register. -/
def Realizes (ctx : MoveContext) (target : BranchTarget) (code : List MoveInst) : Prop :=
  ∀ m : Registers,
    (∀ p ∈ target.regs ctx, Holds ctx m (runMoves code m) p.1 p.2) ∧
      ∀ r, r ≠ ctx.scratchReg → r ∉ target.paramRegs ctx → runMoves code m r = m r

variable (ctx) in
theorem edgeRegs_snd_sublist (args params : List (Option Nat)) :
    ((edgeRegs ctx (args.zip params)).map Prod.snd).Sublist
      (params.filterMap (fun p => p.bind ctx.reg)) := by
  induction args generalizing params with
  | nil => simp [edgeRegs]
  | cons arg args ih =>
    cases params with
    | nil => simp [edgeRegs]
    | cons param params =>
      have hrest := ih params
      unfold edgeRegs at hrest ⊢
      rw [zip_cons_cons, filterMap_cons, filterMap_cons]
      cases param.bind ctx.reg with
      | none =>
        cases arg.bind ctx.reg <;> exact hrest
      | some dst =>
        cases arg.bind ctx.reg with
        | none => exact hrest.cons _
        | some src => exact hrest.cons_cons _

theorem mem_edgeRegs {pairs : List (Option Nat × Option Nat)} {p : Reg × Reg}
    (h : p ∈ edgeRegs ctx pairs) : p.1 ≠ ctx.scratchReg ∧ p.2 ≠ ctx.scratchReg := by
  obtain ⟨q, -, hq⟩ := mem_filterMap.1 h
  obtain ⟨src, hsrc, hq⟩ := Option.bind_eq_some_iff.1 hq
  obtain ⟨dst, hdst, rfl⟩ := Option.map_eq_some_iff.1 hq
  obtain ⟨v, -, hv⟩ := Option.bind_eq_some_iff.1 hsrc
  obtain ⟨w, -, hw⟩ := Option.bind_eq_some_iff.1 hdst
  exact ⟨ctx.reg_ne_scratch hv, ctx.reg_ne_scratch hw⟩

section Collected

variable {regs : List (Reg × Reg)}

section

variable (hnodup : (regs.map Prod.snd).Nodup)
include hnodup

theorem moves_collected : (addMoves { toMoveTables := {} } regs).moves =
      (regs.filter (fun p => p.1 ≠ p.2)).map (fun p => { src := p.1, dst := p.2 }) :=
  (moves_addMoves hnodup fun _ _ => rfl).trans (nil_append _)

theorem move_collected (ht : t = addMoves { toMoveTables := {} } regs) (hi : i < t.moves.length) :
    ((t.move i).src, (t.move i).dst) ∈ regs ∧ (t.move i).src ≠ (t.move i).dst := by
  have hmem : t.move i ∈ t.moves := by
    rw [move, getD_eq_getElem?_getD, getElem?_eq_getElem hi, Option.getD_some]
    exact getElem_mem hi
  have hmoves : t.moves = _ := ht ▸ moves_collected hnodup
  rw [hmoves] at hmem
  obtain ⟨p, hp, heq⟩ := mem_map.1 hmem
  obtain ⟨hp, hne⟩ := mem_filter.1 hp
  rw [← heq]
  exact ⟨hp, of_decide_eq_true hne⟩

theorem movesOk_collected (hregs : ∀ p ∈ regs, p.1 ≠ ctx.scratchReg ∧ p.2 ≠ ctx.scratchReg)
    (ht : t = addMoves { toMoveTables := {} } regs) : MovesOk ctx t.move t.moves.length := by
  have hdsts : (t.moves.map (·.dst)).Nodup := by
    rw [ht, moves_collected hnodup, map_map]
    exact (filter_sublist.map Prod.snd).nodup hnodup
  have hdst : ∀ {k} (hk : k < t.moves.length),
      (t.moves.map (·.dst)).get ⟨k, by simpa using hk⟩ = (t.move k).dst := by
    intro k hk
    simp [move, hk]
  refine ⟨?_, ?_, ?_, ?_⟩
  · exact fun i hi => (hregs _ (move_collected hnodup ht hi).1).1
  · exact fun i hi => (hregs _ (move_collected hnodup ht hi).1).2
  · exact fun i hi => (move_collected hnodup ht hi).2
  · intro i hi j hj heq
    have hget := (hdst hi).trans (heq.trans (hdst hj).symm)
    exact congrArg Fin.val (List.Nodup.injective_get hdsts hget)

/-- The loops on the moves of the pairs. -/
theorem moveLoop_collected (hregs : ∀ p ∈ regs, p.1 ≠ ctx.scratchReg ∧ p.2 ≠ ctx.scratchReg)
    (hs : s = addMoves { toMoveTables := {} } regs) :
    ∃ u, moveLoop ctx (s.moves.length + 1)
        { s with ready := initialReady s, remaining := s.moves.length } = some u ∧
      u.toMoveTables = {} ∧ ∀ m : Registers, (∀ p ∈ regs, Holds ctx m (runMoves u.code m) p.1 p.2) ∧
          ∀ r, r ≠ ctx.scratchReg → r ∉ regs.map Prod.snd → runMoves u.code m r = m r := by
  have hok := movesOk_collected hnodup hregs hs
  have hcollect : Collecting ctx s := hs ▸ Collecting.start.addMoves fun p hp => (hregs p hp).1
  have hstart := hcollect.emitting hok
  have hfuel : (unparked ctx { s with ready := initialReady s, remaining := s.moves.length }).card <
      s.moves.length + 1 := by
    refine Nat.lt_succ_of_le ((Finset.card_filter_le _ _).trans ?_)
    exact (Finset.card_filter_le _ _).trans_eq (Finset.card_range _)
  obtain ⟨u, hu, hemit, hzero⟩ := moveLoop_spec hok _ _ hstart hfuel
  have hdone : u.waiting = ∅ := Finset.card_eq_zero.1 (hemit.remaining ▸ hzero)
  have hgone : ∀ i, i ∉ u.waiting := fun i => hdone ▸ Finset.notMem_empty i
  refine ⟨u, hu, ?_, fun m => ⟨?_, ?_⟩⟩
  · -- the tables count and name moves that wait, and there are none
    have hcount : u.useCount = fun _ => 0 := by
      funext r
      by_cases hr : r = ctx.scratchReg
      · exact hr ▸ hemit.counted.scratch
      · rw [hemit.counted.count r hr, readers, hdone]
        rfl
    have hwriter : u.writerOf = fun _ => none := by
      funext r
      cases hw : u.writerOf r with
      | none => rfl
      | some i => exact absurd (hemit.counted.writer.1 hw).1 (hgone i)
    cases huc : u.toMoveTables with
    | mk useCount writerOf =>
      rw [huc] at hcount hwriter
      dsimp only at hcount hwriter
      rw [hcount, hwriter]
  · intro p hp
    have hmade := (hemit.carries m).made
    by_cases heq : p.1 = p.2
    · -- nothing else is written to the register
      have hkept := (hemit.carries m).kept p.2 (hregs p hp).2 fun i hi _ hdst => by
        obtain ⟨hmem, hne⟩ := move_collected hnodup hs hi
        have hpair := inj_on_of_nodup_map hnodup hmem hp hdst
        rw [← hpair] at heq
        exact hne heq
      exact ⟨by rw [hkept, heq], fun _ => by rw [hkept, heq]⟩
    · have hmem : { src := p.1, dst := p.2 } ∈ s.moves := by
        rw [hs, moves_collected hnodup]
        exact mem_map.2 ⟨p, mem_filter.2 ⟨hp, decide_eq_true heq⟩, rfl⟩
      obtain ⟨i, hi, hget⟩ := mem_iff_getElem.1 hmem
      have hmove : s.move i = { src := p.1, dst := p.2 } := by
        rw [move, getD_eq_getElem?_getD, getElem?_eq_getElem hi, Option.getD_some, hget]
      have hwritten := hmade i hi (hgone i)
      rw [hmove] at hwritten
      dsimp only at hwritten
      refine ⟨?_, fun hvec => ?_⟩
      · rw [hwritten]
        cases moveOp ctx p.2 <;> rfl
      · rw [hwritten, moveOp, if_pos hvec]
        rfl
  · intro r hr hnot
    refine (hemit.carries m).kept r hr fun i hi _ hdst => hnot ?_
    exact mem_map.2 ⟨_, (move_collected hnodup hs hi).1, hdst⟩

end

end Collected

/-- From clear tables, an edge whose parameters have registers of their own leaves the tables
clear and its code assigns the arguments to the parameters. It fails only when the arguments
are not as many as the parameters or one of them has no register. -/
theorem emitParallelMoves_spec (ctx : MoveContext) (target : BranchTarget)
    (hnodup : (target.paramRegs ctx).Nodup) :
    ∃ result, emitParallelMoves ctx {} target = some result ∧
      (target.args.length = target.params.length → Assigned ctx (target.args.zip target.params) →
        ∃ out, result = .ok out) ∧
      ∀ code tables, result = .ok (code, tables) → tables = {} ∧ Realizes ctx target code := by
  have hempty : target.args.zip target.params = [] →
      ∀ code tables, (.ok ([], {}) : Except String (List MoveInst × MoveTables)) = .ok (code, tables) →
        tables = {} ∧ Realizes ctx target code := by
    intro hnil code tables heq
    cases heq
    refine ⟨rfl, fun m => ⟨fun p hp => ?_, fun _ _ _ => rfl⟩⟩
    rw [BranchTarget.regs, hnil] at hp
    exact absurd hp not_mem_nil
  unfold emitParallelMoves
  cases hblock : target.block with
  | none =>
    refine ⟨_, rfl, fun _ _ => ⟨_, rfl⟩, hempty ?_⟩
    rw [BranchTarget.params, hblock]
    exact zip_nil_right
  | some params =>
    have hparams : target.params = params := by rw [BranchTarget.params, hblock, Option.getD_some]
    dsimp only
    by_cases hargs : target.args = []
    · rw [if_pos hargs]
      exact ⟨_, rfl, fun _ _ => ⟨_, rfl⟩, hempty (by rw [hargs, zip_nil_left])⟩
    rw [if_neg hargs]
    by_cases hlen : target.args.length ≠ params.length
    · rw [if_pos hlen]
      exact ⟨_, rfl, fun h => absurd (hparams ▸ h) hlen, fun _ _ h => by cases h⟩
    rw [if_neg hlen]
    rw [← hparams]
    cases hcollect : collectMoves ctx (target.args.zip target.params) { toMoveTables := {} } with
    | error what =>
      refine ⟨_, rfl, fun _ hassigned => ?_, fun _ _ h => by cases h⟩
      obtain ⟨t, ht⟩ := exists_collectMoves (s := { toMoveTables := {} }) hassigned
      rw [hcollect] at ht
      cases ht
    | ok s =>
      have hsub := edgeRegs_snd_sublist ctx target.args target.params
      obtain ⟨u, hu, htables, hrun⟩ := moveLoop_collected
        (hsub.nodup hnodup) (fun p hp => mem_edgeRegs hp) (collectMoves_eq hcollect)
      dsimp only
      rw [hu]
      refine ⟨_, rfl, fun _ _ => ⟨_, rfl⟩, fun code tables heq => ?_⟩
      cases heq
      refine ⟨htables, fun m => ⟨(hrun m).1, fun r hr hnot => (hrun m).2 r hr fun hmem => ?_⟩⟩
      exact hnot (hsub.subset hmem)

/-! ## All edges of a function -/

/-- The code of each edge; the tables go from edge to edge. -/
def emitEdges (ctx : MoveContext) : MoveTables → List BranchTarget →
    Option (Except String (List (List MoveInst) × MoveTables))
  | tables, [] => some (.ok ([], tables))
  | tables, target :: rest =>
    match emitParallelMoves ctx tables target with
    | none => none
    | some (.error what) => some (.error what)
    | some (.ok (code, tables)) =>
      (emitEdges ctx tables rest).map fun r => r.map fun out => (code :: out.1, out.2)

/-- The loops end on every edge, each edge finds the tables clear and leaves them clear, and
its code assigns the arguments to the parameters. It fails only when the arguments of some
edge are not as many as the parameters or one of them has no register. -/
theorem emitEdges_realizes (ctx : MoveContext) (targets : List BranchTarget)
    (hnodup : ∀ target ∈ targets, (target.paramRegs ctx).Nodup) :
    ∃ result, emitEdges ctx {} targets = some result ∧
      ((∀ target ∈ targets, target.args.length = target.params.length ∧
        Assigned ctx (target.args.zip target.params)) → ∃ out, result = .ok out) ∧
      ∀ codes tables, result = .ok (codes, tables) →
        tables = {} ∧ List.Forall₂ (Realizes ctx) targets codes := by
  induction targets with
  | nil =>
    refine ⟨_, rfl, fun _ => ⟨_, rfl⟩, fun codes tables h => ?_⟩
    cases h
    exact ⟨rfl, .nil⟩
  | cons target rest ih =>
    obtain ⟨result, hr, hsome, hok⟩ :=
      emitParallelMoves_spec ctx target (hnodup _ List.mem_cons_self)
    obtain ⟨results, hrs, hsomes, hoks⟩ := ih fun t ht => hnodup t (List.mem_cons_of_mem _ ht)
    unfold emitEdges
    rw [hr]
    cases result with
    | error what =>
      refine ⟨_, rfl, fun hall => ?_, fun _ _ h => by cases h⟩
      obtain ⟨hlen, hassigned⟩ := hall target List.mem_cons_self
      obtain ⟨out, hout⟩ := hsome hlen hassigned
      cases hout
    | ok out =>
      obtain ⟨code, tables⟩ := out
      obtain ⟨rfl, hcode⟩ := hok code tables rfl
      dsimp only
      rw [hrs]
      refine ⟨_, rfl, fun hall => ?_, fun codes tables h => ?_⟩
      · obtain ⟨out, rfl⟩ := hsomes fun t ht => hall t (List.mem_cons_of_mem _ ht)
        exact ⟨_, rfl⟩
      · cases results with
        | error what => cases h
        | ok out =>
          cases h
          obtain ⟨htables, hcodes⟩ := hoks _ _ rfl
          exact ⟨htables, .cons hcode hcodes⟩

/-- Three values in registers 0 to 2, with 3 as the scratch register. -/
def threeRegs : MoveContext where
  fnName := "f"
  reg v := if v = 0 then some 0 else if v = 1 then some 1 else if v = 2 then some 2 else none
  isVector _ := false
  scratchReg := 3
  reg_ne_scratch := by
    intro v r h
    split_ifs at h <;> cases h <;> decide

/-- Values 0 and 1 change places, and value 2 becomes what value 0 was. -/
def swapEdge : BranchTarget where
  block := some [some 0, some 1, some 2]
  args := [some 1, some 0, some 0]

theorem emitEdges_realizes_swap :
    ∃ result, emitEdges threeRegs {} [swapEdge, swapEdge] = some result ∧
      ∀ codes tables, result = .ok (codes, tables) →
        tables = {} ∧ List.Forall₂ (Realizes threeRegs) [swapEdge, swapEdge] codes := by
  have hspec := emitEdges_realizes threeRegs [swapEdge, swapEdge] (by decide)
  obtain ⟨result, hr, -, hok⟩ := hspec
  exact ⟨result, hr, hok⟩

end Brass.Vm
