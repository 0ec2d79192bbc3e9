import Brass.Codegen.LiveRange

/-!
# What is live

A register is live at a point when a path from there reads it before it is written
(`LirFunction.LiveAt`). The paths end at the uses of `compute_local_liveness`: a `Jcc` into a
guard's exit block reads what the exit reads, and the exit block itself reads nothing.

The sets of `compute_global_liveness` are the least solution of the equations of the blocks
(`liveness_solution`, `liveness_least`), and they are the registers that are live at the ends of
the blocks (`mem_liveIn_iff`) when the analysis counts every read (`LirFunction.CountsReads`).
-/

namespace Brass.Codegen

open Brass.Util List LirOperand

namespace LirFunction

variable {fn : LirFunction} {b k v : Nat} {inst : Inst}

/-! ## The equations -/

/-- `live_in(B) = uses(B) ∪ (live_out(B) − defs(B))`, and `live_out(B)` is the union of
`live_in(S)` over the successors: the equations for one register. -/
structure SolutionOf (fn : LirFunction) (v : Nat) (I O : Nat → Prop) : Prop where
  liveIn : ∀ b < fn.blocks.length,
    I b ↔ v ∈ (fn.localLiveness b).uses ∨ (O b ∧ v ∉ (fn.localLiveness b).defs)
  liveOut : ∀ b < fn.blocks.length,
    O b ↔ ∃ s ∈ (fn.block b).successors, s < fn.blocks.length ∧ I s

def Solution (fn : LirFunction) (I O : Nat → Nat → Prop) : Prop :=
  ∀ v, fn.SolutionOf v (fun b => I b v) (fun b => O b v)

def LiveIn (fn : LirFunction) (b v : Nat) : Prop := v ∈ liveIn fn.liveTable b

def LiveOut (fn : LirFunction) (b v : Nat) : Prop := v ∈ fn.liveOut fn.liveTable b

theorem getD_locals (hb : b < fn.blocks.length) : fn.locals.getD b {} = fn.localLiveness b := by
  rw [locals, getD_eq_getElem?_getD, getElem?_map, getElem?_range hb]
  rfl

theorem mem_predsOf {p : Nat} :
    p ∈ fn.predsOf b ↔ p < fn.blocks.length ∧ b ∈ (fn.block p).successors := by
  rw [predsOf, mem_filter, mem_range, decide_eq_true_eq]

/-- The edges that a register is carried back over. -/
def Carried (fn : LirFunction) (v : Nat) : Nat → Nat → Prop :=
  Search.Reaches (fun b => (fn.predsOf b).filter (fun p => v ∉ (fn.locals.getD p {}).defs))

theorem carried_lt {r : Nat} (hr : r < fn.blocks.length) (h : fn.Carried v r b) :
    b < fn.blocks.length := by
  cases h with
  | refl => exact hr
  | tail _ hstep => exact (mem_predsOf.mp (mem_filter.mp hstep).1).1

theorem mem_liveInBlocks : b ∈ fn.liveInBlocks fn.locals v ↔
    ∃ r < fn.blocks.length, v ∈ (fn.localLiveness r).uses ∧ fn.Carried v r b := by
  have hspace : ∀ r ∈ (range fn.blocks.length).filter (fun b => v ∈ (fn.locals.getD b {}).uses),
      ∀ u, fn.Carried v r u → u ∈ range fn.blocks.length := by
    intro r hr u hu
    exact mem_range.mpr (carried_lt (mem_range.mp (mem_filter.mp hr).1) hu)
  have hroots : ((range fn.blocks.length).filter
      (fun b => decide (v ∈ (fn.locals.getD b {}).uses))).Nodup := nodup_range.filter _
  rw [liveInBlocks, (Search.mem_searchFrom_iff hroots
    (fun new todo => (reverse_perm new).append_right todo) hspace (by simp)).2 b]
  constructor
  · rintro ⟨r, hr, hreach⟩
    obtain ⟨hlt, huse⟩ := mem_filter.mp hr
    rw [mem_range] at hlt
    rw [decide_eq_true_eq, getD_locals hlt] at huse
    exact ⟨r, hlt, huse, hreach⟩
  · rintro ⟨r, hlt, huse, hreach⟩
    refine ⟨r, mem_filter.mpr ⟨mem_range.mpr hlt, ?_⟩, hreach⟩
    rw [decide_eq_true_eq, getD_locals hlt]
    exact huse

theorem length_liveTable : fn.liveTable.length = fn.vregTable.length := by
  rw [liveTable, length_map, length_range]

theorem getD_liveTable (hv : v < fn.vregTable.length) :
    fn.liveTable.getD v [] = fn.liveInBlocks fn.locals v := by
  rw [liveTable, getD_eq_getElem?_getD, getElem?_map, getElem?_range hv]
  rfl

theorem liveIn_iff : fn.LiveIn b v ↔ v < fn.vregTable.length ∧
    ∃ r < fn.blocks.length, v ∈ (fn.localLiveness r).uses ∧ fn.Carried v r b := by
  rw [LiveIn, liveIn, mem_filter, mem_range, length_liveTable, decide_eq_true_eq]
  constructor
  · rintro ⟨hv, hb⟩
    rw [getD_liveTable hv] at hb
    exact ⟨hv, mem_liveInBlocks.mp hb⟩
  · rintro ⟨hv, hb⟩
    rw [getD_liveTable hv]
    exact ⟨hv, mem_liveInBlocks.mpr hb⟩

theorem liveOut_iff : fn.LiveOut b v ↔
    ∃ s ∈ (fn.block b).successors, s < fn.blocks.length ∧ fn.LiveIn s v := by
  have hin : ∀ s, fn.LiveIn s v ↔ v < fn.liveTable.length ∧ s ∈ fn.liveTable.getD v [] := by
    intro s
    rw [LiveIn, liveIn, mem_filter, mem_range, decide_eq_true_eq]
  rw [LiveOut, liveOut, mem_filter, mem_range, any_eq_true]
  constructor
  · rintro ⟨hv, s, hs, hlive⟩
    rw [Bool.and_eq_true, decide_eq_true_eq, decide_eq_true_eq] at hlive
    exact ⟨s, hs, hlive.1, (hin s).mpr ⟨hv, hlive.2⟩⟩
  · rintro ⟨s, hs, hlt, hlive⟩
    obtain ⟨hv, hmem⟩ := (hin s).mp hlive
    refine ⟨hv, s, hs, ?_⟩
    rw [Bool.and_eq_true, decide_eq_true_eq, decide_eq_true_eq]
    exact ⟨hlt, hmem⟩

/-! ### Only registers of the table are counted -/

theorem known_lt {r : VReg} (h : fn.known r = some v) : v < fn.vregTable.length := by
  rw [known] at h
  split at h
  · rename_i hv
    obtain rfl := Option.some_inj.mp h
    rw [Bool.and_eq_true, decide_eq_true_eq] at hv
    exact hv.2
  · cases h

namespace LocalLiveness

variable {l : LocalLiveness} {vs : List VReg}

theorem mem_addUse {o : Option Nat} :
    v ∈ (l.addUse o).uses ↔ v ∈ l.uses ∨ (o = some v ∧ v ∉ l.defs) := by
  cases o with
  | none => simp [addUse]
  | some w =>
    rw [addUse]
    split
    · rename_i hskip
      constructor
      · exact .inl
      · rintro (h | ⟨h, hn⟩)
        · exact h
        · cases h
          exact hskip.resolve_left hn
    · rename_i hgo
      rw [not_or] at hgo
      simp only [mem_append, mem_singleton, Option.some_inj]
      constructor
      · rintro (h | rfl)
        · exact .inl h
        · exact .inr ⟨rfl, hgo.1⟩
      · rintro (h | ⟨rfl, -⟩)
        · exact .inl h
        · exact .inr rfl

@[simp] theorem defs_addUse {o : Option Nat} : (l.addUse o).defs = l.defs := by
  cases o with
  | none => rfl
  | some w =>
    rw [addUse]
    split <;> rfl

theorem mem_addDef {o : Option Nat} : v ∈ (l.addDef o).defs ↔ v ∈ l.defs ∨ o = some v := by
  cases o with
  | none => simp [addDef]
  | some w =>
    rw [addDef]
    split
    · rename_i hmem
      constructor
      · exact .inl
      · rintro (h | h)
        · exact h
        · cases h
          exact hmem
    · simp only [mem_append, mem_singleton, Option.some_inj, eq_comm]

@[simp] theorem uses_addDef {o : Option Nat} : (l.addDef o).uses = l.uses := by
  cases o with
  | none => rfl
  | some w =>
    rw [addDef]
    split <;> rfl

theorem foldl_addUse : (vs.foldl (fun l r => l.addUse (fn.known r)) l).defs = l.defs ∧
    (v ∈ (vs.foldl (fun l r => l.addUse (fn.known r)) l).uses ↔
      v ∈ l.uses ∨ (v ∉ l.defs ∧ ∃ r ∈ vs, fn.known r = some v)) := by
  induction vs generalizing l with
  | nil => simp
  | cons r vs ih =>
    obtain ⟨hdefs, huses⟩ := ih (l := l.addUse (fn.known r))
    rw [foldl_cons]
    refine ⟨hdefs.trans defs_addUse, huses.trans ?_⟩
    rw [mem_addUse, defs_addUse]
    simp only [mem_cons, exists_eq_or_imp]
    grind

end LocalLiveness

/-! ## Reads and writes of an instruction -/

/-- The guard exits that a `Jcc` may take. -/
def exitsOf (fn : LirFunction) (inst : Inst) : List Inst :=
  if inst.opcode == .jcc then
    inst.uses.filterMap (fun u => u.label?.bind (fun id => fn.guardExits.lookup id))
  else []

def useRegs (inst : Inst) : List VReg := inst.uses.flatMap LirOperand.readVregs

/-- The registers that the memory operands among the definitions read. -/
def defMemRegs (inst : Inst) : List VReg := inst.defs.flatMap LirOperand.memVregs

/-- The instruction reads the register; a `Jcc` also reads what the guard exits read that it
may take. -/
def Reads (fn : LirFunction) (inst : Inst) (v : Nat) : Prop :=
  ∃ r ∈ useRegs inst ++ (fn.exitsOf inst).flatMap useRegs ++ defMemRegs inst, fn.known r = some v

def Writes (fn : LirFunction) (inst : Inst) (v : Nat) : Prop :=
  ∃ r ∈ inst.defs.filterMap LirOperand.vreg?, fn.known r = some v

/-- The reads that `build_intervals` counts: the operands of the instruction, the registers
that the first guard exit names itself, and what the memory operands among the definitions
read, unless the instruction defines it. -/
def Counted (fn : LirFunction) (inst : Inst) (v : Nat) : Prop :=
  (∃ r ∈ useRegs inst, fn.known r = some v) ∨
    (∃ exit, guardExitTakenBy fn.guardExits inst = some exit ∧
      ∃ r ∈ exit.uses.filterMap LirOperand.vreg?, fn.known r = some v) ∨
    (¬ fn.Writes inst v ∧ ∃ r ∈ defMemRegs inst, fn.known r = some v)

/-- The instructions that run in their block: the one of a guard's exit block runs at the
`Jcc`. -/
def code (fn : LirFunction) (b : Nat) : List Inst :=
  if fn.isGuardExit b then [] else (fn.block b).instructions

/-- Every read of the register is counted. -/
def CountsReadsOf (fn : LirFunction) (v : Nat) : Prop :=
  ∀ b < fn.blocks.length, ∀ inst ∈ fn.code b, fn.Reads inst v → fn.Counted inst v

def CountsReads (fn : LirFunction) : Prop := ∀ v, fn.CountsReadsOf v

/-- The register is read before it is written, or not written and wanted at the end. -/
def Through (fn : LirFunction) (v : Nat) (out : Prop) : List Inst → Prop
  | [] => out
  | inst :: insts => fn.Reads inst v ∨ (¬ fn.Writes inst v ∧ fn.Through v out insts)

/-- A path from before instruction `k` of block `b` reads the register before it is written. -/
inductive LiveAt (fn : LirFunction) (v : Nat) : Nat → Nat → Prop
  | read {b k : Nat} {inst : Inst} (hi : (fn.code b)[k]? = some inst) (hr : fn.Reads inst v) :
    LiveAt fn v b k
  | skip {b k : Nat} {inst : Inst} (hi : (fn.code b)[k]? = some inst) (hw : ¬ fn.Writes inst v)
    (h : LiveAt fn v b (k + 1)) : LiveAt fn v b k
  | edge {b s : Nat} (hb : b < fn.blocks.length) (hs : s ∈ (fn.block b).successors)
    (hlt : s < fn.blocks.length) (h : LiveAt fn v s 0) : LiveAt fn v b (fn.code b).length

theorem mem_exitsOf {exit : Inst} (h : guardExitTakenBy fn.guardExits inst = some exit) :
    exit ∈ fn.exitsOf inst := by
  rw [guardExitTakenBy] at h
  split at h
  · rename_i hjcc
    rw [exitsOf, if_pos hjcc, mem_filterMap]
    obtain ⟨u, hu, hlook⟩ := exists_of_findSome?_eq_some h
    exact ⟨u, hu, hlook⟩
  · cases h

theorem vreg?_mem_useRegs {r : VReg} (h : r ∈ inst.uses.filterMap vreg?) : r ∈ useRegs inst := by
  obtain ⟨u, hu, hr⟩ := mem_filterMap.mp h
  refine mem_flatMap.mpr ⟨u, hu, ?_⟩
  rw [readVregs, hr]
  exact mem_append_left _ (by simp)

namespace LocalLiveness

variable {l : LocalLiveness}

theorem foldl_defs {step : LocalLiveness → LirOperand → LocalLiveness} {defs : List LirOperand}
    (hstep : ∀ l d, step l d = d.vreg?.elim (d.memVregs.foldl (fun l v => l.addUse (fn.known v)) l)
      fun v => l.addDef (fn.known v)) :
    (v ∈ (defs.foldl step l).defs ↔ v ∈ l.defs ∨ ∃ r ∈ defs.filterMap vreg?, fn.known r = some v) ∧
    (v ∈ l.uses → v ∈ (defs.foldl step l).uses) ∧
    (v ∈ (defs.foldl step l).uses → v ∈ l.uses ∨
      (v ∉ l.defs ∧ ∃ r ∈ defs.flatMap memVregs, fn.known r = some v)) ∧
    (v ∉ l.defs → (¬ ∃ r ∈ defs.filterMap vreg?, fn.known r = some v) →
      (∃ r ∈ defs.flatMap memVregs, fn.known r = some v) →
      v ∈ (defs.foldl step l).uses) := by
  induction defs generalizing l with
  | nil => simp
  | cons d defs ih =>
    rw [foldl_cons, hstep]
    cases hd : d.vreg? with
    | some r =>
      have hmem : d.memVregs = [] := by
        rw [memVregs, mem?]
        rw [vreg?] at hd
        cases hk : d.kind <;> rw [hk] at hd
        all_goals first | rfl | cases hd
      obtain ⟨h₁, h₂, h₃, h₄⟩ := ih (l := l.addDef (fn.known r))
      simp only [mem_addDef, uses_addDef] at h₁ h₂ h₃ h₄
      simp only [filterMap_cons, hd, flatMap_cons, hmem, nil_append, exists_mem_cons_iff]
      refine ⟨h₁.trans (by grind), h₂, fun h => (h₃ h).imp_right fun h => ?_, fun hn hw hr => ?_⟩
      · exact ⟨fun hmem => h.1 (.inl hmem), h.2⟩
      · rw [not_or] at hw
        exact h₄ (fun h => h.elim hn hw.1) hw.2 hr
    | none =>
      obtain ⟨hdefs, huses⟩ := @foldl_addUse fn v l d.memVregs
      obtain ⟨h₁, h₂, h₃, h₄⟩ :=
        ih (l := d.memVregs.foldl (fun l r => l.addUse (fn.known r)) l)
      rw [hdefs] at h₁ h₃ h₄
      rw [huses] at h₂ h₃
      simp only [filterMap_cons, hd, flatMap_cons, mem_append]
      refine ⟨h₁, fun h => h₂ (.inl h), fun h => ?_, fun hn hw hr => ?_⟩
      · rcases h₃ h with (h | ⟨hn, r, hr, hk⟩) | ⟨hn, r, hr, hk⟩
        · exact .inl h
        · exact .inr ⟨hn, r, .inl hr, hk⟩
        · exact .inr ⟨hn, r, .inr hr, hk⟩
      · obtain ⟨r, hr | hr, hk⟩ := hr
        · exact h₂ (.inr ⟨hn, r, hr, hk⟩)
        · exact h₄ hn hw ⟨r, hr, hk⟩

theorem addInst_spec (hc : fn.Reads inst v → fn.Counted inst v) :
    (v ∈ (addInst fn fn.guardExits l inst).defs ↔ v ∈ l.defs ∨ fn.Writes inst v) ∧
    (v ∈ (addInst fn fn.guardExits l inst).uses ↔ v ∈ l.uses ∨ (v ∉ l.defs ∧ fn.Reads inst v)) := by
  -- What the uses and the exit add.
  obtain ⟨mid, hmid, hdefs, huses⟩ : ∃ mid : LocalLiveness,
      mid = (guardExitTakenBy fn.guardExits inst).elim (l.addUses fn inst)
        ((l.addUses fn inst).addUses fn) ∧ mid.defs = l.defs ∧
      (v ∈ mid.uses ↔ v ∈ l.uses ∨ (v ∉ l.defs ∧ ((∃ r ∈ useRegs inst, fn.known r = some v) ∨
        ∃ exit, guardExitTakenBy fn.guardExits inst = some exit ∧
          ∃ r ∈ useRegs exit, fn.known r = some v))) := by
    refine ⟨_, rfl, ?_⟩
    obtain ⟨hd, hu⟩ := @foldl_addUse fn v l (useRegs inst)
    cases hexit : guardExitTakenBy fn.guardExits inst with
    | none =>
      refine ⟨hd, hu.trans ?_⟩
      simp
    | some exit =>
      obtain ⟨hd', hu'⟩ := @foldl_addUse fn v (l.addUses fn inst) (useRegs exit)
      refine ⟨hd'.trans hd, hu'.trans ?_⟩
      have hu₁ : v ∈ (l.addUses fn inst).uses ↔ _ := hu
      have hd₁ : (l.addUses fn inst).defs = l.defs := hd
      rw [hu₁, hd₁]
      simp only [Option.some_inj, exists_eq_left']
      rw [or_assoc, ← and_or_left]
  obtain ⟨step, hstep, hadd⟩ : ∃ step : LocalLiveness → LirOperand → LocalLiveness,
      (∀ l d, step l d = d.vreg?.elim (d.memVregs.foldl (fun l v => l.addUse (fn.known v)) l)
        fun v => l.addDef (fn.known v)) ∧
      addInst fn fn.guardExits l inst = inst.defs.foldl step mid := by
    refine ⟨_, fun l d => ?_, by rw [hmid, addInst]; cases guardExitTakenBy fn.guardExits inst <;> rfl⟩
    cases d.vreg? <;> rfl
  obtain ⟨h₁, h₂, h₃, h₄⟩ := @foldl_defs fn v mid _ inst.defs hstep
  rw [hadd]
  rw [hdefs] at h₁ h₃ h₄
  refine ⟨h₁, fun h => ?_, fun h => ?_⟩
  · rcases h₃ h with h | ⟨hn, r, hr, hk⟩
    · refine (huses.mp h).imp_right fun ⟨hn, h⟩ => ⟨hn, ?_⟩
      rcases h with ⟨r, hr, hk⟩ | ⟨exit, hexit, r, hr, hk⟩
      · exact ⟨r, mem_append_left _ (mem_append_left _ hr), hk⟩
      · refine ⟨r, mem_append_left _ (mem_append_right _ ?_), hk⟩
        exact mem_flatMap.mpr ⟨exit, mem_exitsOf hexit, hr⟩
    · exact .inr ⟨hn, r, mem_append_right _ hr, hk⟩
  · rcases h with h | ⟨hn, hreads⟩
    · exact h₂ (huses.mpr (.inl h))
    · rcases hc hreads with hr | ⟨exit, hexit, r, hr, hk⟩ | ⟨hw, hr⟩
      · exact h₂ (huses.mpr (.inr ⟨hn, .inl hr⟩))
      · exact h₂ (huses.mpr (.inr ⟨hn, .inr ⟨exit, hexit, r, vreg?_mem_useRegs hr, hk⟩⟩))
      · exact h₄ hn hw hr

end LocalLiveness

theorem foldl_addInst {insts : List Inst} {l : LocalLiveness}
    (hc : ∀ inst ∈ insts, fn.Reads inst v → fn.Counted inst v) :
    (v ∈ (insts.foldl (LocalLiveness.addInst fn fn.guardExits) l).defs ↔
      v ∈ l.defs ∨ ∃ inst ∈ insts, fn.Writes inst v) ∧
    (v ∈ (insts.foldl (LocalLiveness.addInst fn fn.guardExits) l).uses ↔
      v ∈ l.uses ∨ (v ∉ l.defs ∧ fn.Through v False insts)) := by
  induction insts generalizing l with
  | nil => simp [Through]
  | cons inst insts ih =>
    obtain ⟨hdefs, huses⟩ := LocalLiveness.addInst_spec (v := v) (l := l) (hc inst mem_cons_self)
    obtain ⟨hdefs', huses'⟩ := ih (l := LocalLiveness.addInst fn fn.guardExits l inst)
      fun i hi => hc i (mem_cons_of_mem _ hi)
    rw [foldl_cons]
    refine ⟨hdefs'.trans ?_, huses'.trans ?_⟩
    · rw [hdefs, or_assoc, exists_mem_cons_iff]
    · rw [huses, hdefs, Through]
      grind

/-! ## The sets are the least solution -/

theorem uses_lt (h : v ∈ (fn.localLiveness b).uses) : v < fn.vregTable.length := by
  have huse : ∀ (vs : List VReg) (l : LocalLiveness), (∀ w ∈ l.uses, w < fn.vregTable.length) →
      ∀ w ∈ (vs.foldl (fun l r => l.addUse (fn.known r)) l).uses, w < fn.vregTable.length := by
    intro vs l hl w hw
    rcases (LocalLiveness.foldl_addUse.2.mp hw) with hw | ⟨-, r, -, hr⟩
    · exact hl w hw
    · exact known_lt hr
  have hinst : ∀ (l : LocalLiveness) (inst : Inst), (∀ w ∈ l.uses, w < fn.vregTable.length) →
      ∀ w ∈ (LocalLiveness.addInst fn fn.guardExits l inst).uses, w < fn.vregTable.length := by
    intro l inst hl w hw
    rcases (@LocalLiveness.foldl_defs fn w _ _ _ fun _ d => by cases d.vreg? <;> rfl).2.2.1 hw with
      hw | ⟨-, r, -, hr⟩
    · split at hw
      · exact huse _ _ (huse _ l hl) w hw
      · exact huse _ l hl w hw
    · exact known_lt hr
  rw [localLiveness] at h
  split at h
  · exact absurd h (by simp)
  · have hall := foldlRecOn (motive := fun l => ∀ w ∈ l.uses, w < fn.vregTable.length)
      (fn.block b).instructions (LocalLiveness.addInst fn fn.guardExits) (b := {}) (by simp)
      fun l hl inst _ => hinst l inst hl
    exact hall v h

theorem liveness_solution (fn : LirFunction) : fn.Solution fn.LiveIn fn.LiveOut := by
  refine fun v => ⟨fun b hb => ?_, fun b _ => liveOut_iff⟩
  rw [liveIn_iff]
  constructor
  · rintro ⟨hv, r, hr, huse, hreach⟩
    cases hreach with
    | refl => exact .inl huse
    | tail hpath hstep =>
      obtain ⟨hpred, hdef⟩ := mem_filter.mp hstep
      rw [decide_eq_true_eq, getD_locals hb] at hdef
      refine .inr ⟨liveOut_iff.mpr ⟨_, (mem_predsOf.mp hpred).2, carried_lt hr hpath, ?_⟩, hdef⟩
      exact liveIn_iff.mpr ⟨hv, r, hr, huse, hpath⟩
  · rintro (huse | ⟨hout, hdef⟩)
    · exact ⟨uses_lt huse, b, hb, huse, Relation.ReflTransGen.refl⟩
    · obtain ⟨s, hs, hlt, hin⟩ := liveOut_iff.mp hout
      obtain ⟨hv, r, hr, huse, hreach⟩ := liveIn_iff.mp hin
      refine ⟨hv, r, hr, huse, hreach.tail (mem_filter.mpr ⟨mem_predsOf.mpr ⟨hb, hs⟩, ?_⟩)⟩
      rw [decide_eq_true_eq, getD_locals hb]
      exact hdef

theorem liveness_least {I O : Nat → Prop} (h : fn.SolutionOf v I O) (hb : b < fn.blocks.length) :
    (fn.LiveIn b v → I b) ∧ (fn.LiveOut b v → O b) := by
  have hin : ∀ b, fn.LiveIn b v → I b := by
    intro b hlive
    obtain ⟨-, r, hr, huse, hreach⟩ := liveIn_iff.mp hlive
    induction hreach with
    | refl => exact (h.liveIn r hr).mpr (.inl huse)
    | tail hpath hstep ih =>
      obtain ⟨hpred, hdef⟩ := mem_filter.mp hstep
      obtain ⟨hlt, hedge⟩ := mem_predsOf.mp hpred
      rw [decide_eq_true_eq, getD_locals hlt] at hdef
      have hmid := ih (liveIn_iff.mpr ⟨uses_lt huse, r, hr, huse, hpath⟩)
      refine (h.liveIn _ hlt).mpr (.inr ⟨(h.liveOut _ hlt).mpr ?_, hdef⟩)
      exact ⟨_, hedge, carried_lt hr hpath, hmid⟩
  refine ⟨hin b, fun hout => ?_⟩
  obtain ⟨s, hs, hlt, hlive⟩ := liveOut_iff.mp hout
  exact (h.liveOut b hb).mpr ⟨s, hs, hlt, hin s hlive⟩

/-! ## The sets are what is live -/

theorem localLiveness_spec (hc : fn.CountsReadsOf v) (hb : b < fn.blocks.length) :
    (v ∈ (fn.localLiveness b).defs ↔ ∃ inst ∈ fn.code b, fn.Writes inst v) ∧
      (v ∈ (fn.localLiveness b).uses ↔ fn.Through v False (fn.code b)) := by
  have hfold : fn.localLiveness b =
      (fn.code b).foldl (LocalLiveness.addInst fn fn.guardExits) {} := by
    rw [localLiveness, code]
    split <;> rfl
  rw [hfold]
  obtain ⟨hdefs, huses⟩ := foldl_addInst (v := v) (l := {}) (hc b hb)
  exact ⟨hdefs.trans (by simp), huses.trans (by simp)⟩

theorem through_iff {out : Prop} {insts : List Inst} : fn.Through v out insts ↔
    fn.Through v False insts ∨ ((¬ ∃ inst ∈ insts, fn.Writes inst v) ∧ out) := by
  induction insts with
  | nil => simp [Through]
  | cons inst insts ih =>
    rw [Through, Through, ih, exists_mem_cons_iff, not_or, and_or_left, ← and_assoc, or_assoc]

theorem liveAt_le (h : fn.LiveAt v b k) : k ≤ (fn.code b).length := by
  cases h with
  | read hi _ => exact Nat.le_of_lt (List.getElem?_eq_some_iff.mp hi).1
  | skip hi _ _ => exact Nat.le_of_lt (List.getElem?_eq_some_iff.mp hi).1
  | edge => exact Nat.le_refl _

theorem drop_eq_cons {α : Type} {l : List α} {a : α} (h : l[k]? = some a) :
    l.drop k = a :: l.drop (k + 1) := by
  obtain ⟨hlt, rfl⟩ := List.getElem?_eq_some_iff.mp h
  exact List.drop_eq_getElem_cons hlt

theorem liveAt_of_through (n : Nat) : ∀ k, k + n = (fn.code b).length →
    fn.Through v (fn.LiveAt v b (fn.code b).length) ((fn.code b).drop k) → fn.LiveAt v b k := by
  induction n with
  | zero =>
    intro k hk h
    obtain rfl : k = (fn.code b).length := hk
    rwa [drop_length] at h
  | succ n ih =>
    intro k hk h
    have hi := getElem?_eq_getElem (show k < (fn.code b).length by omega)
    rw [drop_eq_cons hi] at h
    rcases h with hr | ⟨hw, h⟩
    · exact LiveAt.read hi hr
    · exact LiveAt.skip hi hw (ih (k + 1) (by omega) h)

theorem through_of_liveAt (hc : fn.CountsReadsOf v) (h : fn.LiveAt v b k) :
    b < fn.blocks.length → fn.Through v (fn.LiveOut b v) ((fn.code b).drop k) := by
  induction h with
  | read hi hr =>
    intro _
    rw [drop_eq_cons hi]
    exact .inl hr
  | skip hi hw _ ih =>
    intro hb
    rw [drop_eq_cons hi]
    exact .inr ⟨hw, ih hb⟩
  | @edge b s _ hs hlt _ ih =>
    intro hb
    rw [drop_length]
    obtain ⟨hdefs, huses⟩ := localLiveness_spec (v := v) hc hlt
    have hin := through_iff.mp (ih hlt)
    rw [drop_zero, ← huses, ← hdefs, and_comm] at hin
    exact liveOut_iff.mpr ⟨s, hs, hlt, ((liveness_solution fn v).liveIn s hlt).mpr hin⟩

theorem liveAt_iff (hk : k ≤ (fn.code b).length) : fn.LiveAt v b k ↔
    fn.Through v (fn.LiveAt v b (fn.code b).length) ((fn.code b).drop k) := by
  refine ⟨fun h => ?_, liveAt_of_through _ k (Nat.add_sub_cancel' hk)⟩
  clear hk
  induction h with
  | read hi hr =>
    rw [drop_eq_cons hi]
    exact .inl hr
  | skip hi hw _ ih =>
    rw [drop_eq_cons hi]
    exact .inr ⟨hw, ih⟩
  | edge hb hs hlt h =>
    rw [drop_length]
    exact LiveAt.edge hb hs hlt h

theorem liveAt_end_iff (hb : b < fn.blocks.length) : fn.LiveAt v b (fn.code b).length ↔
    ∃ s ∈ (fn.block b).successors, s < fn.blocks.length ∧ fn.LiveAt v s 0 := by
  constructor
  · intro h
    generalize hk : (fn.code b).length = k at h
    cases h with
    | read hi _ =>
      have := (List.getElem?_eq_some_iff.mp hi).1
      omega
    | skip hi _ _ =>
      have := (List.getElem?_eq_some_iff.mp hi).1
      omega
    | edge _ hs hlt h => exact ⟨_, hs, hlt, h⟩
  · rintro ⟨s, hs, hlt, h⟩
    exact LiveAt.edge hb hs hlt h

theorem liveAt_solution (hc : fn.CountsReadsOf v) :
    fn.SolutionOf v (fun b => fn.LiveAt v b 0) (fun b => fn.LiveAt v b (fn.code b).length) := by
  refine ⟨fun b hb => ?_, fun b hb => liveAt_end_iff hb⟩
  obtain ⟨hdefs, huses⟩ := localLiveness_spec (v := v) hc hb
  rw [huses, hdefs, and_comm, ← through_iff, liveAt_iff (Nat.zero_le _), drop_zero]

theorem liveIn_iff_liveAt (hc : fn.CountsReadsOf v) (hb : b < fn.blocks.length) :
    (fn.LiveIn b v ↔ fn.LiveAt v b 0) ∧ (fn.LiveOut b v ↔ fn.LiveAt v b (fn.code b).length) := by
  obtain ⟨hin, hout⟩ := liveness_least (v := v) (liveAt_solution hc) hb
  refine ⟨⟨hin, fun h => ?_⟩, ⟨hout, fun h => ?_⟩⟩
  · obtain ⟨hdefs, huses⟩ := localLiveness_spec (v := v) hc hb
    have hthrough := through_iff.mp (through_of_liveAt hc h hb)
    rw [drop_zero, ← huses, ← hdefs, and_comm] at hthrough
    exact ((liveness_solution fn v).liveIn b hb).mpr hthrough
  · have hthrough := through_of_liveAt hc h hb
    rwa [drop_length] at hthrough

theorem countsReadsOf_of_plain (hexits : fn.guardExits = [])
    (hdefs : ∀ b < fn.blocks.length, ∀ inst ∈ fn.code b, defMemRegs inst = []) :
    fn.CountsReadsOf v := by
  intro b hb inst hinst ⟨r, hr, hk⟩
  have hnone : (fn.exitsOf inst).flatMap useRegs = [] := by
    rw [exitsOf, hexits]
    split <;> simp
  rw [hnone, hdefs b hb inst hinst, append_nil, append_nil] at hr
  exact .inl ⟨r, hr, hk⟩

end LirFunction

end Brass.Codegen
