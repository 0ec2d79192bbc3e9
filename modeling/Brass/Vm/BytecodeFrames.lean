import Brass.Vm.BytecodeRegallocSound
import Mathlib.Data.List.Zip
import Mathlib.Tactic.IntervalCases

/-!
# Frames and collections

A frame runs the function on the registers of the assignment. While it is stopped at a safepoint
a collection may move what its registers name; the registers outside the live set are cleared
(`collected`, as `for_each_frame_register` of `vm/fast_interpreter_state.cpp` does). What the
instructions compute, and when a collection runs, is a parameter. A run with clearing goes through
the same points with the same memory as one without (`Verified.run_clearing`).
-/

namespace Brass.Vm.BytecodeRegalloc

open Brass.Util List

/-- How an instruction is left. -/
inductive Exit
  | next
  | target (i : Nat)
  | resume
  | leaves
  deriving DecidableEq, Repr

/-- What an instruction does to the memory with the words it reads, the word of its result, and
the collection that may run while the frame is stopped there: where it moves the words of each
register. -/
structure Machine (W M : Type) where
  zero : W
  exec : Instruction → List W → M → M × W × Exit
  collect : Instruction → List W → M → Option (Nat → W → W)

structure Frame (W M : Type) where
  point : Point
  regs : Nat → W
  mem : M

section Frames

variable {W M : Type} (m : Machine W M) (fn : Function) (reg : Nat → Nat)
  (live : Point → List Nat) (clear : Bool)

/-- The registers after a collection. -/
def collected (regs : Nat → W) (p : Point) (move : Nat → W → W) (r : Nat) : W :=
  if clear = true ∧ r ∉ live p then m.zero else move r (regs r)

/-- The parameters of a block take their words, all at once. -/
def enter (params : List Nat) (words : List W) (regs : Nat → W) : Nat → W :=
  (params.zip words).foldl (fun regs a => Function.update regs (reg a.1) a.2) regs

def afterResult (inst : Instruction) (word : W) (regs : Nat → W) : Nat → W :=
  match inst.result with
  | some v => Function.update regs (reg v) word
  | none => regs

def leave (inst : Instruction) (exit : Exit) (p : Point) (regs : Nat → W) (mem : M) :
    Option (Frame W M) :=
  match exit with
  | .next =>
    if p.2 < (fn.block p.1).insts.length then some ⟨(p.1, p.2 + 1), regs, mem⟩ else none
  | .target i => inst.targets[i]?.map fun t =>
    ⟨(t.block, 1), enter reg (fn.block t.block).params (t.args.map fun v => regs (reg v)) regs, mem⟩
  | .resume => (fn.resumeOf inst).map fun r =>
    ⟨(r, 1), enter reg (fn.block r).params (inst.stateMap.map fun v => regs (reg v)) regs, mem⟩
  | .leaves => none

def step (f : Frame W M) : Option (Frame W M) :=
  (instAt fn f.point).bind fun inst =>
    let words := (inst.operands ++ inst.stateMap).map fun v => f.regs (reg v)
    let (mem, word, exit) := m.exec inst words f.mem
    let regs :=
      match m.collect inst words f.mem with
      | some move =>
        if isGcSafepoint inst.opcode then collected m live clear f.regs f.point move else f.regs
      | none => f.regs
    leave fn reg inst exit f.point (afterResult reg inst word regs) mem

def run : Nat → Frame W M → Option (Frame W M)
  | 0, f => some f
  | n + 1, f => (step m fn reg live clear f).bind (run n)

end Frames

section Clearing

variable {W M : Type} {m : Machine W M} {fn : Function} {reg : Nat → Nat}
  {live : Point → List Nat} {f g : Frame W M} {p : Point} {regs regs' : Nat → W} {v : Nat}

/-- The live sets have the registers of the values that count as live at the safepoints. -/
def Covers (fn : Function) (reg : Nat → Nat) (live : Point → List Nat) : Prop :=
  ∀ p inst, instAt fn p = some inst → isGcSafepoint inst.opcode = true →
    ∀ v, LiveByBlock fn v p → reg v ∈ live p

/-- The frames are at one point and agree on the registers of the values live there. -/
structure Agree (fn : Function) (reg : Nat → Nat) (f g : Frame W M) : Prop where
  point : f.point = g.point
  mem : f.mem = g.mem
  regs : ∀ v, (flow fn).Live v f.point → f.regs (reg v) = g.regs (reg v)

theorem enter_agree {params : List Nat} {words : List W} : ∀ {regs regs' : Nat → W},
    (∀ r, regs r = regs' r → enter reg params words regs r = enter reg params words regs' r) ∧
      (params.length ≤ words.length → ∀ v ∈ params,
        enter reg params words regs (reg v) = enter reg params words regs' (reg v)) := by
  unfold enter
  induction params generalizing words with
  | nil => simp
  | cons v params ih =>
    intro regs regs'
    cases words with
    | nil => simp
    | cons word words =>
      simp only [zip_cons_cons, foldl_cons]
      have hself : Function.update regs (reg v) word (reg v) =
          Function.update regs' (reg v) word (reg v) := by
        rw [Function.update_self, Function.update_self]
      refine ⟨fun r hr => ih.1 r ?_, fun hle u hu => ?_⟩
      · by_cases heq : r = reg v
        · rw [heq]
          exact hself
        · rw [Function.update_of_ne heq, Function.update_of_ne heq, hr]
      · rcases mem_cons.1 hu with rfl | hu
        · exact ih.1 _ hself
        · exact ih.2 (by simpa using hle) u hu

theorem live_step (h : (flow fn).Live v (p.1, p.2 + 1)) (hp : p.2 < (fn.block p.1).insts.length)
    (hnot : ¬ Defines fn p v) : (flow fn).Live v p :=
  .step hnot (.inl (.inl ⟨rfl, hp⟩)) h

theorem live_entered {b : Nat} (h : (flow fn).Live v (b, 1)) :
    v ∈ (fn.block b).params ∨ (flow fn).Live v (b, 0) := by
  by_cases hv : v ∈ (fn.block b).params
  · exact .inl hv
  · refine .inr (live_step (p := (b, 0)) h (live_le h) ?_)
    rintro (⟨-, hin⟩ | ⟨inst, hat, -⟩)
    · exact hv hin
    · cases hat

/-- Leaving an instruction keeps the agreement when the words after it agree: those of the values
live behind it that it does not define, and its result. -/
theorem Verified.leave_agree (hv : Verified fn) {inst : Instruction} {exit : Exit} {mem : M}
    (hat : instAt fn p = some inst)
    (hagree : ∀ v, Defines fn p v ∨ (flow fn).Live v p → regs (reg v) = regs' (reg v))
    (hstub : NoStubResumes fn) :
    (leave fn reg inst exit p regs mem = none ∧ leave fn reg inst exit p regs' mem = none) ∨
      ∃ f g, leave fn reg inst exit p regs mem = some f ∧
        leave fn reg inst exit p regs' mem = some g ∧ Agree fn reg f g := by
  have hbehind : ∀ {v q}, (flow fn).next p q → (flow fn).Live v q →
      regs (reg v) = regs' (reg v) := fun {v q} hn hl => by
    by_cases hd : Defines fn p v
    · exact hagree v (.inl hd)
    · exact hagree v (.inr (.step hd hn hl))
  have hreads : ∀ v ∈ readsOf inst, regs (reg v) = regs' (reg v) := fun v hin => by
    by_cases hres : inst.result = some v
    · exact hagree v (.inl (.inr ⟨inst, hat, hres⟩))
    · exact hagree v (.inr (.read ⟨inst, hat, hin, hres⟩))
  cases exit with
  | next =>
    unfold leave
    dsimp only
    split
    · rename_i hp
      exact .inr ⟨_, _, rfl, rfl, rfl, rfl, fun v hl => hbehind (.inl (.inl ⟨rfl, hp⟩)) hl⟩
    · exact .inl ⟨rfl, rfl⟩
  | target i =>
    unfold leave
    dsimp only
    rcases ht : inst.targets[i]? with _ | t
    · exact .inl ⟨rfl, rfl⟩
    · have hmem := mem_of_getElem? ht
      have hwords : t.args.map (fun v => regs (reg v)) = t.args.map fun v => regs' (reg v) :=
        map_congr_left fun v hin => hreads v (mem_append_right _ (mem_flatMap.2 ⟨t, hmem, hin⟩))
      refine .inr ⟨_, _, rfl, rfl, rfl, rfl, fun v hl => ?_⟩
      dsimp only at hl ⊢
      rw [hwords]
      rcases live_entered hl with hparam | hstart
      · exact enter_agree.2 (by rw [length_map, hv.args p inst hat t hmem]) v hparam
      · exact enter_agree.1 _ (hbehind (.inl (.inr ⟨inst, hat, t, hmem, rfl⟩)) hstart)
  | resume =>
    unfold leave
    dsimp only
    rcases hr : fn.resumeOf inst with _ | r
    · exact .inl ⟨rfl, rfl⟩
    · have hnot : inst.exitStub = false := by
        by_contra hs
        rw [hstub p inst hat (by simpa using hs)] at hr
        cases hr
      have hwords : inst.stateMap.map (fun v => regs (reg v)) =
          inst.stateMap.map fun v => regs' (reg v) :=
        map_congr_left fun v hin => hreads v (mem_append_left _ (mem_append_right _ hin))
      refine .inr ⟨_, _, rfl, rfl, rfl, rfl, fun v hl => ?_⟩
      dsimp only at hl ⊢
      rw [hwords]
      rcases live_entered hl with hparam | hstart
      · refine enter_agree.2 ?_ v hparam
        rw [length_map]
        exact (hv.state p inst r hat hr hnot).1
      · exact enter_agree.1 _ (hbehind (.inr ⟨inst, hat, r, hr, rfl⟩) hstart)
  | leaves => exact .inl ⟨rfl, rfl⟩

theorem Verified.step_agree (hv : Verified fn) (hstub : NoStubResumes fn)
    (hcovers : Covers fn reg live) (h : Agree fn reg f g) :
    (step m fn reg live true f = none ∧ step m fn reg live false g = none) ∨
      ∃ f' g', step m fn reg live true f = some f' ∧ step m fn reg live false g = some g' ∧
        Agree fn reg f' g' := by
  obtain ⟨p, regs, mem⟩ := f
  obtain ⟨p', regs', mem'⟩ := g
  obtain rfl : p = p' := h.point
  obtain rfl : mem = mem' := h.mem
  have hregs : ∀ v, (flow fn).Live v p → regs (reg v) = regs' (reg v) := h.regs
  unfold step
  dsimp only
  rcases hat : instAt fn p with _ | inst
  · exact .inl ⟨rfl, rfl⟩
  have hwords : (inst.operands ++ inst.stateMap).map (fun v => regs (reg v)) =
      (inst.operands ++ inst.stateMap).map fun v => regs' (reg v) := by
    refine map_congr_left fun v hin => hregs v (.read ⟨inst, hat, ?_, ?_⟩)
    · exact mem_append_left _ hin
    · exact hv.ownResult p inst hat v hin
  simp only [Option.bind_some]
  rw [hwords]
  generalize (inst.operands ++ inst.stateMap).map (fun v => regs' (reg v)) = words
  refine hv.leave_agree hat (fun v hv' => ?_) hstub
  -- The collection keeps the agreement on what is live here.
  have hcollected : (flow fn).Live v p → (match m.collect inst words mem with
        | some move =>
          if isGcSafepoint inst.opcode = true then collected m live true regs p move else regs
        | none => regs) (reg v) =
      (match m.collect inst words mem with
        | some move =>
          if isGcSafepoint inst.opcode = true then collected m live false regs' p move else regs'
        | none => regs') (reg v) := by
    intro hl
    rcases m.collect inst words mem with _ | move
    · exact hregs v hl
    · by_cases hsp : isGcSafepoint inst.opcode = true
      · have hin := hcovers p inst hat hsp v (hv.liveByBlock_of_live hstub hl)
        simp only [hsp, if_true]
        rw [collected, collected, if_neg (by simp [hin]), if_neg (by simp), hregs v hl]
      · simp only [hsp]
        exact hregs v hl
  unfold afterResult
  rcases hres : inst.result with _ | u
  · rcases hv' with (⟨h0, -⟩ | ⟨inst', hat', hres'⟩) | hl
    · exact absurd h0 (instAt_le hat).1.ne'
    · obtain rfl := Option.some.inj (hat.symm.trans hat')
      rw [hres] at hres'
      cases hres'
    · exact hcollected hl
  · dsimp only
    by_cases hreg : reg v = reg u
    · rw [hreg, Function.update_self, Function.update_self]
    · rw [Function.update_of_ne hreg, Function.update_of_ne hreg]
      rcases hv' with (⟨h0, -⟩ | ⟨inst', hat', hres'⟩) | hl
      · exact absurd h0 (instAt_le hat).1.ne'
      · obtain rfl := Option.some.inj (hat.symm.trans hat')
        exact absurd (congrArg reg (Option.some.inj (hres'.symm.trans hres))) hreg
      · exact hcollected hl

/-- A run with clearing goes through the same points with the same memory as one without. -/
theorem Verified.run_clearing (hv : Verified fn) (hstub : NoStubResumes fn)
    (hcovers : Covers fn reg live) (n : Nat) (h : Agree fn reg f g) :
    (run m fn reg live true n f).map (fun f => (f.point, f.mem)) =
      (run m fn reg live false n g).map fun g => (g.point, g.mem) := by
  induction n generalizing f g with
  | zero => simp [run, h.point, h.mem]
  | succ n ih =>
    rw [run, run]
    rcases hv.step_agree (m := m) hstub hcovers h with ⟨hf, hg⟩ | ⟨f', g', hf, hg, hagree⟩
    · rw [hf, hg]
      rfl
    · rw [hf, hg]
      exact ih hagree

variable {layout : BlockLayout} {out : RegisterAssignment} {s : Scan}

theorem Allocated.reg_isSome_of_live (h : Allocated fn layout out s)
    (hl : (flow fn).Live v p) : (out.reg v).isSome := by
  induction hl with
  | @read p hr =>
    have hb : p.1 < fn.blocks.length := by
      by_contra hge
      exact not_reads_of_ge (by omega : fn.blocks.length ≤ p.1) hr
    obtain ⟨x, hx, rfl, -⟩ := exists_use (b := p.1) (k := p.2) hr
    have huse := h.uses x (mem_flatMap.2 ⟨p.1, mem_range.2 hb, hx⟩)
    rw [h.reg, Option.isSome_map]
    exact huse
  | step _ _ _ ih => exact ih

theorem Allocated.reg_isSome_of_liveByBlock (h : Allocated fn layout out s)
    (hl : LiveByBlock fn v p) : (out.reg v).isSome := by
  rcases hl.2 with ⟨j, -, hr⟩ | ⟨c, -, hlive⟩
  · exact h.reg_isSome_of_live (.read hr)
  · exact h.reg_isSome_of_live hlive

/-- The live set of the safepoint at a point. -/
def liveSetAt (out : RegisterAssignment) (p : Point) : List Nat :=
  (out.liveAt (p.1, p.2 - 1)).getD []

theorem Verified.covers (hv : Verified fn) (hstub : NoStubResumes fn)
    (hl : IsLayout fn layout) (h : Allocated fn layout out s) :
    Covers fn (fun v => (out.reg v).getD 0) (liveSetAt out) := by
  rintro ⟨b, k⟩ inst hat hsp v hlive
  obtain ⟨hpos, -⟩ := instAt_le hat
  obtain ⟨k, rfl⟩ : ∃ m, k = m + 1 := ⟨k - 1, by dsimp only at hpos; omega⟩
  obtain ⟨live, hset, hmem⟩ := hv.liveAt_spec hstub hl h hat hsp
  obtain ⟨r, hr⟩ := Option.isSome_iff_exists.1 (h.reg_isSome_of_liveByBlock hlive)
  unfold liveSetAt
  dsimp only
  rw [Nat.add_sub_cancel, hset, hr, Option.getD_some, Option.getD_some, hmem]
  exact ⟨v, hr, hlive⟩

/-- The assignment is sound: values share a register only with values of their type that are never
live or written at the same point, and no result shares one with what its instruction reads; the
live set of a safepoint has the registers of the values that count as live there, which are
defined on every path to it where values are defined before they are read; and clearing every
other register at a collection changes nothing that a frame does. -/
theorem allocateBytecodeRegisters_sound (hv : Verified fn) (hstub : NoStubResumes fn)
    (hlayout : buildBlockLayout fn = .ok layout)
    (h : allocateBytecodeRegisters fn layout = .ok out) :
    (∀ v w r, v ≠ w → out.reg v = some r → out.reg w = some r →
      fn.ty v = fn.ty w ∧ ∀ p, ¬ ((flow fn).Held v p ∧ (flow fn).Held w p)) ∧
    (∀ p v u, Defines fn p v → Reads fn p u → out.reg v ≠ out.reg u) ∧
    (∀ b k inst, instAt fn (b, k + 1) = some inst → isGcSafepoint inst.opcode = true →
      ∃ live, out.liveAt (b, k) = some live ∧
        ∀ r, r ∈ live ↔ ∃ v, out.reg v = some r ∧ LiveByBlock fn v (b, k + 1)) ∧
    (∀ p v, p.2 ≤ (fn.block p.1).insts.length →
      ((flow fn).Live v p → LiveByBlock fn v p) ∧
      (LiveByBlock fn v p → (flow fn).Live v p ∨
        ∃ k < p.2, ∃ q, Resumes fn (p.1, k) q ∧ (flow fn).Live v q) ∧
      ((∀ v, ¬ (branchFlow fn).Live v (0, 0)) → LiveByBlock fn v p →
        ¬ (flow fn).Bypasses v (0, 0) p)) ∧
    ∀ {W M : Type} (m : Machine W M) (n : Nat) (f : Frame W M),
      (run m fn (fun v => (out.reg v).getD 0) (liveSetAt out) true n f).map
          (fun f => (f.point, f.mem)) =
        (run m fn (fun v => (out.reg v).getD 0) (liveSetAt out) false n f).map
          fun f => (f.point, f.mem) := by
  have hl := isLayout_buildBlockLayout hlayout
  obtain ⟨s, hs⟩ := exists_allocated h
  refine ⟨fun v w r hne hrv hrw => hv.registers_apart hstub hl hs hne hrv hrw,
    fun p v u hd hr => hv.result_ne_read hstub hl hs hd hr,
    fun b k inst hat hsp => hv.liveAt_spec hstub hl hs hat hsp, fun p v hp => ⟨?_, ?_, ?_⟩, ?_⟩
  · exact hv.liveByBlock_of_live hstub
  · exact hv.liveByBlock_cases hp
  · exact fun hstrict => hv.defined_of_liveByBlock hstub hstrict hp
  · exact fun m n f => hv.run_clearing hstub (hv.covers hstub hl hs) n ⟨rfl, rfl, fun _ _ => rfl⟩

end Clearing

/-! ## A guard before a safepoint -/

section Sample

def resumingGuard : Instruction := { opcode := .guard, operands := [1], stateMap := [0] }

def returnOf (operands : List Nat) : Instruction := { operands }

/-- `guard %1 [%0]; safepoint; ret`, where the guard resumes at `ret %0`. -/
def guardThenSafepoint : Function where
  name := "guard_then_safepoint"
  blocks :=
    [{ params := [0, 1], insts := [resumingGuard, { opcode := .safepoint }, returnOf []] },
      { insts := [returnOf [0]] }]
  ty v := if v = 0 then .gcRef else .i32
  resumePoints := [(0, 1)]

theorem instAt_guardThenSafepoint {p : Point} {inst : Instruction}
    (h : instAt guardThenSafepoint p = some inst) :
    (p = (0, 1) ∧ inst = resumingGuard) ∨ (p = (0, 2) ∧ inst = { opcode := .safepoint }) ∨
      (p = (0, 3) ∧ inst = returnOf []) ∨ (p = (1, 1) ∧ inst = returnOf [0]) := by
  obtain ⟨b, k⟩ := p
  obtain ⟨hpos, hle⟩ := instAt_le h
  have hb : b < 2 := by
    by_contra hge
    have hmem := instAt_mem h
    rw [block_of_ge (Nat.not_lt.1 hge)] at hmem
    cases hmem
  interval_cases b
  · have hk : k ≤ 3 := hle
    have hk0 : 0 < k := hpos
    interval_cases k <;> cases h <;> simp
  · have hk : k ≤ 1 := hle
    have hk0 : 0 < k := hpos
    interval_cases k
    cases h
    simp

theorem reads_guardThenSafepoint {p : Point} {v : Nat} (h : Reads guardThenSafepoint p v) :
    (p = (0, 1) ∧ (v = 1 ∨ v = 0)) ∨ (p = (1, 1) ∧ v = 0) := by
  obtain ⟨inst, hat, hv, -⟩ := h
  rcases instAt_guardThenSafepoint hat with ⟨rfl, rfl⟩ | ⟨rfl, rfl⟩ | ⟨rfl, rfl⟩ | ⟨rfl, rfl⟩ <;>
    simp [readsOf, resumingGuard, returnOf] at hv ⊢
  · exact hv
  · exact hv

theorem branches_guardThenSafepoint {p q : Point} (h : Branches guardThenSafepoint p q) :
    q = (p.1, p.2 + 1) := by
  rcases h with ⟨rfl, -⟩ | ⟨inst, hat, t, ht, -⟩
  · rfl
  · rcases instAt_guardThenSafepoint hat with ⟨-, rfl⟩ | ⟨-, rfl⟩ | ⟨-, rfl⟩ | ⟨-, rfl⟩ <;> cases ht

theorem live_guardThenSafepoint {p : Point} {v : Nat}
    (h : (branchFlow guardThenSafepoint).Live v p) :
    (p.1 = 0 ∧ p.2 ≤ 1 ∧ v ≤ 1) ∨ (p.1 = 1 ∧ v = 0) := by
  induction h with
  | read hr =>
    rcases reads_guardThenSafepoint hr with ⟨rfl, hv⟩ | ⟨rfl, hv⟩
    · exact .inl ⟨rfl, le_refl _, by omega⟩
    · exact .inr ⟨rfl, hv⟩
  | @step p q _ hn _ ih =>
    obtain rfl := branches_guardThenSafepoint hn
    rcases ih with ⟨h0, h1, hv⟩ | ⟨h1, hv⟩
    · exact .inl ⟨h0, by dsimp only at h1; omega, hv⟩
    · exact .inr ⟨h1, hv⟩

theorem verified_guardThenSafepoint : Verified guardThenSafepoint where
  inBlock b j k v hr hd := by
    rcases hd with ⟨h0, -⟩ | ⟨inst, hat, hres⟩
    · obtain ⟨inst, hat, -⟩ := hr
      have hk := (instAt_le hat).1
      have hj : j = 0 := h0
      rwa [hj]
    · rcases instAt_guardThenSafepoint hat with ⟨-, rfl⟩ | ⟨-, rfl⟩ | ⟨-, rfl⟩ | ⟨-, rfl⟩ <;>
        cases hres
  ownResult p inst hat v _ := by
    rcases instAt_guardThenSafepoint hat with ⟨-, rfl⟩ | ⟨-, rfl⟩ | ⟨-, rfl⟩ | ⟨-, rfl⟩ <;>
      exact Option.some_ne_none v ∘ Eq.symm
  closing b k inst hat hne := by
    rcases instAt_guardThenSafepoint hat with ⟨-, rfl⟩ | ⟨-, rfl⟩ | ⟨-, rfl⟩ | ⟨-, rfl⟩ <;>
      exact absurd rfl hne
  args p inst hat t ht := by
    rcases instAt_guardThenSafepoint hat with ⟨-, rfl⟩ | ⟨-, rfl⟩ | ⟨-, rfl⟩ | ⟨-, rfl⟩ <;> cases ht
  guardResult p inst hat _ := by
    rcases instAt_guardThenSafepoint hat with ⟨-, rfl⟩ | ⟨-, rfl⟩ | ⟨-, rfl⟩ | ⟨-, rfl⟩ <;> rfl
  state p inst r hat hr _ := by
    rcases instAt_guardThenSafepoint hat with ⟨-, rfl⟩ | ⟨-, rfl⟩ | ⟨-, rfl⟩ | ⟨-, rfl⟩ <;> cases hr
    refine ⟨Nat.zero_le _, fun v hl => ?_⟩
    rcases live_guardThenSafepoint hl with ⟨h0, -⟩ | ⟨-, hv⟩
    · cases h0
    · simp [resumingGuard, hv]

theorem noStubResumes_guardThenSafepoint : NoStubResumes guardThenSafepoint := by
  intro p inst hat hstub
  rcases instAt_guardThenSafepoint hat with ⟨-, rfl⟩ | ⟨-, rfl⟩ | ⟨-, rfl⟩ | ⟨-, rfl⟩ <;>
    cases hstub

theorem strict_guardThenSafepoint (v : Nat) : ¬ (branchFlow guardThenSafepoint).Live v (0, 0) := by
  intro h
  have hv : v ≤ 1 := by
    rcases live_guardThenSafepoint h with ⟨-, -, hv⟩ | ⟨h1, -⟩
    · exact hv
    · cases h1
  have hflow : (flow guardThenSafepoint).Live v (0, 0) :=
    PointFlow.Live.mono (F := branchFlow guardThenSafepoint) (fun _ => id) (fun _ => id)
      (fun _ _ => Or.inl) h
  refine verified_guardThenSafepoint.not_live_before noStubResumes_guardThenSafepoint (j := 0) ?_
    (le_refl 0) hflow
  refine .inl ⟨rfl, ?_⟩
  interval_cases v <;> simp [guardThenSafepoint, Function.block]

/-- The resume block of a guard keeps a value in the live set of a safepoint behind the guard,
though nothing reads it after the safepoint. -/
theorem liveAt_guardThenSafepoint :
    ¬ ∀ (fn : Function) (layout : BlockLayout) (out : RegisterAssignment), Verified fn →
      NoStubResumes fn → (∀ v, ¬ (branchFlow fn).Live v (0, 0)) →
      buildBlockLayout fn = .ok layout → allocateBytecodeRegisters fn layout = .ok out →
      ∀ b k inst, instAt fn (b, k + 1) = some inst → isGcSafepoint inst.opcode = true →
        ∃ live, out.liveAt (b, k) = some live ∧
          ∀ r, r ∈ live ↔ ∃ v, out.reg v = some r ∧ ¬ (flow fn).Bypasses v (0, 0) (b, k + 1) ∧
            (flow fn).Live v (b, k + 1) := by
  intro h
  obtain ⟨layout, hlayout, out, hout, hset⟩ : ∃ layout, buildBlockLayout guardThenSafepoint =
      .ok layout ∧ ∃ out, allocateBytecodeRegisters guardThenSafepoint layout = .ok out ∧
      out.liveAt (0, 1) = some [0] := ⟨_, rfl, _, rfl, rfl⟩
  obtain ⟨live, hlive, hmem⟩ := h _ layout out verified_guardThenSafepoint
    noStubResumes_guardThenSafepoint strict_guardThenSafepoint hlayout hout 0 1
    { opcode := .safepoint } rfl rfl
  obtain rfl := Option.some.inj (hset.symm.trans hlive)
  obtain ⟨v, -, -, hl⟩ := (hmem 0).1 List.mem_cons_self
  rcases live_guardThenSafepoint (verified_guardThenSafepoint.live_branchFlow
    noStubResumes_guardThenSafepoint hl) with ⟨-, h2, -⟩ | ⟨h1, -⟩
  · exact absurd h2 (by simp)
  · cases h1

theorem allocateBytecodeRegisters_sound_guardThenSafepoint :
    ∃ layout out, allocateBytecodeRegisters guardThenSafepoint layout = .ok out ∧
      ∃ live, out.liveAt (0, 1) = some live ∧
        ∀ r, r ∈ live ↔ ∃ v, out.reg v = some r ∧ LiveByBlock guardThenSafepoint v (0, 2) := by
  obtain ⟨layout, hlayout, out, hout⟩ : ∃ layout, buildBlockLayout guardThenSafepoint =
      .ok layout ∧ ∃ out, allocateBytecodeRegisters guardThenSafepoint layout = .ok out :=
    ⟨_, rfl, _, rfl⟩
  exact ⟨layout, out, hout, (allocateBytecodeRegisters_sound verified_guardThenSafepoint
    noStubResumes_guardThenSafepoint hlayout hout).2.2.1 0 1 { opcode := .safepoint } rfl rfl⟩

end Sample

end Brass.Vm.BytecodeRegalloc
