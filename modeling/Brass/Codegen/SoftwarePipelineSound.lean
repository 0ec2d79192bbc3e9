import Brass.Codegen.SoftwarePipeline
import Mathlib.Data.List.Nodup

/-!
# What a pipelined loop does

A run of the blocks from one block to another, with the sequence of the loads, computations
and stores of the loop's body that it performs. The kernel loads once in each pass and the
prologue before the first; the epilogue computes and stores once more after the last. So a
loop that leaves after one pass loads at least twice once it is pipelined.
-/

namespace Brass.Codegen.SoftwarePipeline

open List LoopParts

variable {α σ ω : Type}
variable {s : σ} {insts : List (Tagged α)} {i k : Nat}

/-- What instructions do: to the state, whether a `jcc` is taken, what an instruction reads
and computes, and the states that agree on all registers but two. -/
structure Machine (α σ ω : Type) where
  exec : LirInst α → σ → σ
  taken : LirInst α → σ → Bool
  sees : LirInst α → σ → ω
  Agree : VReg → VReg → σ → σ → Prop

/-- Where control goes at the end of a block. -/
inductive Exit
  | goes (id : UInt32)
  | leaves
  | falls
  deriving DecidableEq

/-- An instruction of the loop's body that is performed: its index, what it sees, and whether
control goes on after it. -/
structure Event (ω : Type) where
  index : Nat
  sees : ω
  goesOn : Bool

structure Pass (σ ω : Type) where
  trace : List (Event ω)
  state : σ
  exit : Exit

def labelOf (inst : LirInst α) : Option UInt32 :=
  match inst.uses with
  | { kind := .label id, .. } :: _ => some id
  | _ => none

def jumpExit (inst : LirInst α) : Exit :=
  match labelOf inst with
  | some id => .goes id
  | none => .leaves

/-- Where the instruction sends control, or `none` when it goes on. -/
def diverts (m : Machine α σ ω) (inst : LirInst α) (s : σ) : Option Exit :=
  match inst.opcode with
  | .jmp => some (jumpExit inst)
  | .jcc => if m.taken inst s then some (jumpExit inst) else none
  | .ret | .guardExit | .trap => some .leaves
  | _ => none

def eventOf (m : Machine α σ ω) (inst : Tagged α) (s : σ) : List (Event ω) :=
  (inst.1.map fun k => ⟨k, m.sees inst.2 s, (diverts m inst.2 s).isNone⟩).toList

/-- One pass through the instructions of a block. -/
def runInsts (m : Machine α σ ω) : List (Tagged α) → σ → Pass σ ω
  | [], s => ⟨[], s, .falls⟩
  | inst :: rest, s =>
    match diverts m inst.2 s with
    | some exit => ⟨eventOf m inst s, m.exec inst.2 s, exit⟩
    | none =>
      let pass := runInsts m rest (m.exec inst.2 s)
      ⟨eventOf m inst s ++ pass.trace, pass.state, pass.exit⟩

def followerOf : List (LoopBlock α) → UInt32 → Option UInt32
  | [], _ => none
  | b :: rest, id => if b.id = id then rest.head?.map (·.id) else followerOf rest id

def Exit.target (follower : Option UInt32) : Exit → Option UInt32
  | .goes id => some id
  | .leaves => none
  | .falls => follower

/-- Which instruction of the loop's body the instruction at a place of a block performs. -/
abbrev Tags := UInt32 → Nat → Option Nat

def codeOf (blocks : List (LoopBlock α)) (tags : Tags) (id : UInt32) : Option (List (Tagged α)) :=
  (blockById blocks id).map fun b => b.instructions.mapIdx fun i inst => (tags id i, inst)

/-- A run from a block to the start of the block `target`. -/
inductive Reaches (m : Machine α σ ω) (blocks : List (LoopBlock α)) (tags : Tags) (target : UInt32) :
    UInt32 → σ → List (Event ω) → σ → Prop
  | arrive (s : σ) : Reaches m blocks tags target target s [] s
  | block {id next : UInt32} {s s' : σ} {insts : List (Tagged α)} {trace : List (Event ω)}
      (hid : id ≠ target) (hcode : codeOf blocks tags id = some insts)
      (hnext : (runInsts m insts s).exit.target (followerOf blocks id) = some next)
      (hrest : Reaches m blocks tags target next (runInsts m insts s).state trace s') :
      Reaches m blocks tags target id s ((runInsts m insts s).trace ++ trace) s'

theorem Reaches.step {m : Machine α σ ω} {blocks : List (LoopBlock α)} {tags : Tags}
    {target id : UInt32} {s' : σ} {trace : List (Event ω)}
    (h : Reaches m blocks tags target id s trace s') (hid : id ≠ target) :
    ∃ insts next rest, codeOf blocks tags id = some insts ∧
      (runInsts m insts s).exit.target (followerOf blocks id) = some next ∧
      trace = (runInsts m insts s).trace ++ rest ∧
      Reaches m blocks tags target next (runInsts m insts s).state rest s' := by
  cases h with
  | arrive => exact absurd rfl hid
  | block _ hcode hnext hrest => exact ⟨_, _, _, hcode, hnext, rfl, hrest⟩

/-- The instructions of the body whose order counts: the load, the computations and the
stores. -/
def LoopParts.performed (parts : LoopParts α) : List Nat :=
  (parts.load.map (·.1)).toList ++ parts.computeIndices ++ parts.storeIndices

def bodyTags (loop : UInt32) (parts : LoopParts α) : Tags := fun id i =>
  if id = loop ∧ i ∈ parts.performed then some i else none

def Pipelined.tags (p : Pipelined α) : Tags := fun id i =>
  if id = p.prologue then (p.prologueCode[i]?).bind (·.1)
  else if id = p.loop then (p.kernelCode[i]?).bind (·.1)
  else if id = p.epilogue then (p.epilogueCode[i]?).bind (·.1)
  else none

/-- The new code does what the loop did: from every state, for every number of passes after
which the loop reaches its exit block. -/
def Meets [Inhabited α] (m : Machine α σ ω) (fn : LoopFunction α) (loop : LoopBlock α)
    (parts : LoopParts α) (p : Pipelined α) : Prop :=
  ∀ s trace s', Reaches m fn.blocks (bodyTags loop.id parts) p.exit loop.id s trace s' →
    ∃ s'', Reaches m (pipelineLoop fn loop.name p) p.tags p.exit p.prologue s trace s'' ∧
      m.Agree p.prime p.next s' s''

/-- A pass from `s` performs the body up to the branch back, which is not taken, and goes on
to the exit block. -/
def LeavesAtBranch (m : Machine α σ ω) (fn : LoopFunction α) (loop : LoopBlock α)
    (parts : LoopParts α) (exit : UInt32) (s : σ) : Prop :=
  ∃ insts, codeOf fn.blocks (bodyTags loop.id parts) loop.id = some insts ∧
    (runInsts m (insts.take (parts.branchIdx + 1)) s).exit = .falls ∧
    (runInsts m insts s).exit.target (followerOf fn.blocks loop.id) = some exit

/-! ## One pass -/

section Pass

variable {m : Machine α σ ω}

theorem diverts_ne_falls {inst : LirInst α} {exit : Exit} (h : diverts m inst s = some exit) :
    exit ≠ .falls := by
  have hjump : jumpExit inst ≠ .falls := by
    unfold jumpExit
    split <;> simp
  unfold diverts at h
  split at h
  · obtain rfl := Option.some.inj h
    exact hjump
  · split at h
    · obtain rfl := Option.some.inj h
      exact hjump
    · exact absurd h (by simp)
  · obtain rfl := Option.some.inj h
    simp
  · obtain rfl := Option.some.inj h
    simp
  · obtain rfl := Option.some.inj h
    simp
  · exact absurd h (by simp)

theorem runInsts_append_of_falls {first : List (Tagged α)}
    (h : (runInsts m first s).exit = .falls) (second : List (Tagged α)) :
    runInsts m (first ++ second) s =
      ⟨(runInsts m first s).trace ++ (runInsts m second (runInsts m first s).state).trace,
        (runInsts m second (runInsts m first s).state).state,
        (runInsts m second (runInsts m first s).state).exit⟩ := by
  induction first generalizing s with
  | nil => rfl
  | cons inst first ih =>
    unfold runInsts at h
    rw [cons_append, runInsts]
    conv_rhs => rw [runInsts]
    cases hd : diverts m inst.2 s with
    | some exit =>
      rw [hd] at h
      exact absurd h (diverts_ne_falls hd)
    | none =>
      rw [hd] at h
      simp only [ih h, append_assoc]

theorem runInsts_append_of_exit {first : List (Tagged α)}
    (h : (runInsts m first s).exit ≠ .falls) (second : List (Tagged α)) :
    runInsts m (first ++ second) s = runInsts m first s := by
  induction first generalizing s with
  | nil => exact absurd rfl h
  | cons inst first ih =>
    unfold runInsts at h
    rw [cons_append, runInsts]
    conv_rhs => rw [runInsts]
    cases hd : diverts m inst.2 s with
    | some exit => rfl
    | none =>
      rw [hd] at h
      simp only [ih h]

theorem eventOf_index (inst : Tagged α) (s : σ) :
    (eventOf m inst s).map Event.index = inst.1.toList := by
  cases h : inst.1 <;> simp [eventOf, h]

theorem runInsts_sublist (insts : List (Tagged α)) (s : σ) :
    ((runInsts m insts s).trace.map Event.index).Sublist (insts.filterMap (·.1)) := by
  induction insts generalizing s with
  | nil => exact List.Sublist.refl _
  | cons inst insts ih =>
    have hcons : (inst :: insts).filterMap (·.1) = inst.1.toList ++ insts.filterMap (·.1) := by
      cases h : inst.1 <;> simp [h]
    rw [hcons, runInsts]
    split
    · rw [eventOf_index]
      exact sublist_append_left _ _
    · rw [map_append, eventOf_index]
      exact (List.Sublist.refl _).append (ih _)

theorem trace_eq_nil (h : insts.filterMap (·.1) = []) (s : σ) :
    (runInsts m insts s).trace = [] := by
  have hsub := runInsts_sublist (m := m) insts s
  rw [h, sublist_nil, map_eq_nil_iff] at hsub
  exact hsub

/-- Every event of a pass that falls off the end lets control go on. -/
theorem goesOn_of_falls (h : (runInsts m insts s).exit = .falls) :
    ∀ e ∈ (runInsts m insts s).trace, e.goesOn = true := by
  induction insts generalizing s with
  | nil => simp [runInsts]
  | cons inst insts ih =>
    unfold runInsts at h ⊢
    cases hd : diverts m inst.2 s with
    | some exit =>
      rw [hd] at h
      exact absurd h (diverts_ne_falls hd)
    | none =>
      rw [hd] at h
      intro e he
      rcases mem_append.mp he with he | he
      · cases htag : inst.1 with
        | none => simp [eventOf, htag] at he
        | some k =>
          obtain rfl : e = ⟨k, m.sees inst.2 s, (diverts m inst.2 s).isNone⟩ := by
            simpa [eventOf, htag] using he
          simp [hd]
      · exact ih h e he

/-- A pass through instructions of the body that does not fall off the end has an event
after which control does not go on. -/
theorem exists_not_goesOn (htags : ∀ inst ∈ insts, inst.1.isSome = true)
    (h : (runInsts m insts s).exit ≠ .falls) :
    ∃ e ∈ (runInsts m insts s).trace, e.goesOn = false := by
  induction insts generalizing s with
  | nil => exact absurd rfl h
  | cons inst insts ih =>
    obtain ⟨k, hk⟩ := Option.isSome_iff_exists.mp (htags inst mem_cons_self)
    unfold runInsts at h ⊢
    cases hd : diverts m inst.2 s with
    | some exit => exact ⟨⟨k, m.sees inst.2 s, false⟩, by simp [eventOf, hk, hd], rfl⟩
    | none =>
      rw [hd] at h
      obtain ⟨e, he, hgo⟩ := ih (fun inst' hin => htags inst' (mem_cons_of_mem _ hin)) h
      exact ⟨e, mem_append_right _ he, hgo⟩

end Pass

/-! ## The parts of the loop -/

theorem classify_branchIdx (parts : LoopParts α) (i : Nat) (inst : LirInst α) :
    (classify parts i inst).branchIdx = parts.branchIdx := by
  unfold classify
  split
  · rfl
  · split
    · rfl
    · split
      · rfl
      · split <;> rfl

theorem classify_performed {parts : LoopParts α} {inst : LirInst α}
    (h : k ∈ (classify parts i inst).performed) : k ∈ parts.performed ∨ k = i := by
  unfold classify at h
  split at h
  · simp only [performed, mem_append, Option.map_some, Option.toList_some, mem_singleton] at h
    rcases h with (rfl | h) | h
    · exact .inr rfl
    · exact .inl (by simp [performed, h])
    · exact .inl (by simp [performed, h])
  · split at h
    · exact .inl h
    · split at h
      · exact .inl h
      · split at h
        · simp only [performed, mem_append, mem_singleton] at h
          rcases h with h | h | rfl
          · exact .inl (by simp only [performed, mem_append]; exact .inl h)
          · exact .inl (by simp only [performed, mem_append]; exact .inr h)
          · exact .inr rfl
        · simp only [performed, mem_append, mem_singleton] at h
          rcases h with (h | h | rfl) | h
          · exact .inl (by simp only [performed, mem_append]; exact .inl (.inl h))
          · exact .inl (by simp only [performed, mem_append]; exact .inl (.inr h))
          · exact .inr rfl
          · exact .inl (by simp only [performed, mem_append]; exact .inr h)

theorem classifyAll_branchIdx (insts : List (LirInst α)) (parts : LoopParts α) (i : Nat) :
    (classifyAll parts i insts).branchIdx = parts.branchIdx := by
  induction insts generalizing parts i with
  | nil => rfl
  | cons inst insts ih => rw [classifyAll, ih, classify_branchIdx]

theorem classifyAll_performed {insts : List (LirInst α)} {parts : LoopParts α}
    (h : k ∈ (classifyAll parts i insts).performed) :
    k ∈ parts.performed ∨ k < i + insts.length := by
  induction insts generalizing parts i with
  | nil => exact .inl h
  | cons inst insts ih =>
    rw [length_cons]
    rcases ih h with h | h
    · rcases classify_performed h with h | h
      · exact .inl h
      · exact .inr (by omega)
    · exact .inr (by omega)

theorem performed_lt {loop : LoopBlock α} {opts : PipelineOptions} {parts : LoopParts α}
    (h : pipelinableParts loop opts = some parts) : ∀ k ∈ parts.performed, k < parts.branchIdx := by
  unfold pipelinableParts at h
  split at h
  · exact absurd h (by simp)
  split at h
  · exact absurd h (by simp)
  next found hfound =>
  obtain rfl : found = parts := by
    split at h
    · exact absurd h (by simp)
    · exact Option.some.inj h
  unfold analyzeLoopBlock at hfound
  dsimp only at hfound
  split at hfound
  · exact absurd hfound (by simp)
  split at hfound
  · exact absurd hfound (by simp)
  next branchIdx _ =>
  split at hfound
  · exact absurd hfound (by simp)
  split at hfound
  · split at hfound
    · obtain rfl := Option.some.inj hfound
      intro k hk
      rw [classifyAll_branchIdx]
      rcases classifyAll_performed hk with hk | hk
      · simp [performed] at hk
      · have hlen := length_take_le branchIdx loop.instructions
        exact (Nat.zero_add _ ▸ hk).trans_le hlen
    · exact absurd hfound (by simp)
  · exact absurd hfound (by simp)

/-! ## The new blocks -/

section

variable (p : Pipelined α) (b : LoopBlock α)
include p b

@[simp] theorem setKernel_id : (setKernel p b).id = b.id := by
  unfold setKernel
  split <;> rfl

@[simp] theorem rewirePreheader_id : (rewirePreheader p b).id = b.id := by
  unfold rewirePreheader
  split <;> rfl

@[simp] theorem rewireLoop_id : (rewireLoop p b).id = b.id := by
  unfold rewireLoop
  split <;> rfl

@[simp] theorem rewireExit_id : (rewireExit p b).id = b.id := by
  unfold rewireExit
  split <;> rfl

theorem rewireBlock_id : (rewireBlock p b).id = b.id := by
  simp [rewireBlock]

end

theorem blockById_of_mem {blocks : List (LoopBlock α)} (hids : (blocks.map (·.id)).Nodup)
    {b : LoopBlock α} (hb : b ∈ blocks) : blockById blocks b.id = some b := by
  cases hfind : blockById blocks b.id with
  | none => exact absurd (find?_eq_none.mp hfind b hb) (by simp)
  | some a =>
    have ha := mem_of_find?_eq_some hfind
    have hid : a.id = b.id := by
      have := find?_some hfind
      simpa using this
    rw [inj_on_of_nodup_map hids ha hb hid]

theorem mapIdx_tags (code : List (Tagged α)) :
    (code.map Prod.snd).mapIdx (fun i inst => ((code[i]?).bind (·.1), inst)) = code := by
  apply ext_getElem?
  intro i
  rw [getElem?_mapIdx, getElem?_map]
  cases h : code[i]? <;> simp

section NewBlocks

variable [Inhabited α] {fn : LoopFunction α} {loop : LoopBlock α} {opts : PipelineOptions}
  {parts : LoopParts α} {p : Pipelined α}

/-- What the plan consists of. -/
structure Planned (fn : LoopFunction α) (loop : LoopBlock α) (parts : LoopParts α) (p : Pipelined α) :
    Prop where
  loop_eq : p.loop = loop.id
  prologue_eq : p.prologue = fn.nextBlockId
  epilogue_eq : p.epilogue = fn.nextBlockId + 1
  preheader_ne : p.preheader ≠ loop.id
  exit_ne : p.exit ≠ loop.id
  exit_mem : p.exit ∈ loop.successors
  code : ∃ loadIdx load dst, parts.load = some (loadIdx, load, dst) ∧
    p.prologueCode = prologueCode loop.id loadIdx load dst p.prime ∧
    p.kernelCode =
      kernelCode loop.instructions parts loadIdx load dst p.prime p.next p.epilogue

theorem planned (hparts : pipelinableParts loop opts = some parts)
    (hplan : planPipeline fn loop opts = some p) : Planned fn loop parts p := by
  unfold planPipeline at hplan
  rw [hparts] at hplan
  dsimp only at hplan
  split at hplan
  · next loadIdx load dst preheader exit hload hpre hexit =>
    obtain rfl := Option.some.inj hplan
    have hpre := find?_some hpre
    have hne := find?_some hexit
    exact
      { loop_eq := rfl
        prologue_eq := rfl
        epilogue_eq := rfl
        preheader_ne := by simpa using hpre
        exit_ne := by simpa using hne
        exit_mem := mem_of_find?_eq_some hexit
        code := ⟨loadIdx, load, dst, hload, rfl, rfl⟩ }
  · exact absurd hplan (by simp)

theorem Planned.blockById_prologue (h : Planned fn loop parts p) :
    blockById (pipelineLoop fn loop.name p) p.prologue = some
        { id := p.prologue, name := loop.name ++ "_prologue"
          instructions := p.prologueCode.map Prod.snd
          predecessors := [p.preheader], successors := [p.loop] } := by
  unfold blockById pipelineLoop
  rw [find?_append]
  have hnone : (fn.blocks.map (rewireBlock p)).find? (·.id == p.prologue) = none := by
    rw [find?_eq_none]
    intro b hb
    obtain ⟨a, ha, rfl⟩ := mem_map.mp hb
    have hlt := fn.ids_lt a ha
    rw [rewireBlock_id, h.prologue_eq, beq_iff_eq]
    rintro heq
    rw [heq] at hlt
    exact absurd hlt (by simp)
  rw [hnone]
  simp

theorem Planned.codeOf_prologue (h : Planned fn loop parts p) :
    codeOf (pipelineLoop fn loop.name p) p.tags p.prologue = some p.prologueCode := by
  rw [codeOf, h.blockById_prologue]
  have htags : (fun i inst => (p.tags p.prologue i, inst)) =
      fun i (inst : LirInst α) => ((p.prologueCode[i]?).bind (·.1), inst) := by
    funext i inst
    simp [Pipelined.tags]
  simp only [Option.map_some, htags, mapIdx_tags]

theorem Planned.codeOf_loop (h : Planned fn loop parts p) (hloop : loop ∈ fn.blocks) :
    codeOf (pipelineLoop fn loop.name p) p.tags loop.id = some p.kernelCode := by
  have hmem : rewireBlock p loop ∈ fn.blocks.map (rewireBlock p) := mem_map_of_mem hloop
  have hids : ((fn.blocks.map (rewireBlock p)).map (·.id)).Nodup := by
    rw [map_map]
    have hcomp : ((fun b : LoopBlock α => b.id) ∘ rewireBlock p) = fun b => b.id :=
      funext fun b => rewireBlock_id p b
    rw [hcomp]
    exact fn.ids_nodup
  have hfind : blockById (pipelineLoop fn loop.name p) loop.id = some (rewireBlock p loop) := by
    have hin := blockById_of_mem hids hmem
    rw [rewireBlock_id] at hin
    unfold blockById at hin
    rw [blockById, pipelineLoop, find?_append, hin]
    rfl
  have hinsts : (rewireBlock p loop).instructions = p.kernelCode.map Prod.snd := by
    have hpre : loop.id ≠ p.preheader := h.preheader_ne.symm
    have hexit : loop.id ≠ p.exit := h.exit_ne.symm
    simp [rewireBlock, setKernel, rewirePreheader, rewireLoop, rewireExit, h.loop_eq, hpre, hexit]
  have hne : loop.id ≠ p.prologue := by
    intro heq
    have hlt := fn.ids_lt loop hloop
    rw [heq, h.prologue_eq] at hlt
    exact absurd hlt (by simp)
  have htags : (fun i inst => (p.tags loop.id i, inst)) =
      fun i (inst : LirInst α) => ((p.kernelCode[i]?).bind (·.1), inst) := by
    funext i inst
    simp [Pipelined.tags, hne, h.loop_eq]
  rw [codeOf, hfind, Option.map_some, hinsts, htags, mapIdx_tags]

/-! ## One pass of the loop -/

omit [Inhabited α] in
/-- Tags that name their own places are met in their order. -/
theorem tags_ascending (tag : Nat → Option Nat) (htag : ∀ i k, tag i = some k → k = i)
    (insts : List (LirInst α)) (start : Nat) :
    ((insts.mapIdx fun i inst => (tag (start + i), inst)).filterMap (·.1)).Pairwise (· < ·) ∧
      ∀ k ∈ (insts.mapIdx fun i inst => (tag (start + i), inst)).filterMap (·.1), start ≤ k := by
  induction insts generalizing start with
  | nil => simp
  | cons inst insts ih =>
    obtain ⟨hsorted, hge⟩ := ih (start + 1)
    have hshift : (fun (i : Nat) (inst : LirInst α) => (tag (start + (i + 1)), inst)) =
        fun i inst => (tag (start + 1 + i), inst) := by
      funext i inst
      rw [Nat.add_assoc, Nat.add_comm 1 i]
    rw [mapIdx_cons, hshift, Nat.add_zero]
    cases hfirst : tag start with
    | none =>
      rw [filterMap_cons_none rfl]
      exact ⟨hsorted, fun k hk => by have := hge k hk; omega⟩
    | some k =>
      obtain rfl := htag start k hfirst
      rw [filterMap_cons_some (f := fun x : Tagged α => x.1) rfl, pairwise_cons]
      refine ⟨⟨fun k' hk' => hge k' hk', hsorted⟩, ?_⟩
      intro k' hk'
      rcases mem_cons.mp hk' with rfl | hk'
      · exact le_rfl
      · have := hge k' hk'
        omega

omit [Inhabited α] in
theorem bodyTags_self {id : UInt32} (h : bodyTags id parts id i = some k) : k = i := by
  unfold bodyTags at h
  split at h
  · exact (Option.some.inj h).symm
  · exact absurd h (by simp)

omit [Inhabited α] in
/-- A pass that leaves at the branch performs each instruction at most once, and control goes
on after each. -/
theorem trace_of_branch {m : Machine α σ ω} (hparts : pipelinableParts loop opts = some parts)
    (hcode : codeOf fn.blocks (bodyTags loop.id parts) loop.id = some insts)
    (hfalls : (runInsts m (insts.take (parts.branchIdx + 1)) s).exit = .falls) :
    (((runInsts m insts s).trace.map Event.index).Nodup ∧
      ∀ e ∈ (runInsts m insts s).trace, e.goesOn = true) := by
  obtain ⟨b, -, rfl⟩ := Option.map_eq_some_iff.mp hcode
  constructor
  · have hsorted := (tags_ascending (bodyTags loop.id parts loop.id) (fun _ _ => bodyTags_self)
      b.instructions 0).1
    simp only [Nat.zero_add] at hsorted
    exact (hsorted.imp fun h => h.ne).sublist (runInsts_sublist _ s)
  · have hlate : ((b.instructions.mapIdx fun i inst => (bodyTags loop.id parts loop.id i, inst)).drop
        (parts.branchIdx + 1)).filterMap (·.1) = [] := by
      rw [filterMap_eq_nil_iff]
      intro a ha
      obtain ⟨i, hi⟩ := mem_iff_getElem?.mp ha
      rw [getElem?_drop, getElem?_mapIdx] at hi
      obtain ⟨inst, -, rfl⟩ := Option.map_eq_some_iff.mp hi
      have hout : parts.branchIdx + 1 + i ∉ parts.performed := by
        intro hin
        have := performed_lt hparts _ hin
        omega
      simp [bodyTags, hout]
    intro e he
    rw [← take_append_drop (parts.branchIdx + 1) (b.instructions.mapIdx _),
      runInsts_append_of_falls hfalls] at he
    rcases mem_append.mp he with he | he
    · exact goesOn_of_falls hfalls e he
    · rw [trace_eq_nil hlate] at he
      exact absurd he (by simp)

omit [Inhabited α] in
theorem clonesAt_tags (body : List (LirInst α)) (old new : VReg) (indices : List Nat) :
    ∀ inst ∈ clonesAt body old new indices, inst.1.isSome = true := by
  intro inst hin
  obtain ⟨i, -, hi⟩ := mem_filterMap.mp hin
  obtain ⟨_, -, rfl⟩ := Option.map_eq_some_iff.mp hi
  rfl

theorem kernel_loads (m : Machine α σ ω) (parts : LoopParts α) (body : List (LirInst α)) (loadIdx : Nat)
    (load : LirInst α) (dst prime next : VReg) (epilogue : UInt32) (s : σ) :
    (∃ e ∈ (runInsts m (kernelCode body parts loadIdx load dst prime next epilogue) s).trace,
        e.goesOn = false) ∨
      ∃ e ∈ (runInsts m (kernelCode body parts loadIdx load dst prime next epilogue) s).trace,
        e.index = loadIdx := by
  obtain ⟨rest, hsplit⟩ : ∃ rest, kernelCode body parts loadIdx load dst prime next epilogue =
      (clonesAt body dst prime parts.computeIndices ++ clonesAt body dst prime parts.storeIndices) ++
        ((some loadIdx, cloneInstruction dst next load) :: rest) := by
    simp only [kernelCode, append_assoc, cons_append]
    exact ⟨_, rfl⟩
  rw [hsplit]
  have htags : ∀ inst ∈ clonesAt body dst prime parts.computeIndices ++
      clonesAt body dst prime parts.storeIndices, inst.1.isSome = true := by
    intro inst hin
    rcases mem_append.mp hin with hin | hin
    · exact clonesAt_tags _ _ _ _ inst hin
    · exact clonesAt_tags _ _ _ _ inst hin
  by_cases hfalls : (runInsts m (clonesAt body dst prime parts.computeIndices ++
      clonesAt body dst prime parts.storeIndices) s).exit = .falls
  · right
    rw [runInsts_append_of_falls hfalls, runInsts]
    split
    · exact ⟨_, mem_append_right _ (by simp [eventOf]; rfl), rfl⟩
    · exact ⟨_, mem_append_right _ (mem_append_left _ (by simp [eventOf]; rfl)), rfl⟩
  · left
    rw [runInsts_append_of_exit hfalls]
    exact exists_not_goesOn htags hfalls

/-- A loop that can leave at its branch is not what it was once it is pipelined: after one
pass it has loaded twice. -/
theorem Meets.not_leavesAtBranch {m : Machine α σ ω} (hloop : loop ∈ fn.blocks)
    (hparts : pipelinableParts loop opts = some parts)
    (hplan : planPipeline fn loop opts = some p) (hmeets : Meets m fn loop parts p) (s : σ) :
    ¬ LeavesAtBranch m fn loop parts p.exit s := by
  rintro ⟨insts, hcode, hfalls, hexit⟩
  have hp := planned hparts hplan
  obtain ⟨hnodup, hgoes⟩ := trace_of_branch hparts hcode hfalls
  have hrun : Reaches m fn.blocks (bodyTags loop.id parts) p.exit loop.id s
      ((runInsts m insts s).trace ++ []) (runInsts m insts s).state :=
    .block hp.exit_ne.symm hcode hexit (.arrive _)
  obtain ⟨s'', hnew, -⟩ := hmeets _ _ _ hrun
  rw [append_nil] at hnew
  generalize (runInsts m insts s).trace = trace at hnodup hgoes hnew
  obtain ⟨loadIdx, load, dst, -, hprologue, hkernel⟩ := hp.code
  have hprologueNe : p.prologue ≠ p.exit := by
    intro heq
    have hlt := fn.successors_lt loop hloop p.exit hp.exit_mem
    rw [← heq, hp.prologue_eq] at hlt
    exact absurd hlt (by simp)
  -- the prologue: its load is an event, after which control goes on to the kernel
  obtain ⟨_, next, rest, hcode', hnext, htrace, hrest⟩ := hnew.step hprologueNe
  rw [hp.codeOf_prologue] at hcode'
  obtain rfl := Option.some.inj hcode'
  rw [hprologue] at hnext htrace hrest
  subst htrace
  have hload : diverts m (cloneInstruction dst p.prime load) s = none := by
    by_contra hne
    obtain ⟨exit, hd⟩ := Option.ne_none_iff_exists'.mp hne
    have := hgoes ⟨loadIdx, m.sees (cloneInstruction dst p.prime load) s, false⟩
      (mem_append_left _ (by simp [prologueCode, runInsts, hd, eventOf]))
    exact absurd this (by simp)
  have hjump : diverts m (jumpTo (α := α) loop.id) (m.exec (cloneInstruction dst p.prime load) s) =
      some (.goes loop.id) := rfl
  have hfirst : loadIdx ∈ (runInsts m (prologueCode loop.id loadIdx load dst p.prime) s).trace.map
      Event.index := by
    simp [prologueCode, runInsts, hload, eventOf]
  simp only [prologueCode, runInsts, hload, hjump, Exit.target, Option.some.injEq] at hnext
  subst hnext
  -- the kernel: it loads again
  obtain ⟨_, next, rest', hcode'', hnext', htrace', -⟩ := hrest.step hp.exit_ne.symm
  rw [hp.codeOf_loop hloop] at hcode''
  obtain rfl := Option.some.inj hcode''
  rw [hkernel] at htrace'
  subst htrace'
  rcases kernel_loads m parts loop.instructions loadIdx load dst p.prime p.next p.epilogue
       (runInsts m (prologueCode loop.id loadIdx load dst p.prime) s).state with
    ⟨e, he, hgo⟩ | ⟨e, he, hidx⟩
  · have := hgoes e (mem_append_right _ (mem_append_left _ he))
    rw [hgo] at this
    exact absurd this (by simp)
  · rw [map_append, nodup_append] at hnodup
    refine hnodup.2.2 loadIdx hfirst loadIdx ?_ rfl
    rw [map_append]
    exact mem_append_left _ (mem_map.mpr ⟨e, he, hidx⟩)

/-- Every pass of the loop goes back to the loop or leaves at the branch back. -/
def Plain (m : Machine α σ ω) (fn : LoopFunction α) (loop : LoopBlock α) (parts : LoopParts α)
    (exit : UInt32) : Prop :=
  ∀ s insts, codeOf fn.blocks (bodyTags loop.id parts) loop.id = some insts →
    (runInsts m insts s).exit.target (followerOf fn.blocks loop.id) = some loop.id ∨
      LeavesAtBranch m fn loop parts exit s

omit [Inhabited α] in
theorem Plain.never {m : Machine α σ ω} {exit : UInt32} (hplain : Plain m fn loop parts exit)
    (hexit : exit ≠ loop.id) (hstays : ∀ s, ¬ LeavesAtBranch m fn loop parts exit s) (s : σ)
    (trace : List (Event ω)) (s' : σ) :
    ¬ Reaches m fn.blocks (bodyTags loop.id parts) exit loop.id s trace s' := by
  have hno (id : UInt32) (s : σ) (trace : List (Event ω)) (s' : σ)
      (hrun : Reaches m fn.blocks (bodyTags loop.id parts) exit id s trace s') : id ≠ loop.id := by
    induction hrun with
    | arrive => exact hexit
    | @block id next s s' insts trace _ hcode hnext _ ih =>
      rintro rfl
      rcases hplain s insts hcode with hback | hleave
      · rw [hback] at hnext
        exact ih (Option.some.inj hnext).symm
      · exact hstays s hleave
  exact fun hrun => hno loop.id s trace s' hrun rfl

end NewBlocks

/-! ## A loop that copies words -/

section Sample

/-- Registers, memory and the outcome of the last comparison. -/
structure Words where
  regs : UInt32 → UInt64
  mem : UInt64 → UInt64
  below : Bool

def Words.value (s : Words) (op : LirOperand) : UInt64 :=
  match op.kind with
  | .vreg v => s.regs v.id
  | .mem m => s.mem (s.regs m.baseVreg.id)
  | .immInt v => v.toUInt64
  | _ => 0

def Words.set (s : Words) (op : LirOperand) (v : UInt64) : Words :=
  match op.kind with
  | .vreg r => { s with regs := fun id => if id = r.id then v else s.regs id }
  | .mem m => { s with mem := fun a => if a = s.regs m.baseVreg.id then v else s.mem a }
  | _ => s

/-- Moves, additions and unsigned comparisons of words. -/
def wordMachine : Machine Unit Words (List UInt64) where
  exec inst s :=
    match inst.opcode, inst.defs, inst.uses with
    | .mov, [d], [u] => s.set d (s.value u)
    | .add, [d], [u, w] => s.set d (s.value u + s.value w)
    | .cmp, [], [u, w] => { s with below := s.value u < s.value w }
    | _, _, _ => s
  taken _ s := s.below
  sees inst s := inst.uses.map s.value
  Agree prime next s s' :=
    (∀ id, id ≠ prime.id → id ≠ next.id → s.regs id = s'.regs id) ∧ s.mem = s'.mem

def reg (id : UInt32) : LirOperand := { kind := .vreg { id := id } }

/-- `v2 = v1 = [v0]; v0 += 8` as long as `v0` is below 16. -/
def copyLoop : LoopBlock Unit where
  id := 1
  instructions :=
    [{ opcode := .mov, defs := [reg 1], uses := [{ kind := .mem { baseVreg := { id := 0 } } }], rest := () },
      { opcode := .mov, defs := [reg 2], uses := [reg 1], rest := () },
      { opcode := .add, defs := [reg 0], uses := [reg 0, { kind := .immInt 8 }], rest := () },
      { opcode := .cmp, uses := [reg 0, { kind := .immInt 16 }], rest := () },
      { opcode := .jcc, uses := [{ kind := .label 1 }], rest := () },
      jumpTo 2]
  predecessors := [0, 1]
  successors := [1, 2]

def copyFunction : LoopFunction Unit where
  blocks :=
    [{ id := 0, instructions := [jumpTo 1], successors := [1] }, copyLoop,
      { id := 2, instructions := [{ opcode := .ret, rest := () }], predecessors := [1] }]
  vregCount := 3
  nextBlockId := 3
  ids_nodup := by decide
  ids_lt := by decide
  successors_lt := by simp [copyLoop]
  room := by simp

/-- The last word: one pass, after which the loop ends. -/
def lastWord : Words where
  regs id := if id = 0 then 8 else 0
  mem a := a + 1
  below := false

theorem copyLoop_leaves {parts : LoopParts Unit} (hparts : pipelinableParts copyLoop {} = some parts) :
    LeavesAtBranch wordMachine copyFunction copyLoop parts 2 lastWord := by
  obtain rfl := Option.some.inj hparts
  exact ⟨_, rfl, by decide, by decide⟩

end Sample

end Brass.Codegen.SoftwarePipeline
