import Brass.Codegen.BlockLayoutOrder
import Mathlib.Data.List.DropRight

/-!
# The layout and the flow of control

Where control goes from a block is a run through its instructions under given outcomes of
its branches. A block that ends with a jump, a return, a guard exit or a trap keeps its next
block wherever it is placed. A block without such an end falls into the block after it: the
pass gives it a jump, but not when it is empty, nor when it is the last.
-/

namespace Brass.Codegen.BlockLayout

open List

/-! ## Where control goes -/

variable {f : LayoutBlock → Option LayoutBlock → LayoutBlock} {blocks : List LayoutBlock}
  {b : LayoutBlock}

/-- `stuck` is a jump without a label. -/
inductive Next
  | goes (id : UInt32)
  | leaves
  | fallsOff
  | stuck
  deriving DecidableEq

def Next.ofLabel : Option UInt32 → Next
  | some id => .goes id
  | none => .stuck

def Next.ofFollower : Option UInt32 → Next
  | some id => .goes id
  | none => .fallsOff

/-- The block control reaches after the instructions: `outcome k` says whether the `jcc` at
place `k` is taken, or whether the call there unwinds. -/
def runFrom (outcome : Nat → Bool) (follower : Option UInt32) : Nat → List Inst → Next
  | _, [] => .ofFollower follower
  | k, inst :: rest =>
    match inst.opcode with
    | .jmp => .ofLabel (firstLabel inst)
    | .jcc => if outcome k then .ofLabel (firstLabel inst) else runFrom outcome follower (k + 1) rest
    | .ret | .guardExit | .trap => .leaves
    | .call | .callIndirect =>
      if inst.isInvoke ∧ inst.rest.unwindBlockId ≠ invalidId ∧ outcome k then
        .goes inst.rest.unwindBlockId
      else runFrom outcome follower (k + 1) rest
    | _ => runFrom outcome follower (k + 1) rest

/-- The id of the block after the block with the given id. -/
def followerOf : List LayoutBlock → UInt32 → Option UInt32
  | [], _ => none
  | b :: rest, id => if b.id = id then rest.head?.map (·.id) else followerOf rest id

/-- The block control reaches after the block with the given id. -/
def nextOf (blocks : List LayoutBlock) (id : UInt32) (outcome : Nat → Bool) : Option Next :=
  (idToBlock blocks id).map fun b => runFrom outcome (followerOf blocks id) 0 b.instructions

/-- The last instruction does not let control go on. -/
def Closed (b : LayoutBlock) : Prop := ∃ last ∈ b.instructions.getLast?, endsControl last = true

theorem runFrom_append_jumpTo (outcome : Nat → Bool) (follower : Option UInt32) (id : UInt32)
    (k : Nat) (insts : List Inst) :
    runFrom outcome follower k (insts ++ [jumpTo id]) = runFrom outcome (some id) k insts := by
  induction insts generalizing k with
  | nil => rfl
  | cons inst insts ih =>
    simp only [cons_append, runFrom, ih]

theorem labelOf_opcode {op : LirOpcode} {inst : Inst} {id : UInt32}
    (h : labelOf op inst = some id) : inst.opcode = op := by
  by_contra hne
  rw [labelOf, if_neg hne] at h
  exact absurd h (by simp)

theorem runFrom_append_jmp {inst : Inst} {id : UInt32} (hinst : labelOf .jmp inst = some id)
    (outcome : Nat → Bool) (follower : Option UInt32) (k : Nat) (insts : List Inst) :
    runFrom outcome follower k (insts ++ [inst]) = runFrom outcome (some id) k insts := by
  have hop : inst.opcode = .jmp := labelOf_opcode hinst
  have hlabel : firstLabel inst = some id := by rwa [labelOf, if_pos hop] at hinst
  induction insts generalizing k with
  | nil => simp [runFrom, hop, hlabel, Next.ofLabel, Next.ofFollower]
  | cons other insts ih => simp only [cons_append, runFrom, ih]

theorem runFrom_closed {insts : List Inst} {last : Inst} (hend : endsControl last = true)
    (hlast : insts.getLast? = some last) (outcome : Nat → Bool) (first second : Option UInt32)
    (k : Nat) : runFrom outcome first k insts = runFrom outcome second k insts := by
  obtain ⟨before, rfl⟩ : ∃ before, insts = before ++ [last] := getLast?_eq_some_iff.mp hlast
  clear hlast
  induction before generalizing k with
  | nil =>
    have hop : last.opcode = .jmp ∨ last.opcode = .ret ∨ last.opcode = .guardExit ∨
        last.opcode = .trap := by
      simpa [endsControl, or_assoc] using hend
    rcases hop with hop | hop | hop | hop <;> simp [runFrom, hop]
  | cons inst before ih => simp only [cons_append, runFrom, ih]

/-! ## Blocks rewritten by what comes after them -/

theorem mapNext_ids (hf : ∀ b next, (f b next).id = b.id) (blocks : List LayoutBlock) :
    ids (mapNext f blocks) = ids blocks := by
  induction blocks with
  | nil => rfl
  | cons b rest ih =>
    simp only [ids] at ih
    simp [ids, mapNext, hf, ih]

theorem head?_ids (blocks : List LayoutBlock) : blocks.head?.map (·.id) = (ids blocks).head? := by
  simp [ids]

theorem followerOf_congr {first second : List LayoutBlock} (h : ids first = ids second)
    (id : UInt32) : followerOf first id = followerOf second id := by
  induction first generalizing second with
  | nil =>
    have hnil : second = [] := by simpa [ids] using h.symm
    rw [hnil]
  | cons a first ih =>
    cases second with
    | nil => simp [ids] at h
    | cons b second =>
      obtain ⟨hab, hrest⟩ : a.id = b.id ∧ ids first = ids second := by simpa [ids] using h
      simp only [followerOf, hab, head?_ids, hrest, ih hrest]

theorem getLast?_of_followerOf (hids : (ids blocks).Nodup) (hb : b ∈ blocks)
    (h : followerOf blocks b.id = none) :
    blocks.getLast? = some b := by
  induction blocks with
  | nil => simp at hb
  | cons a rest ih =>
    obtain ⟨hout, hids⟩ : a.id ∉ ids rest ∧ (ids rest).Nodup := nodup_cons.mp hids
    unfold followerOf at h
    rcases mem_cons.mp hb with rfl | hb
    · rw [if_pos rfl, Option.map_eq_none_iff, head?_eq_none_iff] at h
      rw [h]
      rfl
    · have hne : a.id ≠ b.id := fun he => hout (he ▸ mem_map_of_mem hb)
      rw [if_neg hne] at h
      have hlast := ih hids hb h
      rw [getLast?_cons, hlast]
      rfl

def blockAfter : List LayoutBlock → UInt32 → Option LayoutBlock
  | [], _ => none
  | b :: rest, id => if b.id = id then rest.head? else blockAfter rest id

theorem followerOf_eq (blocks : List LayoutBlock) (id : UInt32) :
    followerOf blocks id = (blockAfter blocks id).map (·.id) := by
  induction blocks with
  | nil => rfl
  | cons b rest ih =>
    unfold followerOf blockAfter
    split
    · rfl
    · exact ih

theorem idToBlock_mapNext (hf : ∀ b next, (f b next).id = b.id) (blocks : List LayoutBlock)
    (id : UInt32) :
    idToBlock (mapNext f blocks) id = (idToBlock blocks id).map fun b => f b (blockAfter blocks id) := by
  induction blocks with
  | nil => rfl
  | cons b rest ih =>
    unfold idToBlock at ih ⊢
    by_cases hb : b.id = id
    · simp [mapNext, blockAfter, hf, hb]
    · simp [mapNext, blockAfter, hf, hb, ih]

/-- A rewriting that keeps what each block does before its next block keeps where control
goes. -/
theorem nextOf_mapNext (hid : ∀ b next, (f b next).id = b.id)
    (hrun : ∀ b next outcome, runFrom outcome (next.map (·.id)) 0 (f b next).instructions = runFrom outcome (next.map (·.id)) 0 b.instructions)
    (blocks : List LayoutBlock) (id : UInt32) (outcome : Nat → Bool) :
    nextOf (mapNext f blocks) id outcome = nextOf blocks id outcome := by
  unfold nextOf
  rw [idToBlock_mapNext hid, followerOf_congr (mapNext_ids hid blocks), followerOf_eq, Option.map_map]
  congr 1
  funext b
  exact hrun b (blockAfter blocks id) outcome

/-! ## The jumps that are added and dropped -/

def isJump (inst : Inst) : Bool := inst.opcode == .jmp

/-- What the pass does not touch of a block: all but the jumps at the end and the mark of a
cold block. -/
def kept (b : LayoutBlock) : UInt32 × String × List UInt32 × Nat × List Inst :=
  (b.id, b.name, b.successors, b.loopDepth, b.instructions.rdropWhile isJump)

theorem mapNext_kept (hf : ∀ b next, kept (f b next) = kept b) (blocks : List LayoutBlock) :
    (mapNext f blocks).map kept = blocks.map kept := by
  induction blocks with
  | nil => rfl
  | cons b rest ih => simp [mapNext, hf, ih]

theorem withJump_cases (b : LayoutBlock) (next : Option LayoutBlock) :
    (withJump b next = b ∧ (b.instructions = [] ∨ next = none ∨ Closed b)) ∨
      ∃ n ∈ next, b.instructions ≠ [] ∧
        withJump b next = { b with instructions := b.instructions ++ [jumpTo n.id] } := by
  unfold withJump
  split
  · next last n hlast =>
    split
    · next hend => exact .inl ⟨rfl, .inr (.inr ⟨last, hlast, hend⟩)⟩
    · have hne : b.instructions ≠ [] := by
        intro hnil
        rw [hnil] at hlast
        exact absurd hlast (by simp)
      exact .inr ⟨n, rfl, hne, rfl⟩
  · rename_i hno
    refine .inl ⟨rfl, ?_⟩
    cases hlast : b.instructions.getLast? with
    | none => exact .inl (getLast?_eq_none_iff.mp hlast)
    | some last =>
      refine .inr (.inl ?_)
      rw [Option.eq_none_iff_forall_not_mem]
      exact fun n hn => hno last n hlast hn

theorem withJump_id (b : LayoutBlock) (next : Option LayoutBlock) : (withJump b next).id = b.id := by
  rcases withJump_cases b next with ⟨h, -⟩ | ⟨n, -, -, h⟩ <;> rw [h]

theorem withJump_kept (b : LayoutBlock) (next : Option LayoutBlock) :
    kept (withJump b next) = kept b := by
  rcases withJump_cases b next with ⟨h, -⟩ | ⟨n, -, -, h⟩ <;> rw [h]
  have hjump : isJump (jumpTo n.id) = true := rfl
  simp only [kept, rdropWhile_concat_pos isJump _ _ hjump]

theorem withJump_run (b : LayoutBlock) (next : Option LayoutBlock) (outcome : Nat → Bool) :
    runFrom outcome (next.map (·.id)) 0 (withJump b next).instructions =
      runFrom outcome (next.map (·.id)) 0 b.instructions := by
  rcases withJump_cases b next with ⟨h, -⟩ | ⟨n, hn, -, h⟩ <;> rw [h]
  obtain rfl := Option.mem_def.mp hn
  exact runFrom_append_jumpTo outcome _ n.id 0 b.instructions

theorem dropJump_cases (b : LayoutBlock) (next : Option LayoutBlock) : dropJump b next = b ∨
      ∃ before last, ∃ n ∈ next, b.instructions = before ++ [last] ∧
        labelOf .jmp last = some n.id ∧ dropJump b next = { b with instructions := before } := by
  unfold dropJump
  split
  · next last n hlast =>
    split
    · next hlabel =>
      obtain ⟨before, hinsts⟩ := getLast?_eq_some_iff.mp hlast
      refine .inr ⟨before, last, n, rfl, hinsts, hlabel, ?_⟩
      rw [hinsts, dropLast_concat]
    · exact .inl rfl
  · exact .inl rfl

theorem dropJump_id (b : LayoutBlock) (next : Option LayoutBlock) : (dropJump b next).id = b.id := by
  rcases dropJump_cases b next with h | ⟨_, _, _, _, _, _, h⟩ <;> rw [h]

theorem dropJump_kept (b : LayoutBlock) (next : Option LayoutBlock) :
    kept (dropJump b next) = kept b := by
  rcases dropJump_cases b next with h | ⟨before, last, n, -, hinsts, hlabel, h⟩ <;> rw [h]
  have hjump : isJump last = true := by simp [isJump, labelOf_opcode hlabel]
  simp only [kept, hinsts, rdropWhile_concat_pos isJump _ _ hjump]

theorem dropJump_run (b : LayoutBlock) (next : Option LayoutBlock) (outcome : Nat → Bool) :
    runFrom outcome (next.map (·.id)) 0 (dropJump b next).instructions =
      runFrom outcome (next.map (·.id)) 0 b.instructions := by
  rcases dropJump_cases b next with h | ⟨before, last, n, hn, hinsts, hlabel, h⟩ <;> rw [h]
  obtain rfl := Option.mem_def.mp hn
  rw [hinsts]
  exact (runFrom_append_jmp hlabel outcome _ 0 before).symm

theorem markCold_kept (cold : List UInt32) (b : LayoutBlock) : kept (markCold cold b) = kept b := rfl

/-! ## Blocks that fall silently -/

/-- The last instruction of a run decides between its own target and the follower. -/
theorem runFrom_eq (outcome : Nat → Bool) (follower : Option UInt32) (k : Nat) (insts : List Inst) :
    runFrom outcome follower k insts =
      if runFrom outcome none k insts = .fallsOff then .ofFollower follower
      else runFrom outcome none k insts := by
  induction insts generalizing k with
  | nil => simp [runFrom, Next.ofFollower]
  | cons inst insts ih =>
    have hlabel (l : Option UInt32) : Next.ofLabel l ≠ .fallsOff := by cases l <;> simp [Next.ofLabel]
    unfold runFrom
    split
    · rw [if_neg (hlabel _)]
    · split
      · rw [if_neg (hlabel _)]
      · exact ih _
    · simp
    · simp
    · simp
    · split
      · simp
      · exact ih _
    · split
      · simp
      · exact ih _
    · exact ih _

theorem Next.ofFollower_injective : Function.Injective Next.ofFollower := by
  intro a b h
  cases a <;> cases b <;> simp_all [Next.ofFollower]

/-- Under some outcomes control passes the end of the block, and the pass adds no jump
there: the block is empty, or it is the last. -/
def FallsSilently (fn : LayoutFunction) (b : LayoutBlock) : Prop :=
  (b.instructions = [] ∨ followerOf fn.blocks b.id = none) ∧
    ∃ outcome, runFrom outcome none 0 b.instructions = .fallsOff

theorem runFrom_congr_iff (insts : List Inst) (first second : Option UInt32) :
    (∀ outcome, runFrom outcome first 0 insts = runFrom outcome second 0 insts) ↔
      ((∃ outcome, runFrom outcome none 0 insts = .fallsOff) → first = second) := by
  constructor
  · rintro h ⟨outcome, hoff⟩
    have heq := h outcome
    rw [runFrom_eq outcome first, runFrom_eq outcome second, if_pos hoff, if_pos hoff] at heq
    exact Next.ofFollower_injective heq
  · intro h outcome
    by_cases hoff : runFrom outcome none 0 insts = .fallsOff
    · rw [h ⟨outcome, hoff⟩]
    · rw [runFrom_eq outcome first, runFrom_eq outcome second, if_neg hoff, if_neg hoff]

theorem Closed.runFrom_ne (h : Closed b) (outcome : Nat → Bool) :
    runFrom outcome none 0 b.instructions ≠ .fallsOff := by
  obtain ⟨last, hlast, hend⟩ := h
  intro hoff
  have heq := runFrom_eq outcome (some 0) 0 b.instructions
  rw [if_pos hoff, runFrom_closed hend hlast outcome (some 0) none 0, hoff] at heq
  simp [Next.ofFollower] at heq

/-- The blocks that fall silently are those whose end is still open after the jumps are
added. -/
theorem fallsSilently_iff (fn : LayoutFunction) (b : LayoutBlock) :
    (∃ outcome, runFrom outcome none 0 (withJump b (blockAfter fn.blocks b.id)).instructions =
      .fallsOff) ↔ FallsSilently fn b := by
  have hnone : followerOf fn.blocks b.id = none ↔ blockAfter fn.blocks b.id = none := by
    rw [followerOf_eq, Option.map_eq_none_iff]
  unfold FallsSilently
  rw [hnone]
  rcases withJump_cases b (blockAfter fn.blocks b.id) with ⟨h, hopen⟩ | ⟨n, hn, hne, h⟩ <;> rw [h]
  · constructor
    · rintro ⟨outcome, hoff⟩
      rcases hopen with hnil | hlast | hclosed
      · exact ⟨.inl hnil, outcome, hoff⟩
      · exact ⟨.inr hlast, outcome, hoff⟩
      · exact absurd hoff (hclosed.runFrom_ne outcome)
    · exact fun hsilent => hsilent.2
  · constructor
    · rintro ⟨outcome, hoff⟩
      rw [runFrom_append_jumpTo, runFrom_eq] at hoff
      split at hoff
      · simp [Next.ofFollower] at hoff
      · contradiction
    · rintro ⟨hnil | hlast, -⟩
      · exact absurd hnil hne
      · rw [hlast] at hn
        exact absurd hn (by simp)

/-! ## The function before and after -/

/-- The blocks are the same ones in another order, the entry first, and control goes from
each to where it went before. -/
structure Preserved (fn : LayoutFunction) (blocks : List LayoutBlock) : Prop where
  perm : (blocks.map kept).Perm (fn.blocks.map kept)
  entry : (ids blocks).head? = (ids fn.blocks).head?
  next : ∀ b ∈ fn.blocks, ∀ outcome, nextOf blocks b.id outcome = nextOf fn.blocks b.id outcome

theorem Preserved.refl (fn : LayoutFunction) : Preserved fn fn.blocks :=
  ⟨List.Perm.refl _, rfl, fun _ _ _ => rfl⟩

/-- There is room for the cold blocks, or there are none. -/
def KeepsCold (fn : LayoutFunction) (opts : BlockLayoutOptions) : Prop :=
  opts.coldBlockAtEnd = true ∨ ∀ b ∈ fn.blocks, isBlockCold fn opts b = false

/-- Every block has instructions, and the last one does not let control go on. -/
def NoSilentFall (fn : LayoutFunction) : Prop :=
  (∀ b ∈ fn.blocks, b.instructions ≠ []) ∧ ∀ b ∈ fn.blocks.getLast?, Closed b

theorem mem_mapNext {c : LayoutBlock} (h : c ∈ mapNext f blocks) :
    ∃ b ∈ blocks, ∃ next, f b next = c := by
  induction blocks with
  | nil => simp [mapNext] at h
  | cons b rest ih =>
    rcases mem_cons.mp h with rfl | h
    · exact ⟨b, mem_cons_self, rest.head?, rfl⟩
    · obtain ⟨d, hd, hnext⟩ := ih h
      exact ⟨d, mem_cons_of_mem b hd, hnext⟩

theorem exists_mem_mapNext (f : LayoutBlock → Option LayoutBlock → LayoutBlock) (h : b ∈ blocks) :
    ∃ next, f b next ∈ mapNext f blocks := by
  induction blocks with
  | nil => simp at h
  | cons a rest ih =>
    rcases mem_cons.mp h with rfl | h
    · exact ⟨rest.head?, mem_cons_self⟩
    · obtain ⟨next, hnext⟩ := ih h
      exact ⟨next, mem_cons_of_mem _ hnext⟩

theorem isBlockCold_withJump (fn : LayoutFunction) (opts : BlockLayoutOptions) (b : LayoutBlock)
    (next : Option LayoutBlock) : isBlockCold fn opts (withJump b next) = isBlockCold fn opts b := by
  rcases withJump_cases b next with ⟨h, -⟩ | ⟨n, -, -, h⟩ <;> rw [h]
  have hjump : instMarksCold (jumpTo n.id) = false := by simp [instMarksCold, jumpTo]
  simp [isBlockCold, countedZero, any_append, hjump]

theorem ownCold_eq_nil_iff (fn : LayoutFunction) (opts : BlockLayoutOptions) :
    ownCold fn opts (explicitJumps fn.blocks) = [] ↔ ∀ b ∈ fn.blocks, isBlockCold fn opts b = false := by
  have hnil : ownCold fn opts (explicitJumps fn.blocks) = [] ↔
      ∀ c ∈ explicitJumps fn.blocks, isBlockCold fn opts c = false := by
    simp [ownCold, filter_eq_nil_iff]
  rw [hnil]
  constructor
  · intro h b hb
    obtain ⟨next, hmem⟩ := exists_mem_mapNext withJump hb
    rw [← isBlockCold_withJump fn opts b next]
    exact h _ hmem
  · intro h c hc
    obtain ⟨b, hb, next, rfl⟩ := mem_mapNext hc
    rw [isBlockCold_withJump]
    exact h b hb

section Pass

variable (walk : SetOrder) (fn : LayoutFunction) (opts : BlockLayoutOptions)
variable {entry : LayoutBlock}

/-- The blocks that the traces are built from. -/
def prepared (entry : UInt32) : List LayoutBlock :=
  (explicitJumps fn.blocks).map (markCold (coldBlocks walk fn opts (explicitJumps fn.blocks) entry))

theorem prepared_ids (entry : UInt32) : ids (prepared walk fn opts entry) = ids fn.blocks := by
  have hmark : ids (prepared walk fn opts entry) = ids (explicitJumps fn.blocks) := by
    simp [ids, prepared, markCold, Function.comp_def]
  rw [hmark]
  exact mapNext_ids withJump_id fn.blocks

theorem prepared_kept (entry : UInt32) :
    (prepared walk fn opts entry).map kept = fn.blocks.map kept := by
  have hmark : (prepared walk fn opts entry).map kept = (explicitJumps fn.blocks).map kept := by
    simp [prepared, markCold_kept, Function.comp_def]
  rw [hmark]
  exact mapNext_kept withJump_kept fn.blocks

/-- A function of several blocks is laid out. -/
theorem optimizeBlockLayout_eq (hlen : 1 < fn.blocks.length) :
    ∃ entry ∈ nonColdBlocks (prepared walk fn opts entry.id)
        (coldBlocks walk fn opts (explicitJumps fn.blocks) entry.id),
      (prepared walk fn opts entry.id).head? = some entry ∧
      optimizeBlockLayout walk fn opts = dropRedundantJumps (layOut opts
        (coldBlocks walk fn opts (explicitJumps fn.blocks) entry.id) entry
        (prepared walk fn opts entry.id)) := by
  have hids : ids (explicitJumps fn.blocks) = ids fn.blocks := mapNext_ids withJump_id fn.blocks
  obtain ⟨entry, second, rest, hblocks⟩ :
      ∃ entry second rest, explicitJumps fn.blocks = entry :: second :: rest := by
    have hsize : 1 < (explicitJumps fn.blocks).length := by
      have := congrArg length hids
      simp only [ids, length_map] at this
      omega
    rcases hjumps : explicitJumps fn.blocks with _ | ⟨entry, _ | ⟨second, rest⟩⟩
    · simp [hjumps] at hsize
    · simp [hjumps] at hsize
    · exact ⟨entry, second, rest, rfl⟩
  have hhead : fn.blocks.head?.map (·.id) = some entry.id := by
    rw [head?_ids, ← hids, hblocks]
    rfl
  refine ⟨markCold (coldBlocks walk fn opts (explicitJumps fn.blocks) entry.id) entry, ?_, ?_, ?_⟩
  · refine mem_nonColdBlocks.mpr ⟨?_, entry_notMem_coldBlocks walk hhead⟩
    simp [prepared, hblocks, markCold]
  · simp [prepared, hblocks, markCold]
  · unfold optimizeBlockLayout
    simp only [hblocks, prepared]
    rfl

theorem optimizeBlockLayout_of_le (hlen : fn.blocks.length ≤ 1) :
    optimizeBlockLayout walk fn opts = fn.blocks := by
  have hids := congrArg length (mapNext_ids withJump_id fn.blocks)
  have hsize : (explicitJumps fn.blocks).length ≤ 1 := by
    simp only [ids, length_map] at hids
    exact hids.trans_le hlen
  unfold optimizeBlockLayout
  split
  · rfl
  · rfl
  · next entry rest hne hblocks =>
    rw [hblocks] at hsize
    cases rest with
    | nil => exact (hne rfl).elim
    | cons second rest => simp at hsize

variable {walk fn opts}

theorem coldBlocks_eq_nil {entry : UInt32} (h : ∀ b ∈ fn.blocks, isBlockCold fn opts b = false) :
    coldBlocks walk fn opts (explicitJumps fn.blocks) entry = [] :=
  coldBlocks_of_ownCold_nil walk ((ownCold_eq_nil_iff fn opts).mpr h)

theorem length_nonColdBlocks_lt (walk : SetOrder) (entry : UInt32) (hb : b ∈ fn.blocks)
    (hcold : isBlockCold fn opts b = true) :
    (nonColdBlocks (prepared walk fn opts entry)
      (coldBlocks walk fn opts (explicitJumps fn.blocks) entry)).length < fn.blocks.length := by
  obtain ⟨next, hmem⟩ := exists_mem_mapNext withJump hb
  have hown : (withJump b next).id ∈ ownCold fn opts (explicitJumps fn.blocks) :=
    mem_map_of_mem (mem_filter.mpr ⟨hmem, by rw [isBlockCold_withJump]; exact hcold⟩)
  have hin := ownCold_subset walk fn opts (explicitJumps fn.blocks) entry hown
  have hlen := congrArg length (prepared_ids walk fn opts entry)
  simp only [ids, length_map] at hlen
  rw [← hlen]
  refine length_filter_lt_length_iff_exists.mpr ⟨markCold _ (withJump b next),
    mem_map_of_mem hmem, ?_⟩
  rw [decide_eq_true_eq, not_not]
  exact hin

theorem layOut_perm_prepared {entry : LayoutBlock}
    (hentry : entry ∈ nonColdBlocks (prepared walk fn opts entry.id)
      (coldBlocks walk fn opts (explicitJumps fn.blocks) entry.id))
    (hkeep : KeepsCold fn opts) :
    (layOut opts (coldBlocks walk fn opts (explicitJumps fn.blocks) entry.id) entry
      (prepared walk fn opts entry.id)).Perm (prepared walk fn opts entry.id) := by
  have hids : (ids (prepared walk fn opts entry.id)).Nodup := by
    rw [prepared_ids]
    exact fn.ids_nodup
  have hperm := layOut_perm opts hids hentry
  rcases hkeep with hroom | hwarm
  · rwa [if_pos hroom] at hperm
  · have hall : nonColdBlocks (prepared walk fn opts entry.id)
        (coldBlocks walk fn opts (explicitJumps fn.blocks) entry.id) =
          prepared walk fn opts entry.id := by
      rw [coldBlocks_eq_nil hwarm]
      simp [nonColdBlocks]
    rwa [hall, ite_self] at hperm

theorem nextOf_laidOut {layout : List LayoutBlock}
    (hperm : layout.Perm (prepared walk fn opts entry.id)) (hb : b ∈ fn.blocks)
    (outcome : Nat → Bool) :
    nextOf (dropRedundantJumps layout) b.id outcome =
        some (runFrom outcome (followerOf (dropRedundantJumps layout) b.id) 0
          (withJump b (blockAfter fn.blocks b.id)).instructions) ∧
      nextOf fn.blocks b.id outcome = some (runFrom outcome (followerOf fn.blocks b.id) 0
          (withJump b (blockAfter fn.blocks b.id)).instructions) := by
  have hjumps : ids (explicitJumps fn.blocks) = ids fn.blocks := mapNext_ids withJump_id fn.blocks
  have hfind : idToBlock (explicitJumps fn.blocks) b.id =
      some (withJump b (blockAfter fn.blocks b.id)) := by
    rw [explicitJumps, idToBlock_mapNext withJump_id, idToBlock_of_mem fn.ids_nodup hb, Option.map_some]
  constructor
  · have hids : (ids layout).Nodup := by
      have hsame : (ids (prepared walk fn opts entry.id)).Nodup := by
        rw [prepared_ids]
        exact fn.ids_nodup
      exact (hperm.map LayoutBlock.id).nodup_iff.mpr hsame
    have hmem := hperm.mem_iff.mpr (mem_map_of_mem (f := markCold
      (coldBlocks walk fn opts (explicitJumps fn.blocks) entry.id)) (idToBlock_mem hfind).1)
    have hat := idToBlock_of_mem hids hmem
    have hid : (markCold (coldBlocks walk fn opts (explicitJumps fn.blocks) entry.id)
        (withJump b (blockAfter fn.blocks b.id))).id = b.id := withJump_id b _
    rw [hid] at hat
    rw [dropRedundantJumps, nextOf_mapNext dropJump_id dropJump_run,
      followerOf_congr (mapNext_ids dropJump_id layout), nextOf, hat]
    rfl
  · rw [← nextOf_mapNext withJump_id withJump_run fn.blocks, nextOf,
      followerOf_congr (mapNext_ids withJump_id fn.blocks)]
    rw [explicitJumps] at hfind
    rw [hfind]
    rfl

theorem optimizeBlockLayout_kept {layout : List LayoutBlock}
    (hperm : layout.Perm (prepared walk fn opts entry.id)) :
    ((dropRedundantJumps layout).map kept).Perm (fn.blocks.map kept) := by
  rw [dropRedundantJumps, mapNext_kept dropJump_kept, ← prepared_kept walk fn opts entry.id]
  exact hperm.map kept

/-- Exactly when the layout preserves a function: no block is dropped, and every block that
falls silently is followed by the block that followed it before. -/
theorem preserved_iff (walk : SetOrder) (fn : LayoutFunction) (opts : BlockLayoutOptions) :
    Preserved fn (optimizeBlockLayout walk fn opts) ↔
      fn.blocks.length ≤ 1 ∨ (KeepsCold fn opts ∧ ∀ b ∈ fn.blocks, FallsSilently fn b →
        followerOf (optimizeBlockLayout walk fn opts) b.id = followerOf fn.blocks b.id) := by
  rcases Nat.lt_or_ge 1 fn.blocks.length with hlen | hlen
  swap
  · rw [optimizeBlockLayout_of_le walk fn opts hlen]
    exact ⟨fun _ => .inl hlen, fun _ => Preserved.refl fn⟩
  rw [or_iff_right (by omega)]
  obtain ⟨entry, hentry, hhead, heq⟩ := optimizeBlockLayout_eq walk fn opts hlen
  rw [heq]
  have hnext (layout : List LayoutBlock) (hperm : layout.Perm (prepared walk fn opts entry.id))
      (b : LayoutBlock) (hb : b ∈ fn.blocks) :
      (∀ outcome, nextOf (dropRedundantJumps layout) b.id outcome = nextOf fn.blocks b.id outcome) ↔
        (FallsSilently fn b →
          followerOf (dropRedundantJumps layout) b.id = followerOf fn.blocks b.id) := by
    rw [← fallsSilently_iff, ← runFrom_congr_iff]
    refine forall_congr' fun outcome => ?_
    obtain ⟨hafter, hbefore⟩ := nextOf_laidOut hperm hb outcome
    rw [hafter, hbefore, Option.some_inj]
  constructor
  · intro h
    have hkeep : KeepsCold fn opts := by
      by_contra hno
      obtain ⟨hroom, b, hb, hcold⟩ : opts.coldBlockAtEnd = false ∧
          ∃ b ∈ fn.blocks, isBlockCold fn opts b = true := by
        simpa [KeepsCold, not_or] using hno
      have hids : (ids (prepared walk fn opts entry.id)).Nodup := by
        rw [prepared_ids]
        exact fn.ids_nodup
      have hsome := (layOut_perm opts hids hentry).length_eq
      rw [if_neg (by simp [hroom])] at hsome
      have hall := h.perm.length_eq
      rw [dropRedundantJumps, mapNext_kept dropJump_kept, length_map, length_map, hsome] at hall
      have hlt := length_nonColdBlocks_lt walk entry.id hb hcold
      omega
    exact ⟨hkeep, fun b hb => (hnext _ (layOut_perm_prepared hentry hkeep) b hb).mp (h.next b hb)⟩
  · rintro ⟨hkeep, hsilent⟩
    have hperm := layOut_perm_prepared hentry hkeep
    refine ⟨optimizeBlockLayout_kept hperm, ?_, fun b hb => (hnext _ hperm b hb).mpr (hsilent b hb)⟩
    rw [dropRedundantJumps, mapNext_ids dropJump_id, ← head?_ids, layOut_head, ← prepared_ids walk fn opts entry.id,
      ← head?_ids, hhead]

theorem NoSilentFall.not_fallsSilently (h : NoSilentFall fn) (hb : b ∈ fn.blocks) :
    ¬ FallsSilently fn b := by
  rintro ⟨hnil | hlast, outcome, hoff⟩
  · exact h.1 b hb hnil
  · have hend := getLast?_of_followerOf fn.ids_nodup hb hlast
    exact (h.2 b hend).runFrom_ne outcome hoff

end Pass

/-- A function whose blocks all have instructions and whose last block ends is preserved, as
long as the cold blocks are kept; without room for them it never is. -/
theorem optimizeBlockLayout_preserves (walk : SetOrder) (fn : LayoutFunction)
    (opts : BlockLayoutOptions) :
    (fn.blocks.length ≤ 1 ∨ KeepsCold fn opts ∧ NoSilentFall fn →
      Preserved fn (optimizeBlockLayout walk fn opts)) ∧
    (Preserved fn (optimizeBlockLayout walk fn opts) →
      fn.blocks.length ≤ 1 ∨ KeepsCold fn opts) := by
  rw [preserved_iff]
  constructor
  · rintro (hlen | ⟨hkeep, hclosed⟩)
    · exact Or.inl hlen
    · exact Or.inr ⟨hkeep, fun b hb hsilent => absurd hsilent (hclosed.not_fallsSilently hb)⟩
  · rintro (hlen | ⟨hkeep, -⟩)
    · exact Or.inl hlen
    · exact Or.inr hkeep

/-- An empty entry in front of a loop: `0` falls into `1`, which branches into the loop `2`
or to the end `3`. -/
def emptyEntry : LayoutFunction where
  blocks :=
    [{ id := 0 },
      { id := 1
        instructions :=
          [{ opcode := .jcc, uses := [{ kind := .label 2 }], rest := {} }, jumpTo 3] },
      { id := 2
        instructions :=
          [{ opcode := .jcc, uses := [{ kind := .label 2 }], rest := {} }, jumpTo 3]
        loopDepth := 1 },
      { id := 3, instructions := [{ opcode := .ret, rest := {} }] }]
  ids_nodup := by decide

/-- The loop is placed right after the empty entry, which now falls into it. -/
theorem not_preserved_emptyEntry :
    ¬ ∀ (walk : SetOrder) (fn : LayoutFunction) (opts : BlockLayoutOptions),
      Preserved fn (optimizeBlockLayout walk fn opts) := by
  intro h
  have hwrong := (h ⟨id, fun l => List.Perm.refl l⟩ emptyEntry {}).next { id := 0 } (by simp [emptyEntry])
    fun _ => false
  revert hwrong
  decide

end Brass.Codegen.BlockLayout
