import Brass.Spirv.BinaryReader

/-!
# The kinds of operands

What `classify_operands` makes of the words of an instruction, as a kind for each place
(`layout`). The kind of an operand is not written, so an instruction is read back if and
only if each operand has the kind of its place (`classifyOperands_eq_iff`). For an
`OpSwitch` the places depend on the number of words alone.
-/

namespace Brass.Spirv

open List

variable {kind : Nat → Kind} {ops : List Operand} {raw : List UInt32} {n : Nat}

def values (ops : List Operand) : List UInt32 := ops.map (·.value)

/-- Each operand has the kind of its place. -/
def Places (kind : Nat → Kind) (ops : List Operand) : Prop :=
  ∀ k o, ops[k]? = some o → o.kind = kind k

/-- The kinds of the operands that a mask of memory operands asks for. -/
def maskKinds (mask : UInt32) : List Kind :=
  (if mask &&& 0x2 ≠ 0 then [.literal] else []) ++ (if mask &&& 0x8 ≠ 0 then [.id] else []) ++
    (if mask &&& 0x10 ≠ 0 then [.id] else [])

/-- Memory operands: masks, each with the operands that it asks for. The last may lack some. -/
inductive Masks : List Operand → Prop where
  | nil : Masks []
  | mask {m : UInt32} {ops : List Operand}
      (args : Places (fun k => (maskKinds m).getD k .id) (ops.take (maskKinds m).length))
      (rest : Masks (ops.drop (maskKinds m).length)) : Masks (lit m :: ops)

/-- The form of the operands of an instruction: a kind for each place, or a number of ids
followed by memory operands. -/
inductive Layout where
  | places (kind : Nat → Kind)
  | memory (ids : Nat)

def Layout.Fits : Layout → List Operand → Prop
  | places kind, ops => Places kind ops
  | memory ids, ops => Places (fun _ => .id) (ops.take ids) ∧ Masks (ops.drop ids)

/-- Some kinds, and one for the rest. -/
def Layout.start (kinds : List Kind) (rest : Kind) : Layout := .places fun k => kinds.getD k rest

/-- The kinds of an `OpSwitch` with cases of `step` words: the selector, the default, and in
every case literals and a target. -/
def switchKind (step k : Nat) : Kind :=
  if k < 2 ∨ (k - 2) % step = step - 1 then .id else .literal

/-- The form of the operands of an opcode. That of an `OpSpecConstantOp` depends on the first
word, which is an opcode again, and that of an `OpSwitch` on the number of words. -/
def layout (op : UInt32) (raw : List UInt32) : Layout :=
  if op ∈ [opCapability, opMemoryModel, opConstant, opSpecConstant] then .start [] .literal
  else if op ∈ [opExecutionMode, opDecorate] then .start [.id] .literal
  else if op ∈ [opExecutionModeId, opDecorateId] then .start [.id, .literal] .id
  else if op = opMemberDecorate then .start [.id] .literal
  else if op ∈ [opTypeInt, opTypeFloat] then .start [] .literal
  else if op ∈ [opTypeVector, opTypeMatrix, opTypeForwardPointer] then .start [.id] .literal
  else if op = opTypeImage then .start [.id] .literal
  else if op ∈ [opTypePointer, opVariable] then .start [.literal] .id
  else if op = opSpecConstantOp then
    if raw.head? = some opCompositeExtract then .start [.literal, .id] .literal
    else if raw.head? = some opCompositeInsert ∨ raw.head? = some opVectorShuffle then
      .start [.literal, .id, .id] .literal
    else .start [.literal] .id
  else if op = opExtInst then .start [.id, .literal] .id
  else if op ∈ [opCompositeExtract, opArrayLength] then .start [.id] .literal
  else if op ∈ [opCompositeInsert, opVectorShuffle] then .start [.id, .id] .literal
  else if op = opLoad then .memory 1
  else if op ∈ [opStore, opCopyMemory] then .memory 2
  else if op ∈ [opImageSampleImplicitLod, opImageSampleExplicitLod, opImageFetch,
      opImageRead] then .start [.id, .id, .literal] .id
  else if op ∈ [opImageSampleDrefImplicitLod, opImageSampleDrefExplicitLod,
      opImageWrite] then .start [.id, .id, .id, .literal] .id
  else if op = opLoopMerge then .start [.id, .id] .literal
  else if op = opSelectionMerge then .start [.id] .literal
  else if op = opBranchConditional then .start [.id, .id, .id] .literal
  else if op = opSwitch then .places (switchKind (if wideSwitch raw then 3 else 2))
  else if op ∈ [opGroupNonUniformBallotBitCount, opGroupNonUniformIAdd, opGroupNonUniformFAdd,
      opGroupNonUniformIMul, opGroupNonUniformFMul, opGroupNonUniformSMin,
      opGroupNonUniformUMin, opGroupNonUniformFMin, opGroupNonUniformSMax,
      opGroupNonUniformUMax, opGroupNonUniformFMax, opGroupNonUniformBitwiseAnd,
      opGroupNonUniformBitwiseOr, opGroupNonUniformBitwiseXor, opGroupNonUniformLogicalAnd,
      opGroupNonUniformLogicalOr, opGroupNonUniformLogicalXor] then
    .start [.id, .literal] .id
  else if op = opCooperativeMatrixLoadKHR then .memory 3
  else if op = opCooperativeMatrixStoreKHR then .memory 4
  else if op = opCooperativeMatrixMulAddKHR then .start [.id, .id, .id] .literal
  else .start [] .id

/-- Each operand of an instruction has the kind of its place. -/
def Inst.Tagged (i : Inst) : Prop := (layout i.op (values i.operands)).Fits i.operands

/-! ## Operands by place -/

def withKinds (kind : Nat → Kind) (raw : List UInt32) : List Operand :=
  raw.mapIdx fun k w => ⟨kind k, w⟩

theorem values_withKinds (kind : Nat → Kind) (raw : List UInt32) :
    values (withKinds kind raw) = raw := by
  apply ext_getElem?
  intro k
  simp [values, withKinds, Function.comp_def]

theorem withKinds_eq_iff : withKinds kind (values ops) = ops ↔ Places kind ops := by
  constructor
  · intro h k o hk
    have hget : (withKinds kind (values ops))[k]? = some o := h.symm ▸ hk
    simp only [withKinds, values, getElem?_mapIdx, getElem?_map, hk, Option.map_some,
      Option.some.injEq] at hget
    rw [← hget]
  · intro h
    apply ext_getElem?
    intro k
    cases hk : ops[k]? with
    | none => simp [withKinds, values, hk]
    | some o =>
      simp only [withKinds, values, getElem?_mapIdx, getElem?_map, hk, Option.map_some,
        Option.some.injEq]
      rw [← h k o hk]

theorem withKinds_append (kind : Nat → Kind) (raw rest : List UInt32) :
    withKinds kind (raw ++ rest) =
      withKinds kind raw ++ withKinds (fun k => kind (k + raw.length)) rest :=
  mapIdx_append

theorem withKinds_split (kind : Nat → Kind) (n : Nat) (raw : List UInt32) :
    withKinds kind raw = withKinds kind (raw.take n) ++
      withKinds (fun k => kind (k + (raw.take n).length)) (raw.drop n) := by
  rw [← withKinds_append, take_append_drop]

theorem withKinds_congr {kind' : Nat → Kind} (h : ∀ k, k < raw.length → kind k = kind' k) :
    withKinds kind raw = withKinds kind' raw := by
  apply ext_getElem?
  intro k
  simp only [withKinds, getElem?_mapIdx]
  by_cases hk : k < raw.length
  · rw [h k hk]
  · rw [getElem?_eq_none (by omega)]
    rfl

theorem withKinds_const (kind : Kind) (raw : List UInt32) :
    withKinds (fun _ => kind) raw = raw.map fun w => ⟨kind, w⟩ := by
  apply ext_getElem?
  intro k
  simp [withKinds]

theorem withKinds_eq_map {c : Kind} (h : ∀ k, k < raw.length → kind k = c) :
    withKinds kind raw = raw.map fun w => ⟨c, w⟩ :=
  (withKinds_congr h).trans (withKinds_const c raw)

theorem tagged_eq (kinds : List Kind) (rest : Kind) (raw : List UInt32) :
    tagged kinds rest raw = withKinds (fun k => kinds.getD k rest) raw := by
  induction raw generalizing kinds with
  | nil => rfl
  | cons w raw ih =>
    unfold withKinds at ih ⊢
    rw [tagged, mapIdx_cons, ih]
    cases kinds with
    | nil => rfl
    | cons kind kinds => rfl

/-! ## Switches -/

theorem switchCase_eq (s : Nat) (raw : List UInt32) :
    (raw.take s).map lit ++ ((raw.drop s).take 1).map ref =
      withKinds (fun k => if k % (s + 1) = s then .id else .literal) (raw.take (s + 1)) := by
  have hlit : (raw.take s).map lit =
      withKinds (fun k => if k % (s + 1) = s then .id else .literal) (raw.take s) := by
    refine (withKinds_eq_map fun k hk => ?_).symm
    have hlt : k < s := by
      rw [length_take] at hk
      omega
    rw [Nat.mod_eq_of_lt (by omega), if_neg (by omega)]
  have hid : ((raw.drop s).take 1).map ref =
      withKinds (fun k => if (k + (raw.take s).length) % (s + 1) = s then .id else .literal)
        ((raw.drop s).take 1) := by
    refine (withKinds_eq_map fun k hk => ?_).symm
    have hlen : (raw.take s).length = s := by
      simp only [length_take, length_drop] at hk ⊢
      omega
    have hzero : k = 0 := by
      rw [length_take] at hk
      omega
    rw [hlen, hzero, Nat.zero_add, Nat.mod_eq_of_lt (Nat.lt_succ_self s), if_pos rfl]
  rw [take_add, withKinds_append, ← hlit, ← hid]

theorem switchCases_eq (s : Nat) (hn : raw.length ≤ n) : switchCases (s + 1) n raw =
      withKinds (fun k => if k % (s + 1) = s then .id else .literal) raw := by
  induction n generalizing raw with
  | zero =>
    rw [eq_nil_of_length_eq_zero (Nat.le_zero.mp hn)]
    rfl
  | succ n ih =>
    cases raw with
    | nil => rfl
    | cons w raw =>
      have hdrop : ((w :: raw).drop (s + 1)).length ≤ n := by
        simp only [length_drop, length_cons] at hn ⊢
        omega
      rw [switchCases, Nat.add_sub_cancel, switchCase_eq, ih hdrop,
        withKinds_split _ (s + 1) (w :: raw)]
      congr 1
      apply withKinds_congr
      intro k hk
      have hlen : ((w :: raw).take (s + 1)).length = s + 1 := by
        simp only [length_drop, length_take] at hk ⊢
        omega
      rw [hlen, Nat.add_mod_right]

theorem classifySwitch_eq (raw : List UInt32) :
    classifySwitch raw = withKinds (switchKind (if wideSwitch raw then 3 else 2)) raw := by
  have hids : (raw.take 2).map ref =
      withKinds (switchKind (if wideSwitch raw then 3 else 2)) (raw.take 2) := by
    refine (withKinds_eq_map fun k hk => ?_).symm
    rw [length_take] at hk
    exact if_pos (Or.inl (by omega))
  have hcases : ∀ s, switchCases (s + 1) raw.length (raw.drop 2) =
      withKinds (fun k => switchKind (s + 1) (k + (raw.take 2).length)) (raw.drop 2) := by
    intro s
    have hlen : (raw.drop 2).length ≤ raw.length := by
      rw [length_drop]
      omega
    rw [switchCases_eq s hlen]
    apply withKinds_congr
    intro k hk
    have htwo : (raw.take 2).length = 2 := by
      simp only [length_drop, length_take] at hk ⊢
      omega
    rw [htwo, switchKind, Nat.add_sub_cancel, Nat.add_sub_cancel]
    simp only [show ¬k + 2 < 2 by omega, false_or]
  rw [withKinds_split _ 2 raw, ← hids]
  unfold classifySwitch
  cases wideSwitch raw with
  | true => exact congrArg (_ ++ ·) (hcases 2)
  | false => exact congrArg (_ ++ ·) (hcases 1)

/-! ## Memory operands -/

theorem maskOperands_eq (mask : UInt32) (raw : List UInt32) :
    (maskOperand mask 0x2 .literal raw).1 ++
          (maskOperand mask 0x8 .id (maskOperand mask 0x2 .literal raw).2).1 ++
        (maskOperand mask 0x10 .id
          (maskOperand mask 0x8 .id (maskOperand mask 0x2 .literal raw).2).2).1 =
      withKinds (fun k => (maskKinds mask).getD k .id) (raw.take (maskKinds mask).length) ∧
    (maskOperand mask 0x10 .id
      (maskOperand mask 0x8 .id (maskOperand mask 0x2 .literal raw).2).2).2 =
      raw.drop (maskKinds mask).length := by
  unfold maskKinds maskOperand
  by_cases haligned : mask &&& 0x2 ≠ 0 <;> by_cases havailable : mask &&& 0x8 ≠ 0 <;>
    by_cases hvisible : mask &&& 0x10 ≠ 0 <;>
    simp only [if_pos haligned, if_neg haligned, if_pos havailable, if_neg havailable,
      if_pos hvisible, if_neg hvisible] <;>
    rcases raw with - | ⟨a, - | ⟨b, - | ⟨c, raw⟩⟩⟩ <;> simp [withKinds]

theorem memoryMasks_cons (n : Nat) (mask : UInt32) (raw : List UInt32) :
    memoryMasks (n + 1) (mask :: raw) =
      lit mask :: (withKinds (fun k => (maskKinds mask).getD k .id)
        (raw.take (maskKinds mask).length) ++ memoryMasks n (raw.drop (maskKinds mask).length)) := by
  obtain ⟨hargs, hrest⟩ := maskOperands_eq mask raw
  simp only [memoryMasks]
  rw [hrest, ← hargs]
  rfl

theorem values_memoryMasks (hn : raw.length ≤ n) : values (memoryMasks n raw) = raw := by
  induction n generalizing raw with
  | zero =>
    rw [eq_nil_of_length_eq_zero (Nat.le_zero.mp hn)]
    rfl
  | succ n ih =>
    cases raw with
    | nil => rfl
    | cons mask raw =>
      have hdrop : (raw.drop (maskKinds mask).length).length ≤ n := by
        simp only [length_drop, length_cons] at hn ⊢
        omega
      have hargs := values_withKinds (fun k => (maskKinds mask).getD k .id)
        (raw.take (maskKinds mask).length)
      have hrest := ih hdrop
      unfold values at hargs hrest
      rw [memoryMasks_cons, values, map_cons, map_append, hargs, hrest, take_append_drop]
      rfl

theorem memoryMasks_eq_iff (hn : ops.length ≤ n) :
    memoryMasks n (values ops) = ops ↔ Masks ops := by
  induction n generalizing ops with
  | zero =>
    rw [eq_nil_of_length_eq_zero (Nat.le_zero.mp hn)]
    exact ⟨fun _ => .nil, fun _ => rfl⟩
  | succ n ih =>
    cases ops with
    | nil => exact ⟨fun _ => .nil, fun _ => rfl⟩
    | cons o ops =>
      have hdrop : (ops.drop (maskKinds o.value).length).length ≤ n := by
        simp only [length_drop, length_cons] at hn ⊢
        omega
      have hread : memoryMasks (n + 1) (values (o :: ops)) =
          lit o.value :: (withKinds (fun k => (maskKinds o.value).getD k .id)
            (values (ops.take (maskKinds o.value).length)) ++
              memoryMasks n (values (ops.drop (maskKinds o.value).length))) := by
        rw [values, map_cons, memoryMasks_cons, values, map_take, values, map_drop]
      rw [hread]
      constructor
      · intro h
        obtain ⟨hmask, hops⟩ := cons.inj h
        have hlen : (withKinds (fun k => (maskKinds o.value).getD k .id)
            (values (ops.take (maskKinds o.value).length))).length =
              (ops.take (maskKinds o.value).length).length := by
          simp [withKinds, values]
        obtain ⟨hargs, hrest⟩ :=
          append_inj (hops.trans (take_append_drop _ ops).symm) hlen
        rw [← hmask]
        exact .mask (withKinds_eq_iff.mp hargs) ((ih hdrop).mp hrest)
      · intro h
        obtain ⟨mask, rfl, args, rest⟩ : ∃ mask, o = lit mask ∧
            Places (fun k => (maskKinds mask).getD k .id) (ops.take (maskKinds mask).length) ∧
              Masks (ops.drop (maskKinds mask).length) := by
          cases h with
          | mask args rest => exact ⟨_, rfl, args, rest⟩
        have hargs := withKinds_eq_iff.mpr args
        have hrest := (ih hdrop).mpr rest
        rw [show (lit mask).value = mask from rfl] at hrest ⊢
        rw [hargs, hrest, take_append_drop]

/-! ## The operands of an opcode -/

/-- The operands that a form gives to some words. -/
def Layout.read : Layout → List UInt32 → List Operand
  | places kind, raw => withKinds kind raw
  | memory ids, raw => classifyMemoryAccess raw ids

theorem Layout.read_ite {p : Prop} [Decidable p] {l l' : Layout} {ops' : List Operand}
    (h : ops = l.read raw) (h' : ops' = l'.read raw) :
    (if p then ops else ops') = (if p then l else l').read raw := by
  split
  · exact h
  · exact h'

theorem classifyOperands_eq (op : UInt32) (raw : List UInt32) :
    classifyOperands op raw = (layout op raw).read raw := by
  have htagged : ∀ kinds rest, tagged kinds rest raw = (Layout.start kinds rest).read raw :=
    fun kinds rest => tagged_eq kinds rest raw
  have hspec : classifySpecConstantOp raw =
      (if raw.head? = some opCompositeExtract then Layout.start [.literal, .id] .literal
        else if raw.head? = some opCompositeInsert ∨ raw.head? = some opVectorShuffle then
          .start [.literal, .id, .id] .literal
        else .start [.literal] .id).read raw := by
    cases raw with
    | nil => rfl
    | cons inner raw =>
      simp only [head?_cons, Option.some.injEq]
      exact Layout.read_ite (htagged _ _) (Layout.read_ite (htagged _ _) (htagged _ _))
  unfold classifyOperands layout
  repeat' first
    | refine Layout.read_ite ?_ ?_
    | exact htagged _ _
    | exact hspec
    | exact classifySwitch_eq raw
    | rfl

theorem Layout.read_eq_iff (l : Layout) (ops : List Operand) :
    l.read (values ops) = ops ↔ l.Fits ops := by
  cases l with
  | places kind => exact withKinds_eq_iff
  | memory ids =>
    have hids : ((values ops).take ids).map ref =
        withKinds (fun _ => .id) (values (ops.take ids)) := by
      rw [withKinds_const, values, values, ← map_take]
      rfl
    have hdrop : (values ops).drop ids = values (ops.drop ids) := by
      rw [values, values, map_drop]
    have hlen : (ops.drop ids).length ≤ (values ops).length := by
      simp [values]
    show ((values ops).take ids).map ref ++ memoryMasks _ ((values ops).drop ids) = ops ↔
      Places (fun _ => .id) (ops.take ids) ∧ Masks (ops.drop ids)
    rw [hids, hdrop]
    constructor
    · intro h
      obtain ⟨hfst, hsnd⟩ := append_inj (h.trans (take_append_drop ids ops).symm)
        (by simp [withKinds, values])
      exact ⟨withKinds_eq_iff.mp hfst, (memoryMasks_eq_iff hlen).mp hsnd⟩
    · rintro ⟨hfst, hsnd⟩
      rw [withKinds_eq_iff.mpr hfst, (memoryMasks_eq_iff hlen).mpr hsnd, take_append_drop]

theorem Layout.values_read (l : Layout) (raw : List UInt32) : values (l.read raw) = raw := by
  cases l with
  | places kind => exact values_withKinds kind raw
  | memory ids =>
    have hrest : values (memoryMasks raw.length (raw.drop ids)) = raw.drop ids :=
      values_memoryMasks (by simp)
    unfold values at hrest ⊢
    rw [read, classifyMemoryAccess, map_append, hrest, map_map]
    have hids : ((fun o : Operand => o.value) ∘ ref) = id := rfl
    rw [hids, map_id, take_append_drop]

theorem values_classifyOperands (op : UInt32) (raw : List UInt32) :
    values (classifyOperands op raw) = raw := by
  rw [classifyOperands_eq]
  exact Layout.values_read _ raw

theorem classifyOperands_eq_iff (i : Inst) :
    classifyOperands i.op (values i.operands) = i.operands ↔ i.Tagged := by
  rw [classifyOperands_eq]
  exact Layout.read_eq_iff _ _

/-- A switch on a 32-bit value: a case is a literal and a label. -/
def narrowSwitch (selector target : UInt32) (cases : List (UInt32 × UInt32)) : Inst :=
  ⟨opSwitch, 0, 0, ref selector :: ref target :: cases.flatMap fun c => [lit c.1, ref c.2]⟩

/-- A switch on a 64-bit value: a case is the two words of a literal and a label. -/
def longSwitch (selector target : UInt32) (cases : List (UInt32 × UInt32 × UInt32)) : Inst :=
  ⟨opSwitch, 0, 0,
    ref selector :: ref target :: cases.flatMap fun c => [lit c.1, lit c.2.1, ref c.2.2]⟩

end Brass.Spirv
