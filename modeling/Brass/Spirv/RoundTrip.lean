import Brass.Spirv.Functions

/-!
# The round trip of a module

`parseBinary_write_iff`: a module whose instructions are in the sections they belong to is
read back as it is if and only if the reader knows its version and each of its instructions
is read back as it is. For a module of the Module API (`Module.Built`) the second means that
no instruction is one that the reader passes over, that every operand has the kind of its
place, and that no specialization constant overflows (`Module.Readable`).
-/

namespace Brass.Spirv

open List

/-! ## Modules -/

variable {is : List Inst} {r : Reader} {m : Module} {i : Inst} {consts : Consts}

/-- The instructions of a module, but for those that its tables stand for. -/
def Module.insts (m : Module) : List Inst :=
  m.executionModes ++ m.annotations ++ m.globals ++
    m.functions.flatMap fun f => f.params ++ f.blocks.flatMap Block.insts

/-- The instructions of a module are in the sections that they belong to, the tables have no
entry twice, strings have no zero byte, and each instruction has less than 65536 words. -/
structure Module.Placed (m : Module) : Prop where
  capabilities : m.capabilities.Nodup
  extensions : m.extensions.Nodup
  extensionBytes : ∀ e ∈ m.extensions, 0 ∉ e
  importBytes : ∀ imp ∈ m.extImports, 0 ∉ imp.2
  entryBytes : ∀ ep ∈ m.entryPoints, 0 ∉ ep.name
  nameBytes : ∀ n ∈ m.names, 0 ∉ n.2
  executionModes : ∀ i ∈ m.executionModes, i.op ∈ modeOpcodes
  annotations : ∀ i ∈ m.annotations, i.op ∈ annotationOpcodes
  globals : ∀ i ∈ m.globals, i.op ∉ sectionOpcodes ∧ i.op ∉ stringOpcodes
  functions : ∀ f ∈ m.functions, f.Placed
  size : ∀ c ∈ stream m, c.Fits

def emptyConsts : Consts := fun _ => none

/-! ## The sections one by one -/

theorem parseAll_placed {ops : List UInt32} (hops : ops.all (· ∉ stringOpcodes))
    {add : Reader → List Inst → Reader}
    (hplace : ∀ js, (∀ j ∈ js, j.op ∈ ops) → ∀ r, placeAll js r = .ok (add r js))
    (h : ∀ i ∈ is, i.op ∈ ops) (r t : Reader) :
    parseAll (is.map Inst.chunk) r = .ok t ↔ ∃ js, rereads is = some js ∧ t = add r js := by
  rw [parseAll_section fun i hi => of_decide_eq_true (all_eq_true.1 hops i.op (h i hi))]
  refine exists_congr fun js => and_congr_right fun hjs => ?_
  have hmem : ∀ j ∈ js, j.op ∈ ops := by
    intro j hj
    obtain ⟨i, hi, hop⟩ := rereads_op hjs j hj
    exact hop ▸ h i hi
  rw [hplace js hmem, Except.ok.injEq, eq_comm]

theorem parseAll_modes (h : ∀ i ∈ is, i.op ∈ modeOpcodes) (r t : Reader) :
    parseAll (is.map Inst.chunk) r = .ok t ↔ ∃ js, rereads is = some js ∧ t = r.addModes js :=
  parseAll_placed (by decide) (fun _ => placeAll_modes) h r t

theorem parseAll_annotations (h : ∀ i ∈ is, i.op ∈ annotationOpcodes) (r t : Reader) :
    parseAll (is.map Inst.chunk) r = .ok t ↔ ∃ js, rereads is = some js ∧ t = r.addAnnotations js :=
  parseAll_placed (by decide) (fun _ => placeAll_annotations) h r t

theorem parseAll_globals (h : ∀ i ∈ is, i.op ∉ sectionOpcodes ∧ i.op ∉ stringOpcodes)
    (hr : r.inFunction = false) (t : Reader) :
    parseAll (is.map Inst.chunk) r = .ok t ↔ ∃ js, rereads is = some js ∧
        ∃ consts, constsAfter js r.consts = some consts ∧ t = r.addGlobals js consts := by
  rw [parseAll_section fun i hi => (h i hi).2]
  refine exists_congr fun js => and_congr_right fun hjs => ?_
  have hops : ∀ j ∈ js, j.op ∉ sectionOpcodes := by
    intro j hj
    obtain ⟨i, hi, hop⟩ := rereads_op hjs j hj
    exact hop ▸ (h i hi).1
  rw [placeAll_globals hops hr]
  cases constsAfter js r.consts with
  | none => simp
  | some consts => simp [eq_comm]

theorem parseAll_imports {l : List (UInt32 × List UInt8)} (h : ∀ imp ∈ l, 0 ∉ imp.2) (r : Reader) :
    parseAll (l.map fun imp => (opExtInstImport, imp.1 :: stringWords imp.2)) r =
      .ok { r with module := { r.module with extImports := r.module.extImports ++ l } } :=
  parseAll_put (fun m l => { m with extImports := m.extImports ++ l }) (fun m => by simp)
    (fun m l l' => by simp) (fun imp himp r => parseBody_extInstImport (h imp himp) imp.1 r) r

theorem parseAll_entryPoints {l : List EntryPoint} (h : ∀ ep ∈ l, 0 ∉ ep.name) (r : Reader) :
    parseAll (l.map fun ep =>
        (opEntryPoint, ep.model :: ep.function :: (stringWords ep.name ++ ep.interfaceIds))) r =
      .ok { r with module := { r.module with entryPoints := r.module.entryPoints ++ l } } :=
  parseAll_put (fun m l => { m with entryPoints := m.entryPoints ++ l }) (fun m => by simp)
    (fun m l l' => by simp)
    (fun ep hep r => parseBody_entryPoint (h ep hep) ep.model ep.function ep.interfaceIds r) r

theorem parseAll_names {l : List (UInt32 × List UInt8)} (h : ∀ n ∈ l, 0 ∉ n.2) (r : Reader) :
    parseAll (l.map fun n => (opName, n.1 :: stringWords n.2)) r =
      .ok { r with module := { r.module with names := r.module.names ++ l } } :=
  parseAll_put (fun m l => { m with names := m.names ++ l }) (fun m => by simp)
    (fun m l l' => by simp) (fun n hn r => parseBody_name (h n hn) n.1 r) r

theorem parseAll_capabilities {l : List UInt32} (hl : l.Nodup) (hr : r.module.capabilities = []) :
    parseAll (l.map fun c => (opCapability, [c])) r =
      .ok { r with module := { r.module with capabilities := l } } := by
  rw [parseAll_extend Module.addCapability fun c _ r => parseBody_capability c r,
    foldl_addCapability (by simpa [hr] using hl), hr, nil_append]

theorem parseAll_extensions {l : List (List UInt8)} (hl : l.Nodup) (h : ∀ e ∈ l, 0 ∉ e)
    (hr : r.module.extensions = []) :
    parseAll (l.map fun e => (opExtension, stringWords e)) r =
      .ok { r with module := { r.module with extensions := l } } := by
  rw [parseAll_extend Module.addExtension fun e he r => parseBody_extension (h e he) r,
    foldl_addExtension (by simpa [hr] using hl), hr, nil_append]

/-! ## A whole module -/

theorem parseAll_stream (hm : m.Placed) (version bound : UInt32) (t : Reader) :
    parseAll (stream m) (.start version bound) = .ok t ↔
      ∃ modes, rereads m.executionModes = some modes ∧
      ∃ annotations, rereads m.annotations = some annotations ∧
      ∃ globals, rereads m.globals = some globals ∧
      ∃ consts, constsAfter globals emptyConsts = some consts ∧
      ∃ functions, List.Forall₂ Function.Reads m.functions functions ∧ t = ⟨{ m with
          version := version
          bound := bound
          executionModes := modes
          annotations := annotations
          globals := globals
          functions := functions }, false, false, consts⟩ := by
  rw [stream, parseAll_append, parseAll_capabilities hm.capabilities rfl]
  show parseAll _ _ = .ok t ↔ _
  rw [parseAll_append, parseAll_extensions hm.extensions hm.extensionBytes rfl]
  show parseAll _ _ = .ok t ↔ _
  rw [parseAll_append, parseAll_imports hm.importBytes]
  show parseAll _ _ = .ok t ↔ _
  rw [parseAll_append, parseAll, parseBody_memoryModel]
  show parseAll _ _ = .ok t ↔ _
  rw [parseAll_append, parseAll_entryPoints hm.entryBytes]
  show parseAll _ _ = .ok t ↔ _
  constructor
  · intro h
    obtain ⟨r₁, h₁, h⟩ := parseAll_append_ok.mp h
    obtain ⟨modes, hmodes, rfl⟩ := (parseAll_modes hm.executionModes _ r₁).mp h₁
    rw [parseAll_append, parseAll_names hm.nameBytes] at h
    obtain ⟨r₂, h₂, h⟩ := parseAll_append_ok.mp h
    obtain ⟨annotations, hannotations, rfl⟩ := (parseAll_annotations hm.annotations _ r₂).mp h₂
    obtain ⟨r₃, h₃, h⟩ := parseAll_append_ok.mp h
    obtain ⟨globals, hglobals, consts, hconsts, rfl⟩ := (parseAll_globals hm.globals rfl r₃).mp h₃
    obtain ⟨functions, hfunctions, rfl⟩ := (parseAll_functions hm.functions rfl rfl t).mp h
    exact ⟨modes, hmodes, annotations, hannotations, globals, hglobals, consts, hconsts, functions,
      hfunctions, rfl⟩
  · rintro ⟨modes, hmodes, annotations, hannotations, globals, hglobals, consts, hconsts,
      functions, hfunctions, rfl⟩
    refine parseAll_append_ok.mpr
      ⟨_, (parseAll_modes hm.executionModes _ _).mpr ⟨modes, hmodes, rfl⟩, ?_⟩
    rw [parseAll_append, parseAll_names hm.nameBytes]
    refine parseAll_append_ok.mpr
      ⟨_, (parseAll_annotations hm.annotations _ _).mpr ⟨annotations, hannotations, rfl⟩, ?_⟩
    refine parseAll_append_ok.mpr
      ⟨_, (parseAll_globals hm.globals rfl _).mpr ⟨globals, hglobals, consts, hconsts, rfl⟩, ?_⟩
    exact (parseAll_functions hm.functions rfl rfl _).mpr ⟨functions, hfunctions, rfl⟩

/-- Each instruction of a module is read back as it is, and no constant overflows. -/
structure Module.Rereads (m : Module) : Prop where
  version : supportedVersion m.version = true
  bound : m.bound ≠ 0
  insts : ∀ i ∈ m.executionModes ++ m.annotations ++ m.globals, i.Rereads
  consts : (constsAfter m.globals emptyConsts).isSome
  functions : ∀ f ∈ m.functions, f.Rereads

theorem parseBinary_header (version bound : UInt32) (rest : List UInt32) :
    parseBinary (magicNumber :: version :: 0 :: bound :: 0 :: rest) =
      if !supportedVersion version then .error .badVersion
      else if bound = 0 then .error .zeroBound
      else
        match parseLoop (magicNumber :: version :: 0 :: bound :: 0 :: rest)
            (magicNumber :: version :: 0 :: bound :: 0 :: rest).length 5
            (.start version bound) with
        | .error e => .error e
        | .ok r => if r.inFunction then .error .unterminated else .ok r.module := rfl

theorem parseBinary_write (hm : m.Placed) : parseBinary (write m) =
      if !supportedVersion m.version then .error .badVersion
      else if m.bound = 0 then .error .zeroBound
      else
        match parseAll (stream m) (.start m.version m.bound) with
        | .error e => .error e
        | .ok r => if r.inFunction then .error .unterminated else .ok r.module := by
  have hloop : parseLoop (write m) (write m).length 5 (.start m.version m.bound) =
      parseAll (stream m) (.start m.version m.bound) := by
    have hlen : (stream m).length ≤ (write m).length := by
      have hle := length_le_encodeAll (stream m)
      rw [write_eq, length_append]
      omega
    have h := parseLoop_encodeAll hm.size [magicNumber, m.version, 0, m.bound, 0] hlen
      (.start m.version m.bound)
    rw [← write_eq] at h
    exact h
  have h := parseBinary_header m.version m.bound (encodeAll (stream m))
  have hwords : magicNumber :: m.version :: 0 :: m.bound :: 0 :: encodeAll (stream m) = write m :=
    (write_eq m).symm
  rw [hwords, hloop] at h
  exact h

theorem parseBinary_write_iff (hm : m.Placed) : parseBinary (write m) = .ok m ↔ m.Rereads := by
  rw [parseBinary_write hm]
  constructor
  · intro h
    split at h
    case isTrue hversion => cases h
    case isFalse hversion =>
    split at h
    case isTrue hbound => cases h
    case isFalse hbound =>
    cases hall : parseAll (stream m) (.start m.version m.bound) with
    | error e => simp [hall] at h
    | ok r =>
      obtain ⟨modes, hmodes, annotations, hannotations, globals, hglobals, consts, hconsts,
        functions, hfunctions, rfl⟩ := (parseAll_stream hm _ _ r).mp hall
      simp only [hall, Bool.false_eq_true, if_false, Except.ok.injEq] at h
      obtain rfl : modes = m.executionModes := congrArg Module.executionModes h
      obtain rfl : annotations = m.annotations := congrArg Module.annotations h
      obtain rfl : globals = m.globals := congrArg Module.globals h
      obtain rfl : functions = m.functions := congrArg Module.functions h
      refine ⟨by simpa using hversion, hbound, fun i hi => ?_, by simp [hconsts], fun f hf => ?_⟩
      · rcases mem_append.mp hi with hi | hi
        · rcases mem_append.mp hi with hi | hi
          · exact rereads_eq_self_iff.mp hmodes i hi
          · exact rereads_eq_self_iff.mp hannotations i hi
        · exact rereads_eq_self_iff.mp hglobals i hi
      · exact Function.reads_self_iff.mp (forall₂_same.mp hfunctions f hf)
  · intro h
    obtain ⟨consts, hconsts⟩ := Option.isSome_iff_exists.mp h.consts
    have hmodes := rereads_eq_self_iff.mpr fun i hi =>
      h.insts i (mem_append_left _ (mem_append_left _ hi))
    have hannotations := rereads_eq_self_iff.mpr fun i hi =>
      h.insts i (mem_append_left _ (mem_append_right _ hi))
    have hglobals := rereads_eq_self_iff.mpr fun i hi =>
      h.insts i (mem_append_right _ hi)
    have hfunctions := forall₂_same.mpr fun f hf =>
      Function.reads_self_iff.mpr (h.functions f hf)
    have hall := (parseAll_stream hm m.version m.bound _).mpr
      ⟨_, hmodes, _, hannotations, _, hglobals, consts, hconsts, _, hfunctions, rfl⟩
    rw [if_neg (by simp [h.version]), if_neg h.bound, hall]
    rfl

/-! ## Instructions -/

/-- The type and the result id are not 0 where the opcode has them. -/
def Inst.HasIds (i : Inst) : Prop :=
  (hasResultType i.op = true → i.type ≠ 0) ∧ (hasResult i.op = true → i.result ≠ 0)

/-- The type and the result id are 0 where the opcode has none. -/
def Inst.NoExtraIds (i : Inst) : Prop :=
  (hasResultType i.op = false → i.type = 0) ∧ (hasResult i.op = false → i.result = 0)

theorem length_optionalWord (v : UInt32) : (optionalWord v).length = if v = 0 then 0 else 1 := by
  unfold optionalWord
  split
  · rfl
  · rfl

theorem length_body (i : Inst) : i.body.length =
      (if i.type = 0 then 0 else 1) + (if i.result = 0 then 0 else 1) + i.operands.length := by
  simp [Inst.body, length_optionalWord, Nat.add_assoc]

theorem Inst.HasIds.body (h : i.HasIds) (h' : i.NoExtraIds) :
    i.body = (if hasResultType i.op then [i.type] else []) ++
      (if hasResult i.op then [i.result] else []) ++ values i.operands := by
  have htype : optionalWord i.type = if hasResultType i.op then [i.type] else [] := by
    cases ht : hasResultType i.op with
    | true => simp [optionalWord, h.1 ht]
    | false => simp [optionalWord, h'.1 ht]
  have hresult : optionalWord i.result = if hasResult i.op then [i.result] else [] := by
    cases hr : hasResult i.op with
    | true => simp [optionalWord, h.2 hr]
    | false => simp [optionalWord, h'.2 hr]
  rw [Inst.body, htype, hresult]
  rfl

theorem Inst.HasIds.readInst (h : i.HasIds) (h' : i.NoExtraIds) : Spirv.readInst i.op i.body =
      some { i with operands := classifyOperands i.op (values i.operands) } := by
  have htyped : hasResultType i.op = true → hasResult i.op = true := fun ht => by
    simp [hasResult, ht]
  obtain ⟨op, type, result, operands⟩ := i
  unfold Spirv.readInst
  rw [h.body h']
  simp only [idWords]
  cases ht : hasResultType op with
  | true => simp [htyped ht]
  | false =>
    have htype : type = 0 := h'.1 ht
    cases hr : hasResult op with
    | true => simp [htype]
    | false =>
      have hresult : result = 0 := h'.2 hr
      simp [htype, hresult]

/-- An instruction is read back as it is if no id was left out and its operands have the kinds
of their places. -/
theorem readInst_body_iff (h : i.NoExtraIds) :
    readInst i.op i.body = some i ↔ i.HasIds ∧ i.Tagged := by
  constructor
  · intro hread
    have hids : i.HasIds := by
      unfold readInst at hread
      split at hread
      case isTrue hshort => cases hread
      case isFalse hlong =>
        have hops : classifyOperands i.op (i.body.drop (idWords i.op)) = i.operands :=
          congrArg Inst.operands (Option.some.inj hread)
        have hlen := congrArg length (values_classifyOperands i.op (i.body.drop (idWords i.op)))
        rw [hops, values, length_map, length_drop, length_body] at hlen
        rw [length_body] at hlong
        have hsum : (if i.type = 0 then 0 else 1) + (if i.result = 0 then 0 else 1) =
            idWords i.op := by omega
        unfold idWords at hsum
        constructor
        · intro ht hzero
          have hr : hasResult i.op = true := by simp [hasResult, ht]
          simp only [ht, hr, hzero, if_true] at hsum
          split_ifs at hsum <;> omega
        · intro hr hzero
          cases ht : hasResultType i.op with
          | true =>
            simp only [ht, hr, hzero, if_true] at hsum
            split_ifs at hsum <;> omega
          | false => simp [ht, hr, hzero, h.1 ht] at hsum
    refine ⟨hids, (classifyOperands_eq_iff i).mp ?_⟩
    have heq := (hids.readInst h).symm.trans hread
    exact congrArg Inst.operands (Option.some.inj heq)
  · rintro ⟨hids, htagged⟩
    rw [hids.readInst h, (classifyOperands_eq_iff i).mpr htagged]

/-! ## Overflow -/

/-- The operations of a specialization constant that are signed operations without a defined
result: the negation of the least number, and its division by -1. -/
def SpecOverflows (op : UInt32) (a b : UInt64) : Prop :=
  (op = opSNegate ∧ a = int64Min) ∨
    (op ∈ [opSDiv, opSRem, opSMod] ∧ a = int64Min ∧ b = 0xFFFFFFFFFFFFFFFF)

/-- An `OpSpecConstantOp` whose operation overflows on the constants before it. -/
def Inst.Overflows (i : Inst) (consts : Consts) : Prop :=
  i.op = opSpecConstantOp ∧ ∃ o ops, i.operands = o :: ops ∧
    SpecOverflows o.value (specOperand i.operands consts 1) (specOperand i.operands consts 2)

/-- No constant of the globals overflows. -/
def NoOverflow (globals : List Inst) : Prop :=
  ∀ pre i post consts, globals = pre ++ i :: post →
    constsAfter pre emptyConsts = some consts → ¬i.Overflows consts

theorem signedDivide_eq_none {f : Int64 → Int64 → Int64} {a b : UInt64} :
    signedDivide f a b = none ↔ a = int64Min ∧ b = 0xFFFFFFFFFFFFFFFF := by
  unfold signedDivide
  by_cases hzero : b = 0
  · simp [hzero]
  · rw [if_neg hzero]
    simp

theorem not_specOverflows {op : UInt32} {a b : UInt64}
    (h : op ∉ [opSNegate, opSDiv, opSRem, opSMod]) : ¬SpecOverflows op a b := by
  simp only [mem_cons, not_mem_nil, or_false, not_or] at h
  rintro (⟨hop, -⟩ | ⟨hop, -⟩)
  · exact h.1 hop
  · simp only [mem_cons, not_mem_nil, or_false] at hop
    exact hop.elim h.2.1 fun hop => hop.elim h.2.2.1 h.2.2.2

theorem ite_ne_none {p : Prop} [Decidable p] {x y : Option UInt64} (hx : x ≠ none)
    (hy : y ≠ none) : (if p then x else y) ≠ none := by
  split
  · exact hx
  · exact hy

theorem evalSpecOp_eq_none {op : UInt32} {ops : List Operand} : evalSpecOp op ops consts = none ↔
      SpecOverflows op (specOperand ops consts 1) (specOperand ops consts 2) := by
  by_cases hnegate : op = opSNegate
  · subst hnegate
    show (if specOperand ops consts 1 = int64Min then none else some _) = none ↔ _
    rw [SpecOverflows]
    by_cases hmin : specOperand ops consts 1 = int64Min
    · simp [hmin]
    · simp [hmin]
  by_cases hdivide : op = opSDiv
  · subst hdivide
    show signedDivide _ _ _ = none ↔ _
    rw [signedDivide_eq_none, SpecOverflows]
    have hnot : opSDiv ≠ opSNegate := by decide
    simp [hnot]
  by_cases hrem : op ∈ [opSRem, opSMod]
  · simp only [mem_cons, not_mem_nil, or_false] at hrem
    have hnone : evalSpecOp op ops consts = none ↔
        specOperand ops consts 1 = int64Min ∧ specOperand ops consts 2 = 0xFFFFFFFFFFFFFFFF := by
      rcases hrem with rfl | rfl
      · exact signedDivide_eq_none
      · exact signedDivide_eq_none
    rw [hnone, SpecOverflows]
    have hmem : op ∈ [opSDiv, opSRem, opSMod] := mem_cons_of_mem _ (by simpa using hrem)
    simp [hnegate, hmem]
  · have hnot : ¬SpecOverflows op (specOperand ops consts 1) (specOperand ops consts 2) :=
      not_specOverflows fun hmem =>
        (mem_cons.mp hmem).elim hnegate fun hmem => (mem_cons.mp hmem).elim hdivide hrem
    refine iff_of_false ?_ hnot
    unfold evalSpecOp
    rw [if_neg hnegate, if_neg hdivide, if_neg hrem]
    repeat' first
      | exact Option.some_ne_none _
      | refine ite_ne_none ?_ ?_

theorem recordConst_eq_none : recordConst i consts = none ↔ i.Overflows consts := by
  unfold Inst.Overflows
  by_cases hop : i.op = opSpecConstantOp
  · unfold recordConst
    rw [if_neg (by rw [hop]; decide), if_neg (by rw [hop]; decide), if_neg (by rw [hop]; decide),
      if_neg (by rw [hop]; decide), if_pos hop]
    cases hops : i.operands with
    | nil => simp
    | cons o ops => simp [hop, evalSpecOp_eq_none]
  · refine iff_of_false ?_ fun h => hop h.1
    unfold recordConst
    rw [if_neg hop]
    split_ifs <;> simp

theorem constsAfter_isSome_iff_aux {globals : List Inst} : (constsAfter globals consts).isSome ↔
      ∀ pre i post consts', globals = pre ++ i :: post →
        constsAfter pre consts = some consts' → ¬i.Overflows consts' := by
  induction globals generalizing consts with
  | nil => simp [constsAfter]
  | cons j globals ih =>
    simp only [constsAfter]
    cases hrec : recordConst j consts with
    | none =>
      refine iff_of_false (by simp) fun h => ?_
      exact h [] j globals consts rfl rfl (recordConst_eq_none.mp hrec)
    | some next =>
      rw [ih]
      constructor
      · intro h pre i post consts' hsplit hpre
        cases pre with
        | nil =>
          obtain ⟨rfl, rfl⟩ := cons.inj hsplit
          cases hpre
          intro hover
          rw [recordConst_eq_none.mpr hover] at hrec
          cases hrec
        | cons k pre =>
          obtain ⟨rfl, rfl⟩ := cons.inj hsplit
          rw [constsAfter, hrec] at hpre
          exact h pre i post consts' rfl hpre
      · intro h pre i post consts' hsplit hpre
        refine h (j :: pre) i post consts' (by rw [hsplit, cons_append]) ?_
        rw [constsAfter, hrec]
        exact hpre

theorem constsAfter_isSome_iff {globals : List Inst} :
    (constsAfter globals emptyConsts).isSome ↔ NoOverflow globals := constsAfter_isSome_iff_aux

/-! ## The Module API -/

structure Module.Built (m : Module) : Prop extends Module.Placed m where
  version : 0x00010500 ≤ m.version
  bound : m.bound ≠ 0
  ids : ∀ i ∈ m.insts, i.HasIds ∧ i.NoExtraIds
  functionIds : ∀ f ∈ m.functions, f.returnType ≠ 0 ∧ f.id ≠ 0
  labels : ∀ f ∈ m.functions, ∀ b ∈ f.blocks, b.label ≠ 0

/-- The version is one that the reader knows, no instruction is passed over, every operand has
the kind of its place, and no specialization constant overflows. -/
structure Module.Readable (m : Module) : Prop where
  version : supportedVersion m.version = true
  read : ∀ i ∈ m.insts, isSkipped i.op = false
  tagged : ∀ i ∈ m.insts, i.Tagged
  consts : NoOverflow m.globals

theorem Inst.rereads_iff (h : i.NoExtraIds) :
    i.Rereads ↔ isSkipped i.op = false ∧ i.HasIds ∧ i.Tagged := by
  unfold Inst.Rereads
  rw [readInst_body_iff h]

theorem Module.mem_insts : i ∈ m.insts ↔ i ∈ m.executionModes ++ m.annotations ++ m.globals ∨
      ∃ f ∈ m.functions, i ∈ f.params ∨ ∃ b ∈ f.blocks, i ∈ b.insts := by
  unfold Module.insts
  rw [mem_append, mem_flatMap]
  simp only [mem_append, mem_flatMap]

theorem Module.rereads_iff (h : ∀ i ∈ m.insts, i.NoExtraIds) :
    m.Rereads ↔ supportedVersion m.version = true ∧ m.bound ≠ 0 ∧
      (∀ i ∈ m.insts, isSkipped i.op = false ∧ i.HasIds ∧ i.Tagged) ∧ NoOverflow m.globals ∧
      ∀ f ∈ m.functions, f.HeadRereads ∧ ∀ b ∈ f.blocks, b.label ≠ 0 := by
  constructor
  · rintro ⟨hversion, hbound, hinsts, hconsts, hfunctions⟩
    refine ⟨hversion, hbound, fun i hi => ?_, constsAfter_isSome_iff.mp hconsts, fun f hf =>
      ⟨(hfunctions f hf).1, fun b hb => ((hfunctions f hf).2.2 b hb).1⟩⟩
    rw [← Inst.rereads_iff (h i hi)]
    rcases Module.mem_insts.mp hi with hi | ⟨f, hf, hi | ⟨b, hb, hi⟩⟩
    · exact hinsts i hi
    · exact (hfunctions f hf).2.1 i hi
    · exact ((hfunctions f hf).2.2 b hb).2 i hi
  · rintro ⟨hversion, hbound, hinsts, hconsts, hfunctions⟩
    have hread : ∀ i ∈ m.insts, i.Rereads := fun i hi =>
      (Inst.rereads_iff (h i hi)).mpr (hinsts i hi)
    refine ⟨hversion, hbound, fun i hi => hread i (Module.mem_insts.mpr (.inl hi)),
      constsAfter_isSome_iff.mpr hconsts, fun f hf => ⟨(hfunctions f hf).1, fun i hi => ?_,
        fun b hb => ⟨(hfunctions f hf).2 b hb, fun i hi => ?_⟩⟩⟩
    · exact hread i (Module.mem_insts.mpr (.inr ⟨f, hf, .inl hi⟩))
    · exact hread i (Module.mem_insts.mpr (.inr ⟨f, hf, .inr ⟨b, hb, hi⟩⟩))

theorem Module.Built.parseBinary_write (hm : m.Built) :
    parseBinary (write m) = .ok m ↔ m.Readable := by
  rw [parseBinary_write_iff hm.toPlaced, Module.rereads_iff fun i hi => (hm.ids i hi).2]
  constructor
  · rintro ⟨hversion, -, hinsts, hconsts, -⟩
    exact ⟨hversion, fun i hi => (hinsts i hi).1, fun i hi => (hinsts i hi).2.2, hconsts⟩
  · rintro ⟨hversion, hread, htagged, hconsts⟩
    exact ⟨hversion, hm.bound, fun i hi => ⟨hread i hi, (hm.ids i hi).1, htagged i hi⟩, hconsts,
      fun f hf => ⟨.inl (hm.functionIds f hf), hm.labels f hf⟩⟩

end Brass.Spirv
