import Brass.Spirv.RoundTrip

/-!
# Reading any words

The reader on words that need not come from `write`. `Reader.Inv` is what holds after every
instruction that was accepted; from it, a module that was accepted is `Module.Placed`, and
only an id that is 0 keeps it from being read back as it is. The loop ends, and reads inside
the words (`parseBinary_inside`).
-/

namespace Brass.Spirv

open List Module

/-! ## Instructions that were read -/

variable {head op : UInt32} {body words : List UInt32} {i : Inst} {α : Type} {r s : Reader}
  {n pos : Nat}

/-- What is known of an instruction that was read. -/
structure Inst.Accepted (i : Inst) : Prop where
  size : i.chunk.Fits
  read : isSkipped i.op = false
  extra : i.NoExtraIds
  tagged : i.Tagged

theorem readInst_spec (h : readInst op body = some i) : i.op = op ∧ idWords op ≤ body.length ∧
      i.operands = classifyOperands op (body.drop (idWords op)) ∧ i.NoExtraIds := by
  unfold readInst at h
  split at h
  case isTrue hshort => cases h
  case isFalse hlong =>
    obtain rfl := Option.some.inj h
    exact ⟨rfl, Nat.le_of_not_lt hlong, rfl, fun ht => if_neg (by simp [ht]),
      fun hr => if_neg (by simp [hr])⟩

theorem Inst.NoExtraIds.length_body_le (h : i.NoExtraIds) :
    i.body.length ≤ idWords i.op + i.operands.length := by
  rw [length_body]
  unfold idWords
  cases ht : hasResultType i.op with
  | true =>
    have hr : hasResult i.op = true := by simp [hasResult, ht]
    simp only [hr, if_true]
    split_ifs <;> omega
  | false =>
    rw [if_pos (h.1 ht)]
    cases hr : hasResult i.op with
    | true =>
      simp only [if_true]
      split_ifs <;> omega
    | false =>
      rw [if_pos (h.2 hr)]
      simp

theorem readInst_accepted (hop : op.toNat < 65536) (hbody : body.length + 1 < 65536)
    (hskip : isSkipped op = false) (h : readInst op body = some i) : i.Accepted := by
  obtain ⟨rfl, hlong, hoperands, hextra⟩ := readInst_spec h
  have hvalues : values i.operands = body.drop (idWords i.op) := by
    rw [hoperands, values_classifyOperands]
  have hlen : i.operands.length = body.length - idWords i.op := by
    have hlen := congrArg length hvalues
    rw [values, length_map, length_drop] at hlen
    exact hlen
  refine ⟨⟨hop, ?_⟩, hskip, hextra, ?_⟩
  · have hle := hextra.length_body_le
    show i.body.length + 1 < 65536
    omega
  · apply (classifyOperands_eq_iff i).mp
    rw [hvalues, ← hoperands]

def Function.Accepted (f : Function) : Prop :=
  (∀ i ∈ f.params, i.op = opFunctionParameter ∧ i.Accepted) ∧
    ∀ b ∈ f.blocks, ∀ i ∈ b.insts, (i.op ∉ sectionOpcodes ∧ i.op ∉ stringOpcodes) ∧ i.Accepted

structure Reader.Inv (r : Reader) : Prop where
  version : supportedVersion r.module.version = true
  bound : r.module.bound ≠ 0
  capabilities : r.module.capabilities.Nodup
  extensions : r.module.extensions.Nodup
  extension : ∀ e ∈ r.module.extensions, 0 ∉ e ∧ (stringWords e).length + 1 < 65536
  extImport : ∀ imp ∈ r.module.extImports, 0 ∉ imp.2 ∧ (stringWords imp.2).length + 2 < 65536
  entryPoint : ∀ ep ∈ r.module.entryPoints,
    0 ∉ ep.name ∧ (stringWords ep.name).length + ep.interfaceIds.length + 3 < 65536
  name : ∀ n ∈ r.module.names, 0 ∉ n.2 ∧ (stringWords n.2).length + 2 < 65536
  mode : ∀ i ∈ r.module.executionModes, i.op ∈ modeOpcodes ∧ i.Accepted
  annotation : ∀ i ∈ r.module.annotations, i.op ∈ annotationOpcodes ∧ i.Accepted
  global : ∀ i ∈ r.module.globals, (i.op ∉ sectionOpcodes ∧ i.op ∉ stringOpcodes) ∧ i.Accepted
  function : ∀ f ∈ r.module.functions, f.Accepted
  consts : constsAfter r.module.globals emptyConsts = some r.consts

theorem inv_start {version bound : UInt32} (hversion : supportedVersion version = true)
    (hbound : bound ≠ 0) : (Reader.start version bound).Inv where
  version := hversion
  bound := hbound
  capabilities := nodup_nil
  extensions := nodup_nil
  extension := by simp [Reader.start, ofBinary]
  extImport := by simp [Reader.start, ofBinary]
  entryPoint := by simp [Reader.start, ofBinary]
  name := by simp [Reader.start, ofBinary]
  mode := by simp [Reader.start, ofBinary]
  annotation := by simp [Reader.start, ofBinary]
  global := by simp [Reader.start, ofBinary]
  function := by simp [Reader.start, ofBinary]
  consts := rfl

theorem forall_mem_concat {P : α → Prop} {l : List α} {a : α} (h : ∀ b ∈ l, P b) (ha : P a) :
    ∀ b ∈ l ++ [a], P b := by
  intro b hb
  rcases mem_append.mp hb with hb | hb
  · exact h b hb
  · rw [mem_singleton.mp hb]
    exact ha

theorem forall_mem_updateLast {P : α → Prop} {f : α → α} {l : List α} (h : ∀ a ∈ l, P a)
    (hf : ∀ a, P a → P (f a)) : ∀ a ∈ updateLast f l, P a := by
  rcases eq_nil_or_concat l with rfl | ⟨l, b, rfl⟩
  · exact h
  · rw [concat_eq_append] at h ⊢
    rw [updateLast_append]
    exact forall_mem_concat (fun a ha => h a (mem_append_left _ ha)) (hf b (h b (by simp)))

theorem nodup_concat_of_notMem {l : List α} {a : α} (h : l.Nodup) (ha : a ∉ l) :
    (l ++ [a]).Nodup := by
  refine nodup_append.mpr ⟨h, by simp, fun b hb c hc => ?_⟩
  rintro rfl
  exact ha (mem_singleton.mp hc ▸ hb)

theorem constsAfter_append (is : List Inst) (i : Inst) (consts : Consts) :
    constsAfter (is ++ [i]) consts = (constsAfter is consts).bind (recordConst i) := by
  induction is generalizing consts with
  | nil =>
    simp only [nil_append, constsAfter, Option.bind_some]
    cases recordConst i consts with
    | none => rfl
    | some next => rfl
  | cons j is ih =>
    simp only [cons_append, constsAfter]
    cases recordConst j consts with
    | none => rfl
    | some next => exact ih next

theorem addCapability_inv (h : r.Inv) (c : UInt32) :
    Reader.Inv { r with module := r.module.addCapability c } := by
  unfold addCapability
  split
  case isTrue hmem => exact h
  case isFalse hnew => exact { h with capabilities := nodup_concat_of_notMem h.capabilities hnew }

theorem addExtension_inv (h : r.Inv) {e : List UInt8} (he : 0 ∉ e)
    (hsize : (stringWords e).length + 1 < 65536) :
    Reader.Inv { r with module := r.module.addExtension e } := by
  unfold addExtension
  split
  case isTrue hmem => exact h
  case isFalse hnew =>
    exact { h with
        extensions := nodup_concat_of_notMem h.extensions hnew
        extension := forall_mem_concat h.extension ⟨he, hsize⟩ }

theorem updateFunction_inv (h : r.Inv) {f : Function → Function}
    (hf : ∀ g : Function, g.Accepted → (f g).Accepted) (inBlock : Bool) :
    Reader.Inv { r with module := r.module.updateFunction f, inBlock := inBlock } :=
  { h with function := forall_mem_updateLast h.function hf }

theorem placeInst_inv (hr : r.Inv) (hi : i.Accepted) (hstring : i.op ∉ stringOpcodes)
    (h : placeInst r i = .ok s) : s.Inv := by
  by_cases hmode : i.op ∈ modeOpcodes
  · rw [placeInst_mode hmode] at h
    cases h
    exact { hr with mode := forall_mem_concat hr.mode ⟨hmode, hi⟩ }
  by_cases hnote : i.op ∈ annotationOpcodes
  · rw [placeInst_annotations hnote] at h
    cases h
    exact { hr with annotation := forall_mem_concat hr.annotation ⟨hnote, hi⟩ }
  by_cases hcapability : i.op = opCapability
  · unfold placeInst at h
    rw [if_pos hcapability] at h
    cases hops : i.operands with
    | nil =>
      simp only [hops, Except.ok.injEq] at h
      exact h ▸ hr
    | cons o ops =>
      simp only [hops, Except.ok.injEq] at h
      exact h ▸ addCapability_inv hr o.value
  by_cases hmodel : i.op = opMemoryModel
  · unfold placeInst at h
    rw [if_neg hcapability, if_pos hmodel] at h
    split at h
    · cases h
      exact { hr with }
    · cases h
      exact hr
  by_cases hfunction : i.op = opFunction
  · rw [placeInst_function hfunction] at h
    cases h
    exact { hr with
        function := forall_mem_concat hr.function ⟨fun i hi => absurd hi not_mem_nil,
          fun b hb => absurd hb not_mem_nil⟩ }
  by_cases hparameter : i.op = opFunctionParameter
  · obtain ⟨op, type, result, operands⟩ := i
    obtain ⟨module, inFunction, inBlock, consts⟩ := r
    cases hparameter
    cases inFunction with
    | false => cases h
    | true =>
      cases h
      refine updateFunction_inv hr (fun g hg => ?_) inBlock
      exact ⟨forall_mem_concat hg.1 ⟨rfl, hi⟩, hg.2⟩
  by_cases hend : i.op = opFunctionEnd
  · obtain ⟨op, type, result, operands⟩ := i
    obtain ⟨module, inFunction, inBlock, consts⟩ := r
    cases hend
    cases inFunction with
    | false => cases h
    | true =>
      cases h
      exact { hr with }
  by_cases hlabel : i.op = opLabel
  · obtain ⟨op, type, result, operands⟩ := i
    obtain ⟨module, inFunction, inBlock, consts⟩ := r
    cases hlabel
    cases inFunction with
    | false => cases h
    | true =>
      cases h
      refine updateFunction_inv hr (fun g hg => ?_) true
      exact ⟨hg.1, forall_mem_concat hg.2 fun i hi => absurd hi not_mem_nil⟩
  · have hplain : i.op ∉ sectionOpcodes := by
      simp only [sectionOpcodes, functionOpcodes, mem_append, mem_cons,
        not_mem_nil, or_false, not_or]
      exact ⟨⟨⟨⟨hcapability, hmodel⟩, hmode⟩, hnote⟩, hfunction, hparameter, hend, hlabel⟩
    rw [placeInst_plain hplain] at h
    split at h
    · split at h
      · cases h
      · cases h
        refine updateFunction_inv hr (fun g hg => ?_) r.inBlock
        refine ⟨hg.1, forall_mem_updateLast hg.2 fun b hb => ?_⟩
        exact forall_mem_concat hb ⟨⟨hplain, hstring⟩, hi⟩
    · cases hrec : recordConst i r.consts with
      | none => simp [hrec] at h
      | some consts =>
        simp only [hrec, Except.ok.injEq] at h
        subst h
        refine { hr with
            global := forall_mem_concat hr.global ⟨⟨hplain, hstring⟩, hi⟩
            consts := ?_ }
        show constsAfter (r.module.globals ++ [i]) emptyConsts = some consts
        rw [constsAfter_append, hr.consts]
        exact hrec

theorem parseBody_inv (hr : r.Inv) (hop : op.toNat < 65536) (hbody : body.length + 1 < 65536)
    (h : parseBody op body r = .ok s) :
    s.Inv := by
  unfold parseBody at h
  split at h
  case isTrue hskip =>
    cases h
    exact hr
  case isFalse hskip =>
  split at h
  case isTrue hextension =>
    split at h
    · cases h
    · rename_i ext rest hread
      cases h
      have hlen := readString_length hread
      exact addExtension_inv hr (readString_zero_notMem hread) (by omega)
  case isFalse hextension =>
  split at h
  case isTrue himport =>
    split at h
    · rename_i id w body
      split at h
      · cases h
      · rename_i name rest hread
        cases h
        have hlen := readString_length hread
        simp only [length_cons] at hlen hbody
        refine { hr with extImport := forall_mem_concat hr.extImport ?_ }
        exact ⟨readString_zero_notMem hread, by show (stringWords name).length + 2 < 65536; omega⟩
    · cases h
  case isFalse himport =>
  split at h
  case isTrue hentry =>
    split at h
    · rename_i model function w body
      split at h
      · cases h
      · rename_i name rest hread
        cases h
        have hlen := readString_length hread
        simp only [length_cons] at hlen hbody
        refine { hr with entryPoint := forall_mem_concat hr.entryPoint ?_ }
        refine ⟨readString_zero_notMem hread, ?_⟩
        show (stringWords name).length + rest.length + 3 < 65536
        omega
    · cases h
  case isFalse hentry =>
  split at h
  case isTrue hname =>
    split at h
    · rename_i target w body
      split at h
      · cases h
      · rename_i name rest hread
        cases h
        have hlen := readString_length hread
        simp only [length_cons] at hlen hbody
        refine { hr with name := forall_mem_concat hr.name ?_ }
        exact ⟨readString_zero_notMem hread, by show (stringWords name).length + 2 < 65536; omega⟩
    · cases h
  case isFalse hname =>
  split at h
  · cases h
  · rename_i i hread
    have hacc := readInst_accepted hop hbody (Bool.not_eq_true _ ▸ hskip) hread
    refine placeInst_inv hr hacc ?_ h
    rw [readInst_op hread]
    simp [stringOpcodes, hextension, himport, hentry, hname]

/-! ## Errors -/

/-- An instruction is a constant of the globals whose operation overflows. -/
def OverflowsIn (op : UInt32) (body : List UInt32) (r : Reader) : Prop :=
  ∃ i, readInst op body = some i ∧ r.inFunction = false ∧ i.Overflows r.consts

theorem placeInst_error {e : ParseError} (h : placeInst r i = .error e) :
    e ≠ .outOfBounds ∧ e ≠ .outOfFuel ∧
      (e = .undefined → r.inFunction = false ∧ i.Overflows r.consts) := by
  by_cases hplain : i.op ∈ sectionOpcodes
  · obtain ⟨op, type, result, operands⟩ := i
    obtain ⟨module, inFunction, inBlock, consts⟩ := r
    simp only [sectionOpcodes, modeOpcodes, annotationOpcodes, functionOpcodes, cons_append,
      nil_append, mem_cons, not_mem_nil, or_false] at hplain
    rcases hplain with rfl | rfl | rfl | rfl | rfl | rfl | rfl | rfl | rfl | rfl | rfl
    · cases operands <;> cases h
    · rcases operands with - | ⟨a, - | ⟨b, operands⟩⟩ <;> cases h
    · cases h
    · cases h
    · cases h
    · cases h
    · cases h
    · cases h
    all_goals
      cases inFunction with
      | false =>
        cases h
        refine ⟨?_, ?_, ?_⟩ <;> rintro ⟨⟩
      | true => cases h
  · rw [placeInst_plain hplain] at h
    split at h
    · split at h
      · cases h
        refine ⟨?_, ?_, ?_⟩ <;> rintro ⟨⟩
      · cases h
    · rename_i hfn
      split at h
      · rename_i hrec
        cases h
        refine ⟨?_, ?_, fun _ => ⟨Bool.not_eq_true _ ▸ hfn, recordConst_eq_none.mp hrec⟩⟩ <;>
          rintro ⟨⟩
      · cases h

theorem placeInst_overflows (hfn : r.inFunction = false) (h : i.Overflows r.consts) :
    placeInst r i = .error .undefined := by
  have hplain : i.op ∉ sectionOpcodes := by
    rw [h.1]
    decide
  rw [placeInst_plain hplain, if_neg (by simp [hfn]), recordConst_eq_none.mpr h]

theorem parseBody_error {e : ParseError} (h : parseBody op body r = .error e) :
    e ≠ .outOfBounds ∧ e ≠ .outOfFuel ∧ (e = .undefined → OverflowsIn op body r) := by
  unfold parseBody at h
  split at h
  · cases h
  split at h
  · split at h
    · cases h
      exact ⟨nofun, nofun, nofun⟩
    · cases h
  iterate 3
    split at h
    · repeat' split at h
      all_goals cases h
      all_goals exact ⟨nofun, nofun, nofun⟩
  · split at h
    · cases h
      exact ⟨nofun, nofun, nofun⟩
    · rename_i i hread
      obtain ⟨hbounds, hfuel, hover⟩ := placeInst_error h
      exact ⟨hbounds, hfuel, fun he => ⟨i, hread, hover he⟩⟩

theorem parseBody_eq_undefined :
    parseBody op body r = .error .undefined ↔ OverflowsIn op body r := by
  constructor
  · exact fun h => (parseBody_error h).2.2 rfl
  · rintro ⟨i, hread, hfn, hover⟩
    have hop : op = opSpecConstantOp := (readInst_op hread).symm.trans hover.1
    subst hop
    have hplace := placeInst_overflows hfn hover
    unfold parseBody
    rw [if_neg (by decide), if_neg (by decide), if_neg (by decide), if_neg (by decide),
      if_neg (by decide), hread]
    exact hplace

/-! ## The loop -/

/-- The number of words of the instruction at `pos` that starts with `head`, when it lies inside
the words. -/
def InstructionAt (words : List UInt32) (pos : Nat) (head : UInt32) : Prop :=
  words[pos]? = some head ∧ (head >>> wordCountShift).toNat ≠ 0 ∧
    pos + (head >>> wordCountShift).toNat ≤ words.length

/-- One round of the loop of `parse_binary`, from a position and a state of the reader. -/
def Round (words : List UInt32) (p q : Nat × Reader) : Prop :=
  ∃ head, InstructionAt words p.1 head ∧ q.1 = p.1 + (head >>> wordCountShift).toNat ∧
    parseInst words (head &&& opCodeMask) p.1 (head >>> wordCountShift).toNat p.2 = .ok q.2

/-- The next instruction is a constant of the globals whose operation overflows. -/
def OverflowsAt (words : List UInt32) (p : Nat × Reader) : Prop :=
  ∃ head i, InstructionAt words p.1 head ∧
    instAt words (head &&& opCodeMask) p.1 (head >>> wordCountShift).toNat = .ok i ∧
      p.2.inFunction = false ∧ i.Overflows p.2.consts

theorem toNat_opCode_lt (head : UInt32) : (head &&& opCodeMask).toNat < 65536 := by
  rw [UInt32.toNat_and]
  exact Nat.lt_of_le_of_lt Nat.and_le_right (by decide)

theorem toNat_wordCount_lt (head : UInt32) : (head >>> wordCountShift).toNat < 65536 := by
  have hlt := head.toNat_lt
  rw [UInt32.toNat_shiftRight, show wordCountShift.toNat % 32 = 16 from rfl,
    Nat.shiftRight_eq_div_pow]
  omega

theorem InstructionAt.parseInst (h : InstructionAt words pos head) (r : Reader) :
    ∃ body, body.length + 1 < 65536 ∧
      Spirv.parseInst words (head &&& opCodeMask) pos (head >>> wordCountShift).toNat r =
        parseBody (head &&& opCodeMask) body r ∧
      instAt words (head &&& opCodeMask) pos (head >>> wordCountShift).toNat =
        match readInst (head &&& opCodeMask) body with
        | none => .error (.tooSmall (head &&& opCodeMask))
        | some i => .ok i := by
  obtain ⟨-, hwc, hend⟩ := h
  have hlt := toNat_wordCount_lt head
  refine ⟨_, ?_, parseInst_eq r hwc hend, instAt_eq hwc hend⟩
  simp only [length_take, length_drop]
  omega

theorem parseLoop_done (h : words.length ≤ pos) : parseLoop words n pos r = .ok r := by
  cases n with
  | zero => exact if_neg (by omega)
  | succ n => exact if_neg (by omega)

theorem parseLoop_instruction (h : InstructionAt words pos head) : parseLoop words (n + 1) pos r =
      match parseInst words (head &&& opCodeMask) pos (head >>> wordCountShift).toNat r with
      | .error e => .error e
      | .ok r => parseLoop words n (pos + (head >>> wordCountShift).toNat) r := by
  obtain ⟨hhead, hwc, hend⟩ := h
  have hword : word words pos = .ok head := by simp [word, hhead]
  rw [parseLoop, if_pos (by omega), hword]
  simp only
  rw [if_neg hwc, if_neg (by omega)] <;> rfl

theorem parseLoop_malformed (hlt : pos < words.length) (h : ∀ head, ¬InstructionAt words pos head) :
    parseLoop words (n + 1) pos r = .error (.zeroWordCount pos) ∨
      parseLoop words (n + 1) pos r = .error (.truncated pos) := by
  have hword : word words pos = .ok words[pos] := by simp [word, hlt]
  rw [parseLoop, if_pos hlt, hword]
  simp only
  by_cases hwc : (words[pos] >>> wordCountShift).toNat = 0
  · exact .inl (if_pos hwc)
  · refine .inr ?_
    rw [if_neg hwc, if_pos]
    by_contra hend
    exact h words[pos] ⟨by simp [hlt], hwc, by omega⟩

theorem parseLoop_inv (hr : r.Inv) (h : parseLoop words n pos r = .ok s) : s.Inv := by
  induction n generalizing pos r with
  | zero =>
    rw [parseLoop] at h
    split at h
    · cases h
    · cases h
      exact hr
  | succ n ih =>
    by_cases hlt : pos < words.length
    · by_cases hinst : ∃ head, InstructionAt words pos head
      · obtain ⟨head, hhead⟩ := hinst
        obtain ⟨body, hbody, hparse, -⟩ := hhead.parseInst r
        rw [parseLoop_instruction hhead, hparse] at h
        cases hstep : parseBody (head &&& opCodeMask) body r with
        | error e => simp [hstep] at h
        | ok t =>
          rw [hstep] at h
          exact ih (parseBody_inv hr (toNat_opCode_lt head) hbody hstep) h
      · rcases parseLoop_malformed hlt (not_exists.mp hinst) (n := n) (r := r) with hm | hm
        · rw [hm] at h
          cases h
        · rw [hm] at h
          cases h
    · rw [parseLoop_done (by omega)] at h
      cases h
      exact hr

theorem InstructionAt.unique {head' : UInt32} (h : InstructionAt words pos head)
    (h' : InstructionAt words pos head') : head' = head :=
  Option.some.inj (h'.1.symm.trans h.1)

theorem overflowsAt_iff (h : InstructionAt words pos head) : OverflowsAt words (pos, r) ↔
      parseInst words (head &&& opCodeMask) pos (head >>> wordCountShift).toNat r =
        .error .undefined := by
  obtain ⟨body, -, hparse, hinst⟩ := h.parseInst r
  rw [hparse, parseBody_eq_undefined]
  constructor
  · rintro ⟨head', i, h', hi, hfn, hov⟩
    obtain rfl := h.unique h'
    rw [hinst] at hi
    cases hread : readInst (head' &&& opCodeMask) body with
    | none => simp [hread] at hi
    | some j =>
      rw [hread] at hi
      cases hi
      exact ⟨i, hread, hfn, hov⟩
  · rintro ⟨i, hread, hfn, hov⟩
    rw [hread] at hinst
    exact ⟨head, i, h, hinst, hfn, hov⟩

/-- Some rounds lead to an operation without a defined result. -/
def LeadsToOverflow (words : List UInt32) (p : Nat × Reader) : Prop :=
  ∃ q, Relation.ReflTransGen (Round words) p q ∧ OverflowsAt words q

theorem not_leadsToOverflow (h : ∀ head, ¬InstructionAt words pos head) :
    ¬LeadsToOverflow words (pos, r) := by
  rintro ⟨p, hrounds, hover⟩
  rcases Relation.ReflTransGen.cases_head hrounds with heq | ⟨q, hround, -⟩
  · obtain ⟨head, -, hinst, -⟩ := hover
    rw [← heq] at hinst
    exact h head hinst
  · obtain ⟨head, hinst, -⟩ := hround
    exact h head hinst

theorem leadsToOverflow_iff (h : InstructionAt words pos head) : LeadsToOverflow words (pos, r) ↔
      match parseInst words (head &&& opCodeMask) pos (head >>> wordCountShift).toNat r with
      | .error e => e = .undefined
      | .ok s => LeadsToOverflow words (pos + (head >>> wordCountShift).toNat, s) := by
  have hhead : LeadsToOverflow words (pos, r) ↔ OverflowsAt words (pos, r) ∨
      ∃ s, parseInst words (head &&& opCodeMask) pos (head >>> wordCountShift).toNat r = .ok s ∧
        LeadsToOverflow words (pos + (head >>> wordCountShift).toNat, s) := by
    constructor
    · rintro ⟨p, hrounds, hover⟩
      rcases Relation.ReflTransGen.cases_head hrounds with rfl | ⟨⟨next, s⟩, hround, hrest⟩
      · exact .inl hover
      · obtain ⟨head', h', hnext, hs⟩ := hround
        obtain rfl := h.unique h'
        obtain rfl := hnext
        exact .inr ⟨s, hs, p, hrest, hover⟩
    · rintro (hover | ⟨s, hs, p, hrest, hover⟩)
      · exact ⟨(pos, r), .refl, hover⟩
      · exact ⟨p, .head ⟨head, h, rfl, hs⟩ hrest, hover⟩
  rw [hhead, overflowsAt_iff h]
  cases parseInst words (head &&& opCodeMask) pos (head >>> wordCountShift).toNat r with
  | error e => simp
  | ok s => simp

/-- The loop ends, reads inside the words, and stops for an operation without a defined result
exactly where its rounds lead to one. -/
theorem parseLoop_error (hn : words.length ≤ pos + n) :
    parseLoop words n pos r ≠ .error .outOfBounds ∧ parseLoop words n pos r ≠ .error .outOfFuel ∧
      (parseLoop words n pos r = .error .undefined ↔ LeadsToOverflow words (pos, r)) := by
  induction n generalizing pos r with
  | zero =>
    have hhead : ∀ head, ¬InstructionAt words pos head := by
      rintro head ⟨-, hwc, hend⟩
      omega
    rw [parseLoop_done (by omega)]
    exact ⟨nofun, nofun, iff_of_false nofun (not_leadsToOverflow hhead)⟩
  | succ n ih =>
    by_cases hinst : ∃ head, InstructionAt words pos head
    · obtain ⟨head, hhead⟩ := hinst
      obtain ⟨body, -, hparse, -⟩ := hhead.parseInst r
      have hwc := hhead.2.1
      rw [leadsToOverflow_iff hhead, parseLoop_instruction hhead, hparse]
      cases hstep : parseBody (head &&& opCodeMask) body r with
      | error e =>
        obtain ⟨hbounds, hfuel, -⟩ := parseBody_error hstep
        exact ⟨by simpa using hbounds, by simpa using hfuel, by simp⟩
      | ok s => exact ih (by omega)
    · have hnone := not_leadsToOverflow (r := r) (not_exists.mp hinst)
      by_cases hlt : pos < words.length
      · rcases parseLoop_malformed hlt (not_exists.mp hinst) (n := n) (r := r) with hm | hm
        · rw [hm]
          exact ⟨nofun, nofun, iff_of_false nofun hnone⟩
        · rw [hm]
          exact ⟨nofun, nofun, iff_of_false nofun hnone⟩
      · rw [parseLoop_done (by omega)]
        exact ⟨nofun, nofun, iff_of_false nofun hnone⟩

/-! ## Any words -/

/-- The reader is led to a signed operation without a defined result: the header is one that
it accepts, and its rounds reach such a constant. -/
def Overflows (words : List UInt32) : Prop :=
  ∃ version generator bound rest,
    words = magicNumber :: version :: generator :: bound :: 0 :: rest ∧
      supportedVersion version = true ∧ bound ≠ 0 ∧
        LeadsToOverflow words (5, .start version bound)

theorem parseBinary_cases (words : List UInt32) : (∃ version generator bound rest,
      words = magicNumber :: version :: generator :: bound :: 0 :: rest ∧
        supportedVersion version = true ∧ bound ≠ 0 ∧ parseBinary words =
            match parseLoop words words.length 5 (.start version bound) with
            | .error e => .error e
            | .ok r => if r.inFunction then .error .unterminated else .ok r.module) ∨
    ((∃ e ∈ [ParseError.tooShort, .badMagic, .badVersion, .zeroBound, .badSchema],
      parseBinary words = .error e) ∧ ¬Overflows words) := by
  have hbad : ∀ {magic version generator bound schema : UInt32} {rest : List UInt32},
      words = magic :: version :: generator :: bound :: schema :: rest →
      ¬(magic = magicNumber ∧ supportedVersion version = true ∧ bound ≠ 0 ∧ schema = 0) →
      ¬Overflows words := by
    rintro magic version generator bound schema rest rfl hnot ⟨v, g, b, rest', heq, hv, hb, -⟩
    cases heq
    exact hnot ⟨rfl, hv, hb, rfl⟩
  unfold parseBinary
  split
  · rename_i magic version generator bound schema rest
    by_cases hmagic : magic = magicNumber
    · by_cases hversion : supportedVersion version = true
      · by_cases hbound : bound = 0
        · refine .inr ⟨⟨.zeroBound, by simp, ?_⟩, hbad rfl fun h => h.2.2.1 hbound⟩
          rw [if_neg (by simp [hmagic]), if_neg (by simp [hversion]), if_pos hbound]
        · by_cases hschema : schema = 0
          · subst hmagic
            subst hschema
            refine .inl ⟨version, generator, bound, rest, rfl, hversion, hbound, ?_⟩
            rw [if_neg (by simp), if_neg (by simp [hversion]), if_neg hbound, if_neg (by simp)] <;> rfl
          · refine .inr ⟨⟨.badSchema, by simp, ?_⟩, hbad rfl fun h => hschema h.2.2.2⟩
            rw [if_neg (by simp [hmagic]), if_neg (by simp [hversion]), if_neg hbound,
              if_pos hschema]
      · refine .inr ⟨⟨.badVersion, by simp, ?_⟩, hbad rfl fun h => hversion h.2.1⟩
        rw [if_neg (by simp [hmagic]), if_pos (by simpa using hversion)]
    · refine .inr ⟨⟨.badMagic, by simp, ?_⟩, hbad rfl fun h => hmagic h.1⟩
      rw [if_pos hmagic]
  · rename_i hshort
    refine .inr ⟨⟨.tooShort, by simp, rfl⟩, ?_⟩
    rintro ⟨version, generator, bound, rest, heq, -⟩
    exact hshort _ _ _ _ _ _ heq

theorem parseBinary_inside (words : List UInt32) :
    parseBinary words ≠ .error .outOfBounds ∧ parseBinary words ≠ .error .outOfFuel ∧
      (parseBinary words = .error .undefined ↔ Overflows words) := by
  rcases parseBinary_cases words with
    ⟨version, generator, bound, rest, heq, hversion, hbound, hparse⟩ | ⟨⟨e, he, hparse⟩, hnot⟩
  · obtain ⟨hbounds, hfuel, hundef⟩ :=
      parseLoop_error (r := .start version bound) (Nat.le_add_left words.length 5)
    have hover : Overflows words ↔ LeadsToOverflow words (5, .start version bound) := by
      constructor
      · rintro ⟨v, g, b, rest', heq', -, -, hlead⟩
        rw [heq] at heq'
        cases heq'
        exact hlead
      · exact fun hlead => ⟨version, generator, bound, rest, heq, hversion, hbound, hlead⟩
    rw [hparse, hover, ← hundef]
    cases hloop : parseLoop words words.length 5 (.start version bound) with
    | error e =>
      rw [hloop] at hbounds hfuel
      exact ⟨by simpa using hbounds, by simpa using hfuel, by simp⟩
    | ok r =>
      cases hfn : r.inFunction with
      | true => simp [hfn]
      | false => simp [hfn]
  · rw [hparse]
    simp only [mem_cons, not_mem_nil, or_false] at he
    refine ⟨?_, ?_, iff_of_false ?_ hnot⟩
    all_goals
      rcases he with rfl | rfl | rfl | rfl | rfl <;> nofun

theorem parseBinary_inv {m : Module} (h : parseBinary words = .ok m) :
    ∃ r : Reader, r.Inv ∧ r.module = m := by
  rcases parseBinary_cases words with
    ⟨version, generator, bound, rest, -, hversion, hbound, hparse⟩ | ⟨⟨e, -, hparse⟩, -⟩
  · rw [hparse] at h
    cases hloop : parseLoop words words.length 5 (.start version bound) with
    | error e => simp [hloop] at h
    | ok r =>
      rw [hloop] at h
      cases hfn : r.inFunction with
      | true => simp [hfn] at h
      | false =>
        simp only [hfn, Bool.false_eq_true, if_false, Except.ok.injEq] at h
        exact ⟨r, parseLoop_inv (inv_start hversion hbound) hloop, h⟩
  · rw [hparse] at h
    cases h

theorem Function.Accepted.placed {f : Function} (h : f.Accepted) : f.Placed :=
  ⟨fun i hi => (h.1 i hi).1, fun b hb i hi => (h.2 b hb i hi).1⟩

theorem fits_chunk (hop : op.toNat < 65536) (hbody : body.length + 1 < 65536) :
    Chunk.Fits (op, body) := ⟨hop, hbody⟩

theorem Function.Accepted.size {f : Function} (h : f.Accepted) :
    ∀ c ∈ functionChunks f, c.Fits := by
  intro c hc
  simp only [functionChunks, blockChunks, mem_cons, mem_append, mem_map,
    mem_flatMap, not_mem_nil, or_false] at hc
  rcases hc with rfl | ⟨i, hi, rfl⟩ | ⟨b, hb, rfl | ⟨i, hi, rfl⟩⟩ | rfl
  · refine fits_chunk (show opFunction.toNat < 65536 by decide) ?_
    rw [length_body]
    have hops : f.head.operands.length = 2 := rfl
    split_ifs <;> omega
  · exact (h.1 i hi).2.size
  · refine fits_chunk (by decide) ?_
    rw [length_optionalWord]
    split_ifs <;> omega
  · exact (h.2 b hb i hi).2.size
  · exact fits_chunk (by decide) (by simp)

theorem Reader.Inv.size (h : r.Inv) : ∀ c ∈ stream r.module, c.Fits := by
  intro c hc
  simp only [stream, mem_append, mem_map, mem_flatMap, mem_singleton] at hc
  rcases hc with ⟨c, -, rfl⟩ | ⟨e, he, rfl⟩ | ⟨imp, himp, rfl⟩ | rfl | ⟨ep, hep, rfl⟩ | ⟨i, hi, rfl⟩ |
    ⟨n, hn, rfl⟩ | ⟨i, hi, rfl⟩ | ⟨i, hi, rfl⟩ | ⟨f, hf, hc⟩
  · exact fits_chunk (by decide) (by simp)
  · exact fits_chunk (by decide) (h.extension e he).2
  · exact fits_chunk (by decide) (h.extImport imp himp).2
  · exact fits_chunk (by decide) (by simp)
  · refine fits_chunk (by decide) ?_
    have hsize := (h.entryPoint ep hep).2
    simp only [length_cons, length_append]
    omega
  · exact (h.mode i hi).2.size
  · exact fits_chunk (by decide) (h.name n hn).2
  · exact (h.annotation i hi).2.size
  · exact (h.global i hi).2.size
  · exact (h.function f hf).size c hc

theorem Reader.Inv.placed (h : r.Inv) : r.module.Placed where
  capabilities := h.capabilities
  extensions := h.extensions
  extensionBytes := fun e he => (h.extension e he).1
  importBytes := fun imp himp => (h.extImport imp himp).1
  entryBytes := fun ep hep => (h.entryPoint ep hep).1
  nameBytes := fun n hn => (h.name n hn).1
  executionModes := fun i hi => (h.mode i hi).1
  annotations := fun i hi => (h.annotation i hi).1
  globals := fun i hi => (h.global i hi).1
  functions := fun f hf => (h.function f hf).placed
  size := h.size

theorem Reader.Inv.accepted (h : r.Inv) : ∀ i ∈ r.module.insts, i.Accepted := by
  intro i hi
  rcases mem_insts.mp hi with hi | ⟨f, hf, hi | ⟨b, hb, hi⟩⟩
  · rcases mem_append.mp hi with hi | hi
    · rcases mem_append.mp hi with hi | hi
      · exact (h.mode i hi).2
      · exact (h.annotation i hi).2
    · exact (h.global i hi).2
  · exact ((h.function f hf).1 i hi).2
  · exact ((h.function f hf).2 b hb i hi).2

/-- The ids of a module that are written where the opcode has them. -/
structure Module.HasIds (m : Module) : Prop where
  insts : ∀ i ∈ m.insts, i.HasIds
  heads : ∀ f ∈ m.functions, f.HeadRereads
  labels : ∀ f ∈ m.functions, ∀ b ∈ f.blocks, b.label ≠ 0

/-- The round trip of a module that was accepted. -/
theorem parseBinary_accepted {m : Module} (h : parseBinary words = .ok m) :
    parseBinary (write m) = .ok m ↔ m.HasIds := by
  obtain ⟨r, hr, rfl⟩ := parseBinary_inv h
  have hacc := hr.accepted
  have hconsts : NoOverflow r.module.globals :=
    constsAfter_isSome_iff.mp (by rw [hr.consts]; rfl)
  rw [parseBinary_write_iff hr.placed, rereads_iff fun i hi => (hacc i hi).extra]
  constructor
  · rintro ⟨-, -, hinsts, -, hfunctions⟩
    exact ⟨fun i hi => (hinsts i hi).2.1, fun f hf => (hfunctions f hf).1,
      fun f hf => (hfunctions f hf).2⟩
  · rintro ⟨hinsts, hheads, hlabels⟩
    exact ⟨hr.version, hr.bound,
      fun i hi => ⟨(hacc i hi).read, hinsts i hi, (hacc i hi).tagged⟩, hconsts,
      fun f hf => ⟨hheads f hf, hlabels f hf⟩⟩

/-! ## The round trip -/

/-- A module that was built, words of any kind, and a module that was accepted. -/
theorem parseBinary_roundTrip (m accepted : Module) (words : List UInt32) :
    (m.Built → (parseBinary (write m) = .ok m ↔ m.Readable)) ∧
    (parseBinary words ≠ .error .outOfBounds ∧ parseBinary words ≠ .error .outOfFuel ∧
      (parseBinary words = .error .undefined ↔ Overflows words)) ∧
    (parseBinary words = .ok accepted →
      (parseBinary (write accepted) = .ok accepted ↔ accepted.HasIds)) :=
  ⟨fun hm => hm.parseBinary_write, parseBinary_inside words, fun h => parseBinary_accepted h⟩

/-- A shader that branches on a 64-bit constant. -/
def switchModule (switch : Inst) : Module :=
  { Module.ofBinary 0x00010500 10 with
    capabilities := [1, 11]
    entryPoints := [⟨5, 6, [0x6D, 0x61, 0x69, 0x6E], []⟩]
    executionModes := [⟨opExecutionMode, 0, 0, [ref 6, lit 17, lit 1, lit 1, lit 1]⟩]
    globals := [⟨opTypeVoid, 0, 2, []⟩, ⟨opTypeFunction, 0, 3, [ref 2]⟩,
      ⟨opTypeInt, 0, 4, [lit 64, lit 0]⟩, ⟨opConstant, 4, 5, [lit 1, lit 0]⟩]
    functions := [⟨6, 2, 3, 0, [],
      [⟨7, [⟨opSelectionMerge, 0, 0, [ref 8, lit 0]⟩, switch]⟩, ⟨8, [⟨253, 0, 0, []⟩]⟩]⟩] }

theorem built_switchModule {cases : List (UInt32 × UInt32 × UInt32)}
    (h : ∀ c ∈ stream (switchModule (longSwitch 5 8 cases)), c.Fits) :
    (switchModule (longSwitch 5 8 cases)).Built where
  capabilities := by simp [switchModule]
  extensions := nodup_nil
  extensionBytes := by simp [switchModule, ofBinary]
  importBytes := by simp [switchModule, ofBinary]
  entryBytes := by simp [switchModule]
  nameBytes := by simp [switchModule, ofBinary]
  executionModes := by simp [switchModule, modeOpcodes]
  annotations := by simp [switchModule, ofBinary]
  globals := by
    simp [switchModule]
    decide
  functions := by
    simp [switchModule, Function.Placed, Block.Placed, longSwitch]
    decide
  size := h
  version := by simp [switchModule, ofBinary]
  bound := by simp [switchModule, ofBinary]
  ids := by
    simp [switchModule, ofBinary, insts, longSwitch, Inst.HasIds, Inst.NoExtraIds]
    decide
  functionIds := by simp [switchModule]
  labels := by simp [switchModule]

theorem parseBinary_roundTrip_oneCase :
    parseBinary (write (switchModule (longSwitch 5 8 [(7, 0, 8)]))) =
        .ok (switchModule (longSwitch 5 8 [(7, 0, 8)])) ∧
      (switchModule (longSwitch 5 8 [(7, 0, 8)])).HasIds := by
  have hbuilt : (switchModule (longSwitch 5 8 [(7, 0, 8)])).Built := built_switchModule (by decide)
  have htagged : ∀ i ∈ (switchModule (longSwitch 5 8 [(7, 0, 8)])).insts,
      classifyOperands i.op (values i.operands) = i.operands := by decide
  have hread : (switchModule (longSwitch 5 8 [(7, 0, 8)])).Readable :=
    ⟨rfl, by decide, fun i hi => (classifyOperands_eq_iff i).mp (htagged i hi),
      constsAfter_isSome_iff.mp rfl⟩
  have hcase := parseBinary_roundTrip (switchModule (longSwitch 5 8 [(7, 0, 8)]))
    (switchModule (longSwitch 5 8 [(7, 0, 8)])) (write (switchModule (longSwitch 5 8 [(7, 0, 8)])))
  have hparse := (hcase.1 hbuilt).mpr hread
  exact ⟨hparse, (hcase.2.2 hparse).mp hparse⟩

/-- With two cases the six words after the default are read as three cases of two words. -/
theorem parseBinary_roundTrip_twoCases :
    (switchModule (longSwitch 5 8 [(7, 0, 8), (9, 0, 8)])).Built ∧
      parseBinary (write (switchModule (longSwitch 5 8 [(7, 0, 8), (9, 0, 8)]))) =
        .ok (switchModule (narrowSwitch 5 8 [(7, 0), (8, 9), (0, 8)])) ∧
      switchModule (narrowSwitch 5 8 [(7, 0), (8, 9), (0, 8)]) ≠
        switchModule (longSwitch 5 8 [(7, 0, 8), (9, 0, 8)]) := by
  refine ⟨built_switchModule (by decide), ?_, by decide⟩
  have hplaced : (switchModule (longSwitch 5 8 [(7, 0, 8), (9, 0, 8)])).Placed :=
    (built_switchModule (by decide)).toPlaced
  rw [parseBinary_write hplaced]
  rfl

end Brass.Spirv
