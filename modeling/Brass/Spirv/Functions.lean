import Brass.Spirv.Sections
import Mathlib.Data.List.Forall2

/-!
# Reading functions

A function is written as its `OpFunction`, its parameters, its blocks and an `OpFunctionEnd`.
`Function.Reads` is what the reader makes of these, `Function.Rereads` that it is the same
function.
-/

namespace Brass.Spirv

open List

/-! ## What a function is read back as -/

def Function.ofHead (i : Inst) : Function :=
  ⟨i.result, i.type, ((i.operands[1]?).map (·.value)).getD 0,
    ((i.operands[0]?).map (·.value)).getD 0, [], []⟩

def Block.Reads (b c : Block) : Prop :=
  b.label ≠ 0 ∧ ∃ is, rereads b.insts = some is ∧ c = ⟨b.label, is⟩

def Function.Reads (f g : Function) : Prop :=
  ∃ head params blocks, readInst opFunction f.head.body = some head ∧
    rereads f.params = some params ∧ List.Forall₂ Block.Reads f.blocks blocks ∧
      g = { Function.ofHead head with params := params, blocks := blocks }

/-- The `OpFunction` of a function is read back as it is. The id and the return type are not
written when they are 0; then the control and the type of the function are in their places. -/
def Function.HeadRereads (f : Function) : Prop :=
  (f.returnType ≠ 0 ∧ f.id ≠ 0) ∨ (f.id = 0 ∧ f.control = 0 ∧ f.fnType = 0)

def Block.Rereads (b : Block) : Prop := b.label ≠ 0 ∧ ∀ i ∈ b.insts, i.Rereads

def Function.Rereads (f : Function) : Prop :=
  f.HeadRereads ∧ (∀ i ∈ f.params, i.Rereads) ∧ ∀ b ∈ f.blocks, b.Rereads

theorem readInst_function (type id : UInt32) (ops : List UInt32) :
    readInst opFunction (type :: id :: ops) =
      some ⟨opFunction, type, id, classifyOperands opFunction ops⟩ := by
  have hwords : idWords opFunction = 2 := rfl
  unfold readInst
  rw [if_neg (by rw [hwords]; simp)]
  rfl

theorem ofHead_readInst (type id control fnType : UInt32) :
    Function.ofHead ⟨opFunction, type, id, classifyOperands opFunction [control, fnType]⟩ =
      ⟨id, type, fnType, control, [], []⟩ := rfl

theorem Function.exists_head (f : Function) :
    ∃ head, readInst opFunction f.head.body = some head ∧ head.op = opFunction ∧
      (Function.ofHead head = ⟨f.id, f.returnType, f.fnType, f.control, [], []⟩ ↔
        f.HeadRereads) := by
  have hbody : f.head.body =
      optionalWord f.returnType ++ optionalWord f.id ++ [f.control, f.fnType] := rfl
  rw [hbody]
  unfold Function.HeadRereads
  by_cases htype : f.returnType = 0
  · by_cases hid : f.id = 0
    · have h := readInst_function f.control f.fnType []
      refine ⟨_, by rw [optionalWord, optionalWord, if_pos htype, if_pos hid]; exact h, rfl, ?_⟩
      rw [show Function.ofHead ⟨opFunction, f.control, f.fnType, classifyOperands opFunction []⟩ =
        ⟨f.fnType, f.control, 0, 0, [], []⟩ from rfl]
      simp only [Function.mk.injEq, and_true, htype, hid]
      grind
    · have h := readInst_function f.id f.control [f.fnType]
      refine ⟨_, by rw [optionalWord, optionalWord, if_pos htype, if_neg hid]; exact h, rfl, ?_⟩
      rw [show Function.ofHead
          ⟨opFunction, f.id, f.control, classifyOperands opFunction [f.fnType]⟩ =
        ⟨f.control, f.id, 0, f.fnType, [], []⟩ from rfl]
      simp only [Function.mk.injEq, and_true, htype]
      grind
  · by_cases hid : f.id = 0
    · have h := readInst_function f.returnType f.control [f.fnType]
      refine ⟨_, by rw [optionalWord, optionalWord, if_neg htype, if_pos hid]; exact h, rfl, ?_⟩
      rw [show Function.ofHead
          ⟨opFunction, f.returnType, f.control, classifyOperands opFunction [f.fnType]⟩ =
        ⟨f.control, f.returnType, 0, f.fnType, [], []⟩ from rfl]
      simp only [Function.mk.injEq, and_true, hid]
      grind
    · have h := readInst_function f.returnType f.id [f.control, f.fnType]
      refine ⟨_, by rw [optionalWord, optionalWord, if_neg htype, if_neg hid]; exact h, rfl, ?_⟩
      rw [ofHead_readInst]
      simp [htype, hid]

theorem Block.reads_self_iff {b : Block} : b.Reads b ↔ b.Rereads := by
  unfold Block.Reads Block.Rereads
  constructor
  · rintro ⟨hlabel, is, his, heq⟩
    have hinsts : b.insts = is := congrArg Block.insts heq
    rw [← hinsts] at his
    exact ⟨hlabel, rereads_eq_self_iff.mp his⟩
  · rintro ⟨hlabel, his⟩
    exact ⟨hlabel, b.insts, rereads_eq_self_iff.mpr his, rfl⟩

theorem Function.reads_self_iff {f : Function} : f.Reads f ↔ f.Rereads := by
  obtain ⟨head, hhead, -, hiff⟩ := f.exists_head
  constructor
  · rintro ⟨head', params, blocks, hhead', hparams, hblocks, heq⟩
    obtain rfl : head = head' := Option.some.inj (hhead.symm.trans hhead')
    obtain rfl : f.params = params := congrArg Function.params heq
    obtain rfl : f.blocks = blocks := congrArg Function.blocks heq
    refine ⟨hiff.mp ?_, rereads_eq_self_iff.mp hparams, fun b hb => ?_⟩
    · rw [Function.mk.injEq]
      exact ⟨(congrArg Function.id heq).symm, (congrArg Function.returnType heq).symm,
        (congrArg Function.fnType heq).symm, (congrArg Function.control heq).symm, rfl, rfl⟩
    · exact Block.reads_self_iff.mp (forall₂_same.mp hblocks b hb)
  · rintro ⟨hhead', hparams, hblocks⟩
    refine ⟨head, f.params, f.blocks, hhead, rereads_eq_self_iff.mpr hparams,
      forall₂_same.mpr fun b hb => Block.reads_self_iff.mpr (hblocks b hb), ?_⟩
    rw [hiff.mpr hhead']

/-! ## The reader inside a function -/

def Reader.inFn (r : Reader) (g : Function) (inBlock : Bool) : Reader :=
  { r with
    module := { r.module with functions := r.module.functions ++ [g] }
    inFunction := true
    inBlock := inBlock }

/-- The reader after functions. -/
def Reader.addFunctions (r : Reader) (gs : List Function) : Reader :=
  { r with
    module := { r.module with functions := r.module.functions ++ gs }
    inFunction := false
    inBlock := false }

theorem updateLast_append {α : Type} (f : α → α) (l : List α) (a : α) :
    updateLast f (l ++ [a]) = l ++ [f a] := by
  induction l with
  | nil => rfl
  | cons b l ih =>
    cases l with
    | nil => rfl
    | cons c l =>
      show b :: updateLast f (c :: l ++ [a]) = _
      rw [ih]
      rfl

theorem updateFunction_inFn (r : Reader) (g : Function) (inBlock : Bool) (f : Function → Function) :
    { r.inFn g inBlock with module := (r.inFn g inBlock).module.updateFunction f } =
      r.inFn (f g) inBlock := by
  simp [Reader.inFn, Module.updateFunction, updateLast_append]

theorem placeInst_function {i : Inst} (hi : i.op = opFunction) (r : Reader) :
    placeInst r i = .ok (r.inFn (Function.ofHead i) false) := by
  obtain ⟨op, type, result, operands⟩ := i
  cases hi
  rfl

theorem parseBody_functionEnd (r : Reader) (g : Function) (inBlock : Bool) :
    parseBody opFunctionEnd [] (r.inFn g inBlock) = .ok (r.addFunctions [g]) := rfl

theorem parseBody_label (label : UInt32) (r : Reader) (g : Function) (inBlock : Bool) :
    parseBody opLabel (optionalWord label) (r.inFn g inBlock) =
      if label = 0 then .error (.tooSmall opLabel)
      else .ok (r.inFn { g with blocks := g.blocks ++ [⟨label, []⟩] } true) := by
  unfold optionalWord
  by_cases h : label = 0
  · rw [if_pos h, if_pos h]
    rfl
  · rw [if_neg h, if_neg h]
    exact congrArg Except.ok
      (updateFunction_inFn r g true fun f => { f with blocks := f.blocks ++ [⟨label, []⟩] })

theorem placeAll_params {js : List Inst} (h : ∀ j ∈ js, j.op = opFunctionParameter) (r : Reader)
    (g : Function) (inBlock : Bool) :
    placeAll js (r.inFn g inBlock) = .ok (r.inFn { g with params := g.params ++ js } inBlock) := by
  induction js generalizing g with
  | nil => simp [placeAll]
  | cons j js ih =>
    have hfirst := placeInst_parameter (r := r.inFn g inBlock) (h j mem_cons_self) rfl
    rw [updateFunction_inFn] at hfirst
    rw [placeAll, hfirst]
    show placeAll js (r.inFn { g with params := g.params ++ [j] } inBlock) = _
    rw [ih (fun k hk => h k (mem_cons_of_mem j hk)), append_assoc]
    rfl

theorem placeAll_insts {js : List Inst} (h : ∀ j ∈ js, j.op ∉ sectionOpcodes) (r : Reader)
    (g : Function) (l : List Block) (b : Block) :
    placeAll js (r.inFn { g with blocks := l ++ [b] } true) =
      .ok (r.inFn { g with blocks := l ++ [{ b with insts := b.insts ++ js }] } true) := by
  induction js generalizing b with
  | nil => simp [placeAll]
  | cons j js ih =>
    have hfirst := placeInst_inBlock (r := r.inFn { g with blocks := l ++ [b] } true)
      (h j mem_cons_self) rfl rfl
    rw [updateFunction_inFn, updateLast_append] at hfirst
    rw [placeAll, hfirst]
    show placeAll js
      (r.inFn { g with blocks := l ++ [{ b with insts := b.insts ++ [j] }] } true) = _
    rw [ih (fun k hk => h k (mem_cons_of_mem j hk)), append_assoc]
    rfl

/-! ## Blocks and functions -/

def Block.Placed (b : Block) : Prop :=
  ∀ i ∈ b.insts, i.op ∉ sectionOpcodes ∧ i.op ∉ stringOpcodes

/-- The parameters of a function are parameters, and its blocks have their instructions. -/
def Function.Placed (f : Function) : Prop :=
  (∀ i ∈ f.params, i.op = opFunctionParameter) ∧ ∀ b ∈ f.blocks, b.Placed

theorem parseAll_block {b : Block} (hb : b.Placed) (r t : Reader) (g : Function) (inBlock : Bool) :
    parseAll (blockChunks b) (r.inFn g inBlock) = .ok t ↔
      ∃ c, b.Reads c ∧ t = r.inFn { g with blocks := g.blocks ++ [c] } true := by
  rw [blockChunks, parseAll, parseBody_label]
  unfold Block.Reads
  by_cases hlabel : b.label = 0
  · simp [hlabel]
  rw [if_neg hlabel]
  show parseAll (b.insts.map Inst.chunk)
    (r.inFn { g with blocks := g.blocks ++ [⟨b.label, []⟩] } true) = .ok t ↔ _
  rw [parseAll_section fun i hi => (hb i hi).2]
  have hplace : ∀ js, rereads b.insts = some js →
      placeAll js (r.inFn { g with blocks := g.blocks ++ [⟨b.label, []⟩] } true) =
        .ok (r.inFn { g with blocks := g.blocks ++ [⟨b.label, js⟩] } true) := by
    intro js hjs
    refine placeAll_insts (fun j hj => ?_) r g g.blocks ⟨b.label, []⟩
    obtain ⟨i, hi, hop⟩ := rereads_op hjs j hj
    rw [hop]
    exact (hb i hi).1
  constructor
  · rintro ⟨js, hjs, ht⟩
    rw [hplace js hjs] at ht
    exact ⟨⟨b.label, js⟩, ⟨hlabel, js, hjs, rfl⟩, (Except.ok.inj ht).symm⟩
  · rintro ⟨c, ⟨-, js, hjs, rfl⟩, rfl⟩
    exact ⟨js, hjs, hplace js hjs⟩

theorem parseAll_blocks {bs : List Block} (hbs : ∀ b ∈ bs, b.Placed) (r t : Reader)
    (g : Function) (inBlock : Bool) :
    parseAll (bs.flatMap blockChunks) (r.inFn g inBlock) = .ok t ↔
      ∃ cs, List.Forall₂ Block.Reads bs cs ∧
        t = r.inFn { g with blocks := g.blocks ++ cs } (inBlock || !bs.isEmpty) := by
  induction bs generalizing g inBlock with
  | nil => simp [parseAll, eq_comm]
  | cons b bs ih =>
    rw [flatMap_cons, parseAll_append_ok]
    constructor
    · rintro ⟨s, hs, ht⟩
      obtain ⟨c, hc, rfl⟩ := (parseAll_block (hbs b mem_cons_self) r s g inBlock).mp hs
      obtain ⟨cs, hcs, rfl⟩ := (ih (fun d hd => hbs d (mem_cons_of_mem b hd)) _ _).mp ht
      exact ⟨c :: cs, .cons hc hcs, by simp⟩
    · rintro ⟨cs, hcs, rfl⟩
      cases hcs with
      | @cons _ c _ cs hc hcs =>
        refine ⟨_, (parseAll_block (hbs b mem_cons_self) r _ g inBlock).mpr ⟨c, hc, rfl⟩, ?_⟩
        refine (ih (fun d hd => hbs d (mem_cons_of_mem b hd)) _ _).mpr ⟨cs, hcs, ?_⟩
        simp

theorem parseAll_function {f : Function} (hf : f.Placed) (r t : Reader) :
    parseAll (functionChunks f) r = .ok t ↔ ∃ g, f.Reads g ∧ t = r.addFunctions [g] := by
  obtain ⟨head, hhead, hop, -⟩ := f.exists_head
  have hfirst : parseBody f.head.op f.head.body r = .ok (r.inFn (Function.ofHead head) false) := by
    rw [parseBody_chunk (by decide : opFunction ∉ stringOpcodes),
      show f.head.op = opFunction from rfl, if_neg (by decide), hhead]
    exact placeInst_function hop r
  rw [functionChunks, parseAll, Inst.chunk, hfirst]
  show parseAll (f.params.map Inst.chunk ++ (f.blocks.flatMap blockChunks ++ [(opFunctionEnd, [])]))
    (r.inFn (Function.ofHead head) false) = .ok t ↔ _
  have hparams : ∀ js, rereads f.params = some js →
      placeAll js (r.inFn (Function.ofHead head) false) =
        .ok (r.inFn { Function.ofHead head with params := js } false) := by
    intro js hjs
    refine placeAll_params (fun j hj => ?_) r (Function.ofHead head) false
    obtain ⟨i, hi, hop⟩ := rereads_op hjs j hj
    rw [hop]
    exact hf.1 i hi
  have hstring : ∀ i ∈ f.params, i.op ∉ stringOpcodes := by
    intro i hi
    rw [hf.1 i hi]
    decide
  rw [parseAll_append_ok]
  constructor
  · rintro ⟨s, hs, ht⟩
    obtain ⟨js, hjs, hplace⟩ := (parseAll_section hstring).mp hs
    rw [hparams js hjs] at hplace
    obtain rfl := Except.ok.inj hplace
    obtain ⟨u, hu, hend⟩ := parseAll_append_ok.mp ht
    obtain ⟨cs, hcs, rfl⟩ := (parseAll_blocks hf.2 r u _ false).mp hu
    refine ⟨_, ⟨head, js, cs, hhead, hjs, hcs, rfl⟩, ?_⟩
    rw [parseAll, parseBody_functionEnd] at hend
    exact (Except.ok.inj hend).symm
  · rintro ⟨g, ⟨head', js, cs, hhead', hjs, hcs, rfl⟩, rfl⟩
    obtain rfl : head = head' := Option.some.inj (hhead.symm.trans hhead')
    refine ⟨_, (parseAll_section hstring).mpr ⟨js, hjs, hparams js hjs⟩, ?_⟩
    refine parseAll_append_ok.mpr ⟨_, (parseAll_blocks hf.2 r _ _ false).mpr ⟨cs, hcs, rfl⟩, ?_⟩
    rw [parseAll, parseBody_functionEnd]
    rfl

theorem parseAll_functions {fs : List Function} (hfs : ∀ f ∈ fs, f.Placed) {r : Reader}
    (hfn : r.inFunction = false) (hblock : r.inBlock = false) (t : Reader) :
    parseAll (fs.flatMap functionChunks) r = .ok t ↔
      ∃ gs, List.Forall₂ Function.Reads fs gs ∧ t = r.addFunctions gs := by
  induction fs generalizing r with
  | nil =>
    have hself : r.addFunctions [] = r := by
      obtain ⟨m, inFunction, inBlock, consts⟩ := r
      cases hfn
      cases hblock
      simp [Reader.addFunctions]
    simp [parseAll, eq_comm, hself]
  | cons f fs ih =>
    rw [flatMap_cons, parseAll_append_ok]
    constructor
    · rintro ⟨s, hs, ht⟩
      obtain ⟨g, hg, rfl⟩ := (parseAll_function (hfs f mem_cons_self) r s).mp hs
      obtain ⟨gs, hgs, rfl⟩ := (ih (fun d hd => hfs d (mem_cons_of_mem f hd)) rfl rfl).mp ht
      exact ⟨g :: gs, .cons hg hgs, by simp [Reader.addFunctions]⟩
    · rintro ⟨gs, hgs, rfl⟩
      cases hgs with
      | @cons _ g _ gs hg hgs =>
        refine ⟨_, (parseAll_function (hfs f mem_cons_self) r _).mpr ⟨g, hg, rfl⟩, ?_⟩
        refine (ih (fun d hd => hfs d (mem_cons_of_mem f hd)) rfl rfl).mpr ⟨gs, hgs, ?_⟩
        simp [Reader.addFunctions]

end Brass.Spirv
