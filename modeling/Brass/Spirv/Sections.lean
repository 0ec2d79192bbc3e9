import Brass.Spirv.Reading
import Brass.Spirv.Operands

/-!
# Reading the sections of a module

What the reader makes of the output of `write`. A module is a sequence of instructions
(`stream`). Those of a section are read one after the other into the same section
(`parseAll_section`), each as `readInst` finds it and without the ones that are passed over
(`rereads`).
-/

namespace Brass.Spirv

open List

/-! ## The instructions of a module -/

variable {α : Type} {name : List UInt8} {is js : List Inst} {i : Inst} {r : Reader}

def Inst.chunk (i : Inst) : Chunk := (i.op, i.body)

def blockChunks (b : Block) : List Chunk :=
  (opLabel, optionalWord b.label) :: b.insts.map Inst.chunk

def functionChunks (f : Function) : List Chunk :=
  f.head.chunk :: (f.params.map Inst.chunk ++ (f.blocks.flatMap blockChunks ++ [(opFunctionEnd, [])]))

def stream (m : Module) : List Chunk :=
  m.capabilities.map (fun c => (opCapability, [c])) ++
    (m.extensions.map (fun e => (opExtension, stringWords e)) ++
    (m.extImports.map (fun imp => (opExtInstImport, imp.1 :: stringWords imp.2)) ++
    ([(opMemoryModel, [m.addressing, m.memoryModel])] ++
    (m.entryPoints.map (fun ep =>
      (opEntryPoint, ep.model :: ep.function :: (stringWords ep.name ++ ep.interfaceIds))) ++
    (m.executionModes.map Inst.chunk ++
    (m.names.map (fun n => (opName, n.1 :: stringWords n.2)) ++
    (m.annotations.map Inst.chunk ++
    (m.globals.map Inst.chunk ++ m.functions.flatMap functionChunks))))))))

theorem encodeAll_append (cs ds : List Chunk) :
    encodeAll (cs ++ ds) = encodeAll cs ++ encodeAll ds := flatMap_append

theorem encodeAll_map (f : α → Chunk) (l : List α) :
    encodeAll (l.map f) = l.flatMap fun a => encodeWords (f a).1 (f a).2 := by
  rw [encodeAll, flatMap_map]

theorem encodeAll_flatMap (f : α → List Chunk) (l : List α) :
    encodeAll (l.flatMap f) = l.flatMap fun a => encodeAll (f a) := flatMap_assoc

theorem encodeAll_insts (is : List Inst) : encodeAll (is.map Inst.chunk) = is.flatMap encode :=
  encodeAll_map Inst.chunk is

theorem encodeAll_blockChunks (b : Block) : encodeAll (blockChunks b) = encodeBlock b := by
  have hlabel : (⟨opLabel, 0, b.label, []⟩ : Inst).body = optionalWord b.label := by
    simp [Inst.body, optionalWord]
  unfold blockChunks encodeBlock
  rw [← encodeAll_insts, encode, hlabel]
  rfl

theorem encodeAll_functionChunks (f : Function) :
    encodeAll (functionChunks f) = encodeFunction f := by
  have hblocks : encodeAll (f.blocks.flatMap blockChunks) = f.blocks.flatMap encodeBlock := by
    rw [encodeAll_flatMap, funext encodeAll_blockChunks]
  unfold functionChunks encodeFunction
  rw [append_assoc, append_assoc, ← encodeAll_insts, ← hblocks]
  show encodeWords _ _ ++ encodeAll _ = _
  rw [encodeAll_append, encodeAll_append]
  rfl

theorem write_eq (m : Module) :
    write m = [magicNumber, m.version, 0, m.bound, 0] ++ encodeAll (stream m) := by
  have hfunctions : encodeAll (m.functions.flatMap functionChunks) =
      m.functions.flatMap encodeFunction := by
    rw [encodeAll_flatMap, funext encodeAll_functionChunks]
  have hcapabilities : encodeAll (m.capabilities.map fun c => (opCapability, [c])) =
      m.capabilities.flatMap fun c => encode ⟨opCapability, 0, 0, [lit c]⟩ := encodeAll_map _ _
  have hextensions : encodeAll (m.extensions.map fun e => (opExtension, stringWords e)) =
      m.extensions.flatMap fun e => encodeWithString opExtension [] e [] := by
    simp [encodeAll_map, encodeWithString]
  have himports : encodeAll
      (m.extImports.map fun imp => (opExtInstImport, imp.1 :: stringWords imp.2)) =
      m.extImports.flatMap fun imp => encodeWithString opExtInstImport [imp.1] imp.2 [] := by
    simp [encodeAll_map, encodeWithString]
  have hentries : encodeAll (m.entryPoints.map fun ep =>
      (opEntryPoint, ep.model :: ep.function :: (stringWords ep.name ++ ep.interfaceIds))) =
      m.entryPoints.flatMap fun ep =>
        encodeWithString opEntryPoint [ep.model, ep.function] ep.name ep.interfaceIds := by
    simp [encodeAll_map, encodeWithString]
  have hnames : encodeAll (m.names.map fun n => (opName, n.1 :: stringWords n.2)) =
      m.names.flatMap fun n => encodeWithString opName [n.1] n.2 [] := by
    simp [encodeAll_map, encodeWithString]
  have hmodel : encodeAll [(opMemoryModel, [m.addressing, m.memoryModel])] =
      encode ⟨opMemoryModel, 0, 0, [lit m.addressing, lit m.memoryModel]⟩ := rfl
  unfold write stream
  simp only [append_assoc, encodeAll_append, encodeAll_insts, hfunctions, hcapabilities,
    hextensions, himports, hentries, hnames, hmodel]

/-! ## Sections with instructions of their own -/

theorem parseAll_extend {α : Type} {chunk : α → Chunk} (add : Module → α → Module) {l : List α}
    (hstep : ∀ a ∈ l, ∀ r : Reader,
      parseBody (chunk a).1 (chunk a).2 r = .ok { r with module := add r.module a })
    (r : Reader) :
    parseAll (l.map chunk) r = .ok { r with module := l.foldl add r.module } := by
  induction l generalizing r with
  | nil => rfl
  | cons a l ih =>
    rw [map_cons, parseAll, hstep a mem_cons_self r]
    exact ih (fun b hb => hstep b (mem_cons_of_mem a hb)) _

theorem parseAll_put {α : Type} {chunk : α → Chunk} (put : Module → List α → Module)
    (hnil : ∀ m, put m [] = m) (hput : ∀ m l l', put (put m l) l' = put m (l ++ l')) {l : List α}
    (hstep : ∀ a ∈ l, ∀ r : Reader,
      parseBody (chunk a).1 (chunk a).2 r = .ok { r with module := put r.module [a] })
    (r : Reader) :
    parseAll (l.map chunk) r = .ok { r with module := put r.module l } := by
  have hfold : ∀ m, l.foldl (fun m a => put m [a]) m = put m l := by
    clear hstep
    induction l with
    | nil => exact fun m => (hnil m).symm
    | cons a l ih =>
      intro m
      rw [foldl_cons, ih, hput]
      rfl
  rw [parseAll_extend (fun m a => put m [a]) hstep, hfold]

theorem foldl_addCapability {l : List UInt32} {m : Module} (hl : (m.capabilities ++ l).Nodup) :
    l.foldl Module.addCapability m = { m with capabilities := m.capabilities ++ l } := by
  induction l generalizing m with
  | nil => simp
  | cons c l ih =>
    have hnew : c ∉ m.capabilities := by
      intro hmem
      exact (nodup_append.mp hl).2.2 c hmem c mem_cons_self rfl
    have hadd : m.addCapability c = { m with capabilities := m.capabilities ++ [c] } :=
      if_neg hnew
    rw [foldl_cons, hadd, ih (by simpa using hl)]
    simp

theorem foldl_addExtension {l : List (List UInt8)} {m : Module} (hl : (m.extensions ++ l).Nodup) :
    l.foldl Module.addExtension m = { m with extensions := m.extensions ++ l } := by
  induction l generalizing m with
  | nil => simp
  | cons e l ih =>
    have hnew : e ∉ m.extensions := by
      intro hmem
      exact (nodup_append.mp hl).2.2 e hmem e mem_cons_self rfl
    have hadd : m.addExtension e = { m with extensions := m.extensions ++ [e] } := if_neg hnew
    rw [foldl_cons, hadd, ih (by simpa using hl)]
    simp

theorem parseBody_capability (c : UInt32) (r : Reader) :
    parseBody opCapability [c] r = .ok { r with module := r.module.addCapability c } := rfl

theorem parseBody_memoryModel (a memory : UInt32) (r : Reader) :
    parseBody opMemoryModel [a, memory] r =
      .ok { r with module := r.module.setMemoryModel a memory } := rfl

theorem exists_stringWords_eq_cons (s : List UInt8) : ∃ w l, stringWords s = w :: l := by
  fun_cases stringWords s with
  | case1 a b c d rest => exact ⟨_, _, rfl⟩
  | case2 a b c => exact ⟨_, _, rfl⟩
  | case3 a b => exact ⟨_, _, rfl⟩
  | case4 a => exact ⟨_, _, rfl⟩
  | case5 => exact ⟨_, _, rfl⟩

theorem parseBody_extension {e : List UInt8} (he : 0 ∉ e) (r : Reader) :
    parseBody opExtension (stringWords e) r = .ok { r with module := r.module.addExtension e } := by
  have hread := readString_stringWords he []
  rw [append_nil] at hread
  simp +decide only [parseBody, hread, if_true, if_false]

theorem parseBody_extInstImport (hname : 0 ∉ name) (id : UInt32) (r : Reader) :
    parseBody opExtInstImport (id :: stringWords name) r = .ok { r with module :=
        { r.module with extImports := r.module.extImports ++ [(id, name)] } } := by
  have hread := readString_stringWords hname []
  obtain ⟨w, l, hwords⟩ := exists_stringWords_eq_cons name
  rw [append_nil, hwords] at hread
  rw [hwords]
  simp +decide only [parseBody, hread, if_true, if_false]

theorem parseBody_name (hname : 0 ∉ name) (target : UInt32) (r : Reader) :
    parseBody opName (target :: stringWords name) r =
      .ok { r with module := r.module.setName target name } := by
  have hread := readString_stringWords hname []
  obtain ⟨w, l, hwords⟩ := exists_stringWords_eq_cons name
  rw [append_nil, hwords] at hread
  rw [hwords]
  simp +decide only [parseBody, hread, if_true, if_false]

theorem parseBody_entryPoint (hname : 0 ∉ name) (model function : UInt32)
    (interfaceIds : List UInt32) (r : Reader) :
    parseBody opEntryPoint (model :: function :: (stringWords name ++ interfaceIds)) r =
      .ok { r with module := r.module.addEntryPoint model function name interfaceIds } := by
  have hread := readString_stringWords hname interfaceIds
  obtain ⟨w, l, hwords⟩ := exists_stringWords_eq_cons name
  rw [hwords, cons_append] at hread
  rw [hwords, cons_append]
  simp +decide only [parseBody, hread, if_true, if_false]

/-! ## Sections of instructions -/

/-- The opcodes whose instructions end in a string. -/
def stringOpcodes : List UInt32 := [opExtension, opExtInstImport, opEntryPoint, opName]

/-- What an instruction is read back as: nothing if it is passed over. -/
def reread (i : Inst) : Option (List Inst) :=
  if isSkipped i.op then some [] else (readInst i.op i.body).map fun j => [j]

def rereads : List Inst → Option (List Inst)
  | [] => some []
  | i :: is =>
    match reread i, rereads is with
    | some js, some ks => some (js ++ ks)
    | _, _ => none

def Inst.Rereads (i : Inst) : Prop := isSkipped i.op = false ∧ readInst i.op i.body = some i

theorem rereads_cons (h : rereads (i :: is) = some js) : ∃ ks, rereads is = some ks ∧
    (js = ks ∨ isSkipped i.op = false ∧ ∃ j, readInst i.op i.body = some j ∧ js = j :: ks) := by
  rw [rereads] at h
  split at h <;> cases h
  next as ks hi his =>
    refine ⟨ks, his, ?_⟩
    unfold reread at hi
    split at hi
    next => exact .inl (by cases hi; rfl)
    next hskip =>
      obtain ⟨j, hj, rfl⟩ := Option.map_eq_some_iff.mp hi
      exact .inr ⟨Bool.not_eq_true _ ▸ hskip, j, hj, rfl⟩

theorem rereads_length (h : rereads is = some js) : js.length ≤ is.length := by
  induction is generalizing js with
  | nil =>
    cases h
    exact Nat.le_refl 0
  | cons i is ih =>
    obtain ⟨ks, hks, rfl | ⟨-, j, -, rfl⟩⟩ := rereads_cons h
    · exact (ih hks).trans (Nat.le_succ _)
    · exact Nat.succ_le_succ (ih hks)

theorem rereads_eq_self_iff : rereads is = some is ↔ ∀ i ∈ is, i.Rereads := by
  induction is with
  | nil => simp [rereads]
  | cons i is ih =>
    rw [forall_mem_cons, ← ih]
    constructor
    · intro h
      obtain ⟨ks, hks, rfl | ⟨hskip, j, hj, heq⟩⟩ := rereads_cons h
      · exact absurd (rereads_length hks) (Nat.not_succ_le_self _)
      · obtain ⟨rfl, rfl⟩ := cons.inj heq
        exact ⟨⟨hskip, hj⟩, hks⟩
    · rintro ⟨⟨hskip, hread⟩, his⟩
      have hi : reread i = some [i] := by
        rw [reread, if_neg (by simp [hskip]), hread]
        rfl
      simp [rereads, hi, his]

theorem parseBody_chunk (hi : i.op ∉ stringOpcodes) (r : Reader) : parseBody i.op i.body r =
      if isSkipped i.op then .ok r
      else
        match readInst i.op i.body with
        | none => .error (.tooSmall i.op)
        | some j => placeInst r j := by
  simp only [stringOpcodes, mem_cons, not_mem_nil, or_false, not_or] at hi
  unfold parseBody
  rw [if_neg hi.1, if_neg hi.2.1, if_neg hi.2.2.1, if_neg hi.2.2.2] <;> rfl

theorem readInst_op {op : UInt32} {body : List UInt32} (h : readInst op body = some i) :
    i.op = op := by
  unfold readInst at h
  split at h
  · cases h
  · cases h
    rfl

theorem rereads_op (h : rereads is = some js) : ∀ j ∈ js, ∃ i ∈ is, j.op = i.op := by
  induction is generalizing js with
  | nil =>
    cases h
    exact fun j hj => absurd hj not_mem_nil
  | cons i is ih =>
    obtain ⟨ks, hks, hjs⟩ := rereads_cons h
    have hrest : ∀ j ∈ ks, ∃ i' ∈ i :: is, j.op = i'.op := fun j hj =>
      (ih hks j hj).imp fun k hk => ⟨mem_cons_of_mem i hk.1, hk.2⟩
    obtain rfl | ⟨-, k, hk, rfl⟩ := hjs
    · exact hrest
    · exact forall_mem_cons.2 ⟨⟨i, mem_cons_self, readInst_op hk⟩, hrest⟩

def placeAll : List Inst → Reader → Except ParseError Reader
  | [], r => .ok r
  | i :: is, r =>
    match placeInst r i with
    | .error e => .error e
    | .ok r => placeAll is r

theorem parseAll_section (hstring : ∀ i ∈ is, i.op ∉ stringOpcodes) {t : Reader} :
    parseAll (is.map Inst.chunk) r = .ok t ↔
      ∃ js, rereads is = some js ∧ placeAll js r = .ok t := by
  induction is generalizing r with
  | nil => simp [parseAll, rereads, placeAll]
  | cons i is ih =>
    have hrest : ∀ s : Reader, (parseAll (is.map Inst.chunk) s = .ok t ↔
        ∃ js, rereads is = some js ∧ placeAll js s = .ok t) := fun s =>
      ih (fun k hk => hstring k (mem_cons_of_mem i hk))
    have hfirst := parseBody_chunk (hstring i mem_cons_self) r
    simp only [map_cons, parseAll, Inst.chunk, hfirst]
    by_cases hskip : isSkipped i.op
    · have hi : reread i = some [] := if_pos hskip
      simp only [if_pos hskip, rereads, hi]
      rw [hrest r]
      cases rereads is with
      | none => simp
      | some ks => simp
    have hi : reread i = (readInst i.op i.body).map fun j => [j] := if_neg hskip
    simp only [if_neg hskip]
    cases hread : readInst i.op i.body with
    | none =>
      rw [hread] at hi
      simp [rereads, hi]
    | some j =>
      rw [hread, Option.map_some] at hi
      simp only [rereads, hi]
      cases hplace : placeInst r j with
      | error e =>
        cases rereads is with
        | none => simp
        | some ks => simp [placeAll, hplace]
      | ok s =>
        show parseAll (is.map Inst.chunk) s = .ok t ↔ _
        rw [hrest s]
        cases rereads is with
        | none => simp
        | some ks => simp [placeAll, hplace]

/-! ## Where instructions go -/

def modeOpcodes : List UInt32 := [opExecutionMode, opExecutionModeId]

def annotationOpcodes : List UInt32 := [opDecorate, opMemberDecorate, opDecorateId]

def functionOpcodes : List UInt32 := [opFunction, opFunctionParameter, opFunctionEnd, opLabel]

/-- The opcodes of instructions that belong neither to the global section nor to a block. -/
def sectionOpcodes : List UInt32 :=
  [opCapability, opMemoryModel] ++ modeOpcodes ++ annotationOpcodes ++ functionOpcodes

theorem placeInst_mode (h : i.op ∈ modeOpcodes) : placeInst r i =
      .ok { r with module := { r.module with
        executionModes := r.module.executionModes ++ [i] } } := by
  obtain ⟨op, type, result, operands⟩ := i
  simp only [modeOpcodes, mem_cons, not_mem_nil, or_false] at h
  rcases h with rfl | rfl
  · rfl
  · rfl

theorem placeInst_annotations (h : i.op ∈ annotationOpcodes) : placeInst r i =
      .ok { r with module := { r.module with annotations := r.module.annotations ++ [i] } } := by
  obtain ⟨op, type, result, operands⟩ := i
  simp only [annotationOpcodes, mem_cons, not_mem_nil, or_false] at h
  rcases h with rfl | rfl | rfl
  · rfl
  · rfl
  · rfl

theorem placeInst_parameter (h : i.op = opFunctionParameter) (hr : r.inFunction = true) :
    placeInst r i = .ok { r with
        module := r.module.updateFunction fun f => { f with params := f.params ++ [i] } } := by
  obtain ⟨op, type, result, operands⟩ := i
  obtain ⟨module, inFunction, inBlock, consts⟩ := r
  cases h
  cases hr
  rfl

/-- An instruction of no section goes to the current block, or to the globals. -/
theorem placeInst_plain (h : i.op ∉ sectionOpcodes) : placeInst r i = if r.inFunction then
        if !r.inBlock then .error .beforeLabel
        else
          .ok { r with
              module := r.module.updateFunction fun f =>
                { f with
                  blocks := updateLast (fun b => { b with insts := b.insts ++ [i] }) f.blocks } }
      else
        match recordConst i r.consts with
        | none => .error .undefined
        | some consts =>
          .ok { r with
              module := { r.module with globals := r.module.globals ++ [i] }
              consts := consts } := by
  simp only [sectionOpcodes, modeOpcodes, annotationOpcodes, functionOpcodes, cons_append,
    nil_append, mem_cons, not_mem_nil, or_false, not_or] at h
  obtain ⟨hcap, hmodel, hmode, hmodeId, hdec, hmember, hdecId, hfn, hparam, hend, hlabel⟩ := h
  unfold placeInst
  rw [if_neg hcap, if_neg hmodel, if_neg (by simp [hmode, hmodeId]),
    if_neg (by simp [hdec, hmember, hdecId]), if_neg hfn, if_neg hparam, if_neg hend, if_neg hlabel] <;> rfl

theorem placeInst_inBlock (h : i.op ∉ sectionOpcodes) (hfn : r.inFunction = true)
    (hblock : r.inBlock = true) :
    placeInst r i = .ok { r with
          module := r.module.updateFunction fun f =>
            { f with
              blocks := updateLast (fun b => { b with insts := b.insts ++ [i] }) f.blocks } } := by
  rw [placeInst_plain h, if_pos hfn, if_neg (by simp [hblock])]

theorem placeAll_put {I : Reader → Prop} (put : Reader → List Inst → Reader)
    (hnil : ∀ r, put r [] = r) (hput : ∀ r js ks, put (put r js) ks = put r (js ++ ks))
    (hI : ∀ r js, I r → I (put r js))
    (hstep : ∀ j ∈ js, ∀ r, I r → placeInst r j = .ok (put r [j])) (hr : I r) :
    placeAll js r = .ok (put r js) := by
  induction js generalizing r with
  | nil => rw [placeAll, hnil]
  | cons j js ih =>
    rw [placeAll, hstep j mem_cons_self r hr]
    show placeAll js (put r [j]) = _
    rw [ih (fun k hk => hstep k (mem_cons_of_mem j hk)) (hI r [j] hr), hput]
    rfl

def Reader.addModes (r : Reader) (js : List Inst) : Reader :=
  { r with module := { r.module with executionModes := r.module.executionModes ++ js } }

def Reader.addAnnotations (r : Reader) (js : List Inst) : Reader :=
  { r with module := { r.module with annotations := r.module.annotations ++ js } }

theorem placeAll_modes (h : ∀ j ∈ js, j.op ∈ modeOpcodes) (r : Reader) :
    placeAll js r = .ok (r.addModes js) :=
  placeAll_put (I := fun _ => True) Reader.addModes (fun r => by simp [Reader.addModes])
    (fun r js ks => by simp [Reader.addModes]) (fun _ _ _ => trivial)
    (fun j hj r _ => placeInst_mode (h j hj)) trivial

theorem placeAll_annotations (h : ∀ j ∈ js, j.op ∈ annotationOpcodes) (r : Reader) :
    placeAll js r = .ok (r.addAnnotations js) :=
  placeAll_put (I := fun _ => True) Reader.addAnnotations (fun r => by simp [Reader.addAnnotations])
    (fun r js ks => by simp [Reader.addAnnotations]) (fun _ _ _ => trivial)
    (fun j hj r _ => placeInst_annotations (h j hj)) trivial

/-- The constants after instructions of the global section; `none` where the value of one is
not defined. -/
def constsAfter : List Inst → Consts → Option Consts
  | [], consts => some consts
  | i :: is, consts =>
    match recordConst i consts with
    | none => none
    | some consts => constsAfter is consts

def Reader.addGlobals (r : Reader) (js : List Inst) (consts : Consts) : Reader :=
  { r with module := { r.module with globals := r.module.globals ++ js }, consts := consts }

theorem placeAll_globals (h : ∀ j ∈ js, j.op ∉ sectionOpcodes) (hr : r.inFunction = false) :
    placeAll js r = match constsAfter js r.consts with
      | none => .error .undefined
      | some consts => .ok (r.addGlobals js consts) := by
  induction js generalizing r with
  | nil => simp [placeAll, constsAfter, Reader.addGlobals]
  | cons j js ih =>
    rw [placeAll, placeInst_plain (h j mem_cons_self), if_neg (by simp [hr]), constsAfter]
    cases recordConst j r.consts with
    | none => rfl
    | some consts =>
      have hrest : placeAll js (r.addGlobals [j] consts) = match constsAfter js consts with
          | none => .error .undefined
          | some consts' => .ok ((r.addGlobals [j] consts).addGlobals js consts') :=
        ih (fun k hk => h k (mem_cons_of_mem j hk)) hr
      show placeAll js (r.addGlobals [j] consts) = match constsAfter js consts with
        | none => .error .undefined
        | some consts' => .ok (r.addGlobals (j :: js) consts')
      rw [hrest]
      cases constsAfter js consts with
      | none => rfl
      | some consts' => simp [Reader.addGlobals]

end Brass.Spirv
