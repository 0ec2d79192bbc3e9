import Brass.Spirv.BinaryReader
import Brass.Util.WordBytes
import Mathlib.Data.List.TakeWhile

/-!
# Reading one instruction

The reader looks at the words of an instruction by their positions. Since no instruction is
handled unless it lies inside the words, what it does is a function of the opcode and of the
words after the first (`parseInst_eq`), and the loop over an encoded instruction is one call
of that function (`parseLoop_encodeWords`).
-/

namespace Brass.Spirv

open List

/-! ## Strings -/

variable {s : List UInt8} {l rest words : List UInt32} {k n pos : Nat} {op : UInt32}

def readString : List UInt32 → Option (List UInt8 × List UInt32)
  | [] => none
  | w :: rest =>
    let chars := (wordBytes w).takeWhile (· != 0)
    if chars.length < 4 then some (chars, rest)
    else (readString rest).map fun r => (chars ++ r.1, r.2)

theorem wordBytes_packWord (a b c d : UInt8) : wordBytes (packWord a b c d) = [a, b, c, d] := by
  obtain ⟨ha, hb, hc, hd⟩ := Util.bytes_ofBytes a b c d (w := packWord a b c d) rfl
  unfold wordBytes
  rw [ha, hb, hc, hd]

theorem readString_stringWords (hs : 0 ∉ s) (rest : List UInt32) :
    readString (stringWords s ++ rest) = some (s, rest) := by
  induction s using stringWords.induct with
  | case1 a b c d s ih =>
    simp only [mem_cons, not_or] at hs
    obtain ⟨ha, hb, hc, hd, hs⟩ := hs
    have htake : takeWhile (· != 0) [a, b, c, d] = [a, b, c, d] := by
      simp [Ne.symm ha, Ne.symm hb, Ne.symm hc, Ne.symm hd]
    simp only [stringWords, cons_append, readString, wordBytes_packWord, htake]
    rw [if_neg (by simp), ih hs]
    rfl
  | case2 a b c =>
    simp only [mem_cons, not_or] at hs
    simp [stringWords, readString, wordBytes_packWord, Ne.symm hs.1, Ne.symm hs.2.1,
      Ne.symm hs.2.2.1]
  | case3 a b =>
    simp only [mem_cons, not_or] at hs
    simp [stringWords, readString, wordBytes_packWord, Ne.symm hs.1, Ne.symm hs.2.1]
  | case4 a =>
    simp only [mem_cons, not_or] at hs
    simp [stringWords, readString, wordBytes_packWord, Ne.symm hs.1]
  | case5 =>
    have hzero : wordBytes 0 = [0, 0, 0, 0] := by decide
    simp [stringWords, readString, hzero]

theorem readString_suffix (h : readString l = some (s, rest)) : rest <:+ l := by
  induction l generalizing s with
  | nil => cases h
  | cons w l ih =>
    simp only [readString] at h
    split at h
    · cases h
      exact suffix_cons _ _
    · obtain ⟨r, hr, heq⟩ := Option.map_eq_some_iff.mp h
      cases heq
      exact (ih hr).trans (suffix_cons w l)

theorem readString_zero_notMem (h : readString l = some (s, rest)) : 0 ∉ s := by
  induction l generalizing s with
  | nil => cases h
  | cons w l ih =>
    have hchars : 0 ∉ (wordBytes w).takeWhile (· != 0) := by
      intro hmem
      simpa using mem_takeWhile_imp hmem
    simp only [readString] at h
    split at h
    · cases h
      exact hchars
    · obtain ⟨r, hr, heq⟩ := Option.map_eq_some_iff.mp h
      cases heq
      intro hmem
      rcases mem_append.mp hmem with hmem | hmem
      · exact hchars hmem
      · exact ih hr hmem

theorem readString_length (h : readString l = some (s, rest)) :
    (stringWords s).length + rest.length = l.length := by
  induction l generalizing s with
  | nil => cases h
  | cons w l ih =>
    have hle : ((wordBytes w).takeWhile (· != 0)).length ≤ 4 :=
      (List.takeWhile_prefix _).length_le
    simp only [readString] at h
    split at h
    case isTrue hshort =>
      cases h
      generalize (wordBytes w).takeWhile (· != 0) = chars at hshort
      match chars, hshort with
      | [], _ => simp [stringWords]; omega
      | [a], _ => simp [stringWords]; omega
      | [a, b], _ => simp [stringWords]; omega
      | [a, b, c], _ => simp [stringWords]; omega
    case isFalse hlong =>
      obtain ⟨r, hr, heq⟩ := Option.map_eq_some_iff.mp h
      cases heq
      have hrest := ih hr
      have hfour : ((wordBytes w).takeWhile (· != 0)).length = 4 := by omega
      generalize (wordBytes w).takeWhile (· != 0) = chars at hfour
      match chars, hfour with
      | [a, b, c, d], _ =>
        simp only [cons_append, nil_append, stringWords, length_cons]
        omega

/-! ## The words of an instruction -/

theorem word_eq (hn : pos + n ≤ words.length) (hk : k < n) :
    word words (pos + k) = .ok (((words.drop pos).take n).getD k 0) := by
  have hlt : pos + k < words.length := by omega
  simp [word, getD, hk, hlt]

theorem subspan_eq (hn : pos + n ≤ words.length) (hk : k ≤ n) :
    subspan words (pos + k) (n - k) = .ok (((words.drop pos).take n).drop k) := by
  unfold subspan
  rw [if_pos (by omega), drop_take, drop_drop]

theorem unpackString_eq (out : List UInt8) (hn : pos + n ≤ words.length) :
    unpackString words n pos out = .ok ((readString ((words.drop pos).take n)).map
      fun r => (out ++ r.1, pos + n - r.2.length)) := by
  induction n generalizing pos out with
  | zero => simp [unpackString, readString]
  | succ n ih =>
    have hlt : pos < words.length := by omega
    have hword : word words pos = .ok words[pos] := by simp [word, hlt]
    have hbody : (words.drop pos).take (n + 1) = words[pos] :: ((words.drop (pos + 1)).take n) := by
      rw [drop_eq_getElem_cons hlt, take_succ_cons]
    have hlen : ((words.drop (pos + 1)).take n).length = n := by simp; omega
    simp only [unpackString, hword, hbody, readString]
    split
    · rw [Option.map_some, hlen, show pos + (n + 1) - n = pos + 1 by omega]
    · rw [ih _ (by omega), Option.map_map]
      congr 2
      funext r
      simp only [Function.comp_apply, append_assoc]
      rw [show pos + 1 + n = pos + (n + 1) by omega]

theorem stringAt_eq (op : UInt32) (hn : pos + n ≤ words.length) (hk : k ≤ n) :
    stringAt words op (pos + k) (pos + n) = match readString (((words.drop pos).take n).drop k) with
      | none => .error (.malformedString op)
      | some r => .ok (r.1, pos + n - r.2.length) := by
  unfold stringAt
  rw [show pos + n - (pos + k) = n - k by omega, unpackString_eq [] (by omega), drop_take,
    drop_drop, show pos + k + (n - k) = pos + n by omega]
  cases readString ((words.drop (pos + k)).take (n - k)) with
  | none => rfl
  | some r => rfl

/-! ## One instruction -/

/-- The number of words that an opcode has before its operands. -/
def idWords (op : UInt32) : Nat :=
  (if hasResultType op then 1 else 0) + (if hasResult op then 1 else 0)

/-- The instruction with an opcode and the words after the first. -/
def readInst (op : UInt32) (body : List UInt32) : Option Inst :=
  if body.length < idWords op then none
  else
    some
      { op := op
        type := if hasResultType op then body.getD 0 0 else 0
        result := if hasResult op then body.getD (if hasResultType op then 1 else 0) 0 else 0
        operands := classifyOperands op (body.drop (idWords op)) }

theorem instAt_eq {wc : Nat} (hwc : wc ≠ 0) (hn : pos + wc ≤ words.length) :
    instAt words op pos wc = match readInst op ((words.drop (pos + 1)).take (wc - 1)) with
      | none => .error (.tooSmall op)
      | some i => .ok i := by
  have hlen : ((words.drop (pos + 1)).take (wc - 1)).length = wc - 1 := by simp; omega
  have hw : ∀ k, k < wc - 1 →
      word words (pos + 1 + k) = .ok (((words.drop (pos + 1)).take (wc - 1)).getD k 0) :=
    fun k hk => word_eq (by omega) hk
  have hs : ∀ k, k ≤ wc - 1 → subspan words (pos + 1 + k) (wc - 1 - k) =
      .ok (((words.drop (pos + 1)).take (wc - 1)).drop k) :=
    fun k hk => subspan_eq (by omega) hk
  simp only [instAt, readInst, hlen, idWords]
  by_cases hsmall : wc - 1 < (if hasResultType op then 1 else 0) + (if hasResult op then 1 else 0)
  · rw [if_pos hsmall, if_pos (by omega)]
    rfl
  · rw [if_neg hsmall, if_neg (by omega)]
    cases ht : hasResultType op with
    | true =>
      have hr : hasResult op = true := by simp [hasResult, ht]
      simp only [ht, hr, if_true] at hsmall ⊢
      have h0 := hw 0 (by omega)
      have h1 := hw 1 (by omega)
      have h2 := hs 2 (by omega)
      rw [Nat.add_zero] at h0
      rw [show wc - 1 - 2 = pos + wc - (pos + 1 + 1 + 1) by omega] at h2
      simp only [bind, Except.bind, pure, Except.pure, h0, h1]
      rw [show pos + 1 + 1 + 1 = pos + 1 + 2 by omega] at h2 ⊢
      rw [h2]
    | false =>
      cases hr : hasResult op with
      | true =>
        simp only [ht, hr, if_true] at hsmall ⊢
        have h0 := hw 0 (by omega)
        have h1 := hs 1 (by omega)
        rw [Nat.add_zero] at h0
        rw [show wc - 1 - 1 = pos + wc - (pos + 1 + 0 + 1) by omega] at h1
        simp only [bind, Except.bind, pure, Except.pure, Nat.add_zero] at h1 ⊢
        simp [h0, h1]
      | false =>
        simp only [ht, hr] at hsmall ⊢
        have h0 := hs 0 (by omega)
        rw [show wc - 1 - 0 = pos + wc - (pos + 1 + 0) by omega] at h0
        simp only [bind, Except.bind, pure, Except.pure, Nat.add_zero] at h0 ⊢
        simp [h0]

/-- `parseInst` on the words after the first. -/
def parseBody (op : UInt32) (body : List UInt32) (r : Reader) : Except ParseError Reader :=
  if isSkipped op then .ok r
  else if op = opExtension then
    match readString body with
    | none => .error (.malformedString op)
    | some (ext, _) => .ok { r with module := r.module.addExtension ext }
  else if op = opExtInstImport then
    match body with
    | id :: w :: body =>
      match readString (w :: body) with
      | none => .error (.malformedString op)
      | some (name, _) =>
        .ok { r with module := { r.module with extImports := r.module.extImports ++ [(id, name)] } }
    | _ => .error (.truncatedOp op)
  else if op = opEntryPoint then
    match body with
    | model :: function :: w :: body =>
      match readString (w :: body) with
      | none => .error (.malformedString op)
      | some (name, interfaceIds) =>
        .ok { r with module := r.module.addEntryPoint model function name interfaceIds }
    | _ => .error (.truncatedOp op)
  else if op = opName then
    match body with
    | target :: w :: body =>
      match readString (w :: body) with
      | none => .error (.malformedString op)
      | some (name, _) => .ok { r with module := r.module.setName target name }
    | _ => .error (.truncatedOp op)
  else
    match readInst op body with
    | none => .error (.tooSmall op)
    | some i => placeInst r i

theorem subspan_rest (hn : pos + n ≤ words.length)
    (h : readString (((words.drop pos).take n).drop k) = some (s, rest)) :
    subspan words (pos + n - rest.length) (pos + n - (pos + n - rest.length)) = .ok rest := by
  have hsuffix : rest <:+ (words.drop pos).take n :=
    (readString_suffix h).trans (drop_suffix k _)
  have hlen : ((words.drop pos).take n).length = n := by simp; omega
  have hle : rest.length ≤ n := hlen ▸ hsuffix.length_le
  have heq := suffix_iff_eq_drop.mp hsuffix
  have hspan := subspan_eq (k := n - rest.length) hn (by omega)
  rw [hlen] at heq
  rw [← heq] at hspan
  rw [show pos + n - rest.length = pos + (n - rest.length) by omega,
    show pos + n - (pos + (n - rest.length)) = n - (n - rest.length) by omega]
  exact hspan

theorem parseInst_eq {wc : Nat} (r : Reader) (hwc : wc ≠ 0) (hn : pos + wc ≤ words.length) :
    parseInst words op pos wc r = parseBody op ((words.drop (pos + 1)).take (wc - 1)) r := by
  have hlen : ((words.drop (pos + 1)).take (wc - 1)).length = wc - 1 := by simp; omega
  have hw : ∀ k, k < wc - 1 →
      word words (pos + 1 + k) = .ok (((words.drop (pos + 1)).take (wc - 1)).getD k 0) :=
    fun k hk => word_eq (by omega) hk
  have hstr : ∀ k, k ≤ wc - 1 → stringAt words op (pos + 1 + k) (pos + wc) =
      match readString (((words.drop (pos + 1)).take (wc - 1)).drop k) with
      | none => .error (.malformedString op)
      | some r => .ok (r.1, pos + wc - r.2.length) := by
    intro k hk
    have hend : pos + 1 + (wc - 1) ≤ words.length := by omega
    have h := stringAt_eq op hend hk
    rw [show pos + 1 + (wc - 1) = pos + wc by omega] at h
    exact h
  have hsub : ∀ k s rest,
      readString (((words.drop (pos + 1)).take (wc - 1)).drop k) = some (s, rest) →
      subspan words (pos + wc - rest.length) (pos + wc - (pos + wc - rest.length)) = .ok rest := by
    intro k s rest h
    have hend : pos + 1 + (wc - 1) ≤ words.length := by omega
    have h := subspan_rest hend h
    rw [show pos + 1 + (wc - 1) = pos + wc by omega] at h
    exact h
  have hinst : instAt words op pos wc = _ := instAt_eq hwc hn
  generalize (words.drop (pos + 1)).take (wc - 1) = body at hlen hw hstr hsub hinst ⊢
  unfold parseInst parseBody
  by_cases hskip : isSkipped op
  · rw [if_pos hskip, if_pos hskip]
  rw [if_neg hskip, if_neg hskip]
  by_cases hext : op = opExtension
  · rw [if_pos hext, if_pos hext]
    have h := hstr 0 (by omega)
    rw [Nat.add_zero, drop_zero] at h
    rw [h]
    cases readString body with
    | none => rfl
    | some p => rfl
  rw [if_neg hext, if_neg hext]
  by_cases himport : op = opExtInstImport
  · rw [if_pos himport, if_pos himport]
    match body, hlen with
    | [], hlen | [_], hlen =>
      rw [if_pos (by simp only [length_cons, length_nil] at hlen; omega)]
      rfl
    | a :: w :: body, hlen =>
      simp only [length_cons] at hlen
      have h0 := hw 0 (by omega)
      have h1 := hstr 1 (by omega)
      rw [Nat.add_zero] at h0
      rw [if_neg (by omega), h0, show pos + 2 = pos + 1 + 1 by omega]
      simp only [bind, Except.bind, pure, Except.pure, h1, drop_succ_cons, drop_zero]
      cases readString (w :: body) with
      | none => rfl
      | some p => rfl
  rw [if_neg himport, if_neg himport]
  by_cases hentry : op = opEntryPoint
  · rw [if_pos hentry, if_pos hentry]
    match body, hlen with
    | [], hlen | [_], hlen | [_, _], hlen =>
      rw [if_pos (by simp only [length_cons, length_nil] at hlen; omega)]
      rfl
    | model :: function :: w :: body, hlen =>
      simp only [length_cons] at hlen
      have h0 := hw 0 (by omega)
      have h1 := hw 1 (by omega)
      have h2 := hstr 2 (by omega)
      rw [Nat.add_zero] at h0
      rw [if_neg (by omega), h0, show pos + 2 = pos + 1 + 1 by omega, h1,
        show pos + 3 = pos + 1 + 2 by omega]
      simp only [bind, Except.bind, pure, Except.pure, h2, drop_succ_cons, drop_zero]
      cases hread : readString (w :: body) with
      | none => rfl
      | some p =>
        have h := hsub 2 p.1 p.2 hread
        simp only [h]
        rfl
  rw [if_neg hentry, if_neg hentry]
  by_cases hname : op = opName
  · rw [if_pos hname, if_pos hname]
    match body, hlen with
    | [], hlen | [_], hlen =>
      rw [if_pos (by simp only [length_cons, length_nil] at hlen; omega)]
      rfl
    | a :: w :: body, hlen =>
      simp only [length_cons] at hlen
      have h0 := hw 0 (by omega)
      have h1 := hstr 1 (by omega)
      rw [Nat.add_zero] at h0
      rw [if_neg (by omega), h0, show pos + 2 = pos + 1 + 1 by omega]
      simp only [bind, Except.bind, pure, Except.pure, h1, drop_succ_cons, drop_zero]
      cases readString (w :: body) with
      | none => rfl
      | some p => rfl
  rw [if_neg hname, if_neg hname, hinst]
  cases readInst op body with
  | none => rfl
  | some i => rfl

/-! ## The loop -/

theorem drop_take_append {α : Type} (pre body rest : List α) (a : α) :
    ((pre ++ a :: body ++ rest).drop (pre.length + 1)).take body.length = body := by
  have hdrop : (pre ++ a :: body ++ rest).drop (pre.length + 1) = body ++ rest := by
    rw [show pre ++ a :: body ++ rest = (pre ++ [a]) ++ (body ++ rest) by simp]
    exact drop_left' (by simp)
  rw [hdrop]
  exact take_left

theorem parseLoop_encodeWords {body : List UInt32} (hop : op.toNat < 65536)
    (hbody : body.length + 1 < 65536) (pre rest : List UInt32) (n : Nat) (r : Reader) :
    parseLoop (pre ++ encodeWords op body ++ rest) (n + 1) pre.length r =
      match parseBody op body r with
      | .error e => .error e
      | .ok r =>
        parseLoop (pre ++ encodeWords op body ++ rest) n (pre.length + (body.length + 1)) r := by
  obtain ⟨hwc, hopc⟩ := Util.halves_ofHalves hbody hop (w := headWord op body) rfl
  have hlt : pre.length < (pre ++ encodeWords op body ++ rest).length := by simp [encodeWords]
  have hword : word (pre ++ encodeWords op body ++ rest) pre.length = .ok (headWord op body) := by
    simp [word, encodeWords]
  have hend : pre.length + (body.length + 1) ≤ (pre ++ encodeWords op body ++ rest).length := by
    simp [encodeWords]
  have hbodyAt := drop_take_append pre body rest (headWord op body)
  rw [parseLoop, if_pos hlt, hword]
  simp only [wordCountShift, opCodeMask, hwc, hopc]
  rw [if_neg (by omega), if_neg (by omega), parseInst_eq r (by omega) hend, Nat.add_sub_cancel]
  unfold encodeWords
  rw [hbodyAt] <;> rfl

/-- An opcode and the words after the first. -/
abbrev Chunk := UInt32 × List UInt32

def parseAll : List Chunk → Reader → Except ParseError Reader
  | [], r => .ok r
  | c :: cs, r =>
    match parseBody c.1 c.2 r with
    | .error e => .error e
    | .ok r => parseAll cs r

def encodeAll (cs : List Chunk) : List UInt32 := cs.flatMap fun c => encodeWords c.1 c.2

/-- Whether the first word has room for the opcode and the number of words. -/
def Chunk.Fits (c : Chunk) : Prop := c.1.toNat < 65536 ∧ c.2.length + 1 < 65536

instance (c : Chunk) : Decidable c.Fits := inferInstanceAs (Decidable (_ ∧ _))

theorem length_le_encodeAll (cs : List Chunk) : cs.length ≤ (encodeAll cs).length := by
  induction cs with
  | nil => exact Nat.le_refl 0
  | cons c cs ih =>
    simp only [encodeAll, flatMap_cons, length_cons, length_append, encodeWords]
    simp only [encodeAll, encodeWords] at ih
    omega

theorem parseLoop_encodeAll {cs : List Chunk} (hcs : ∀ c ∈ cs, c.Fits) (pre : List UInt32)
    (hn : cs.length ≤ n) (r : Reader) :
    parseLoop (pre ++ encodeAll cs) n pre.length r = parseAll cs r := by
  induction cs generalizing pre n r with
  | nil =>
    cases n with
    | zero => simp [parseLoop, encodeAll, parseAll]
    | succ n => simp [parseLoop, encodeAll, parseAll]
  | cons c cs ih =>
    obtain ⟨n, rfl⟩ : ∃ k, n = k + 1 := ⟨n - 1, by simp only [length_cons] at hn; omega⟩
    have hc := hcs c mem_cons_self
    have hsplit : pre ++ encodeAll (c :: cs) = pre ++ encodeWords c.1 c.2 ++ encodeAll cs := by
      simp [encodeAll]
    have hlen : pre.length + (c.2.length + 1) = (pre ++ encodeWords c.1 c.2).length := by
      simp [encodeWords]
    rw [hsplit, parseLoop_encodeWords hc.1 hc.2, parseAll]
    cases parseBody c.1 c.2 r with
    | error e => rfl
    | ok r =>
      simp only [hlen]
      exact ih (fun d hd => hcs d (mem_cons_of_mem c hd)) _ (Nat.le_of_succ_le_succ hn) r

theorem parseAll_append (cs ds : List Chunk) (r : Reader) : parseAll (cs ++ ds) r =
      match parseAll cs r with
      | .error e => .error e
      | .ok r => parseAll ds r := by
  induction cs generalizing r with
  | nil => rfl
  | cons c cs ih =>
    simp only [cons_append, parseAll]
    cases parseBody c.1 c.2 r with
    | error e => rfl
    | ok r => exact ih r

theorem parseAll_append_ok {cs ds : List Chunk} {r t : Reader} :
    parseAll (cs ++ ds) r = .ok t ↔ ∃ s, parseAll cs r = .ok s ∧ parseAll ds s = .ok t := by
  rw [parseAll_append]
  cases parseAll cs r with
  | error e => simp
  | ok s => simp

end Brass.Spirv
