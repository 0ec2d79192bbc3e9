import Brass.Codegen.ParallelCopy

/-!
# Progress of a parallel copy

`Progress done src m`: in the machine `m` the destinations of the moves that are done have
their values, and the sources of the others still hold theirs, in the place that the move is
to read now: its own source, or the scratch register of a cycle. A move may be made when no
other that is not done reads its destination (`Progress.emit`), a source may be parked
(`Progress.park`), and two general registers may be exchanged (`Progress.exchange`).
-/

namespace Brass.Codegen.Copy

open Function (update update_of_ne update_self)

/-- The registers that no operand names. -/
def Scratch (l : Loc) : Prop := l = .gpr 10 ∨ l = .gpr 11 ∨ l = .xmm 14 ∨ l = .xmm 15

/-- A move as the allocator makes it: it has an instruction, a slot that is read has room for
what is read, and neither side is a scratch register. -/
structure LegalMove (L : Layout) (m : CopyMove) : Prop where
  emittable : Emittable L m.dst m.src
  room : ∀ s, m.src.kind = .slot s → words m.dst.size ≤ L.room s
  dstReg : ∀ p, m.dst.kind = .preg p → ¬ Scratch (pregLoc p)
  srcReg : ∀ p, m.src.kind = .preg p → ¬ Scratch (pregLoc p)

variable {L : Layout} {m m' : Machine} {k k' : CopyKind} {l : Loc} {w : Nat} {a b : CopyOperand}

def KindOk : CopyKind → Prop
  | .preg p => isGpr p = true ∨ p.isXmm = true
  | _ => True

theorem pregLoc_inj {p q : PReg} (hp : isGpr p = true ∨ p.isXmm = true)
    (hq : isGpr q = true ∨ q.isXmm = true) (h : pregLoc p = pregLoc q) : p = q := by
  have hcode : ∀ {x y : PReg}, x.code.toNat = y.code.toNat → x.regClass = y.regClass → x = y := by
    intro x y hxy hclass
    cases x
    cases y
    simp only [PReg.mk.injEq]
    exact ⟨hclass, UInt8.toNat_inj.mp hxy⟩
  have hgpr : ∀ {x : PReg}, isGpr x = true → x.regClass = .gpr := by
    intro x hx
    simp only [isGpr, Bool.and_eq_true, beq_iff_eq] at hx
    exact hx.1
  have hxmm : ∀ {x : PReg}, x.isXmm = true → x.regClass = .xmm := by
    intro x hx
    simp only [PReg.isXmm, Bool.and_eq_true, beq_iff_eq] at hx
    exact hx.1
  rcases hp with hp | hp <;> rcases hq with hq | hq
  · simp only [pregLoc, not_isXmm_of_isGpr hp, not_isXmm_of_isGpr hq] at h
    exact hcode (by simpa using h) ((hgpr hp).trans (hgpr hq).symm)
  · simp [pregLoc, not_isXmm_of_isGpr hp, hq] at h
  · simp [pregLoc, not_isXmm_of_isGpr hq, hp] at h
  · simp only [pregLoc, hp, hq] at h
    exact hcode (by simpa using h) ((hxmm hp).trans (hxmm hq).symm)

theorem owns_unique (hk : KindOk k) (hk' : KindOk k') (h : Owns L k l) (h' : Owns L k' l) :
    k = k' := by
  cases k with
  | imm v => exact h.elim
  | preg p =>
    cases k' with
    | imm v => exact h'.elim
    | preg q => rw [pregLoc_inj hk hk' (h.symm.trans h')]
    | slot t =>
      obtain ⟨a, rfl, -⟩ := h'
      have : Loc.word a = pregLoc p := h
      unfold pregLoc at this
      split at this <;> simp at this
  | slot s =>
    obtain ⟨a, rfl, hle, hlt⟩ := h
    cases k' with
    | imm v => exact h'.elim
    | preg q =>
      have : Loc.word a = pregLoc q := h'
      unfold pregLoc at this
      split at this <;> simp at this
    | slot t =>
      obtain ⟨b, hb, hle', hlt'⟩ := h'
      obtain rfl : a = b := by simpa using hb
      by_contra hne
      exact L.apart s t a (fun h => hne (by rw [h])) hle hlt hle' hlt'

theorem not_imm_of_owns (h : Owns L k l) : ∀ v, k ≠ .imm v := by
  rintro v rfl
  exact h

theorem read_congr (hw : IsSize w) (hroom : ∀ s, k = .slot s → words w ≤ L.room s)
    (h : ∀ l, Owns L k l → m l = m' l) : SameBytes w (read L m k) (read L m' k) := by
  refine SameBytes.of_words hw fun i hi => ?_
  cases k with
  | imm v => rfl
  | preg p => exact congrFun (h _ rfl) i
  | slot s =>
    have := hroom s rfl
    exact congrFun (h (.word (L.addr s + i)) ⟨_, rfl, by omega, by omega⟩) 0

theorem SameBytes.mono {v : Nat} {f g : Nat → U64} (hv : IsSize v) (hw : IsSize w) (hle : v ≤ w)
    (h : SameBytes w f g) : SameBytes v f g := by
  unfold SameBytes at h
  by_cases h4 : w = 4
  · rw [if_pos h4] at h
    unfold IsSize at hv
    rw [SameBytes, if_pos (by omega)]
    exact h
  · rw [if_neg h4] at h
    refine SameBytes.of_words hv fun k hk => h k ?_
    unfold words at hk
    unfold IsSize at hv hw
    split at hk <;> omega

/-! ## Legal moves -/

namespace LegalMove

variable {mv : CopyMove}

section

variable (h : LegalMove L mv)
include h

theorem dstSize : IsSize mv.dst.size := h.emittable.1

theorem srcSize : IsSize mv.src.size := h.emittable.2.1

theorem dst_not_imm : ∀ v, mv.dst.kind ≠ .imm v := by
  intro v hv
  have hkind := h.emittable.2.2
  rw [hv] at hkind
  exact hkind

theorem dstRoom : ∀ s, mv.dst.kind = .slot s → words mv.dst.size ≤ L.room s := by
  intro s hs
  have hkind := h.emittable.2.2
  rw [hs] at hkind
  have hone : mv.dst.size ≤ 8 → words mv.dst.size = 1 := fun h => by simp [words, h]
  cases hsrc : mv.src.kind <;> rw [hsrc] at hkind
  · rcases hkind with ⟨-, hle, hroom⟩ | ⟨-, hroom, -⟩
    · rw [hone hle]
      exact hroom
    · exact hroom
  · exact hkind.1
  · rw [hone hkind.1]
    exact hkind.2

theorem kinds : KindOk mv.dst.kind ∧ KindOk mv.src.kind := by
  have hkind := h.emittable.2.2
  cases hd : mv.dst.kind <;> cases hs : mv.src.kind <;> rw [hd, hs] at hkind <;>
    simp only [KindOk] <;> tauto

theorem dst_not_scratch (hl : Owns L mv.dst.kind l) : ¬ Scratch l := by
  cases hd : mv.dst.kind with
  | imm v => exact absurd hd (h.dst_not_imm v)
  | preg p =>
    rw [hd] at hl
    obtain rfl : l = pregLoc p := hl
    exact h.dstReg p hd
  | slot s =>
    rw [hd] at hl
    obtain ⟨a, rfl, -⟩ := hl
    simp [Scratch]

theorem src_not_scratch (hl : Owns L mv.src.kind l) : ¬ Scratch l := by
  cases hd : mv.src.kind with
  | imm v =>
    rw [hd] at hl
    exact hl.elim
  | preg p =>
    rw [hd] at hl
    obtain rfl : l = pregLoc p := hl
    exact h.srcReg p hd
  | slot s =>
    rw [hd] at hl
    obtain ⟨a, rfl, -⟩ := hl
    simp [Scratch]

end

end LegalMove

/-! ## Progress -/

/-- What is asked of the moves: they are legal and their destinations differ. -/
structure Legal (L : Layout) (moves : List CopyMove) : Prop where
  legal : ∀ i < moves.length, LegalMove L (moves.getD i default)
  distinct : ∀ i < moves.length, ∀ j < moves.length, i ≠ j →
    sameLoc (moves.getD i default).dst (moves.getD j default).dst = false

/-- The registers in which cycles park a value. -/
def IsPark (k : CopyKind) : Prop := k = .preg ⟨.gpr, 10⟩ ∨ k = .preg ⟨.xmm, 14⟩

structure Progress (L : Layout) (moves : List CopyMove) (m₀ : Machine) (done : Nat → Bool)
    (src : Nat → CopyOperand) (m : Machine) : Prop where
  made : ∀ i < moves.length, done i = true →
    SameBytes (moves.getD i default).dst.size (read L m (moves.getD i default).dst.kind)
      (read L m₀ (moves.getD i default).src.kind)
  waits : ∀ i < moves.length, done i = false →
    src i = (moves.getD i default).src ∨
      (IsPark (src i).kind ∧ Emittable L (moves.getD i default).dst (src i) ∧
        SameBytes (moves.getD i default).dst.size (read L m (src i).kind)
          (read L m₀ (moves.getD i default).src.kind))
  unread : ∀ i < moves.length, ∀ j < moves.length, done i = true → done j = false →
    sameLoc (moves.getD i default).dst (src j) = false
  frame : ∀ l, (∀ i < moves.length, done i = true → ¬ Owns L (moves.getD i default).dst.kind l) →
    ¬ Scratch l → m l = m₀ l

namespace Progress

variable {moves : List CopyMove} {m₀ : Machine} {done : Nat → Bool} {src : Nat → CopyOperand}
  {i : Nat}

theorem init (L : Layout) (moves : List CopyMove) (m₀ : Machine) :
    Progress L moves m₀ (fun _ => false) (fun i => (moves.getD i default).src) m₀ where
  made := by simp
  waits := fun _ _ _ => .inl rfl
  unread := by simp
  frame := fun _ _ _ => rfl

theorem congr {src' : Nat → CopyOperand} (h : Progress L moves m₀ done src m)
    (hsrc : ∀ i, done i = false → src' i = src i) : Progress L moves m₀ done src' m where
  made := h.made
  waits := fun i hi hd => by
    rw [hsrc i hd]
    exact h.waits i hi hd
  unread := fun i hi j hj hdi hdj => by
    rw [hsrc j hdj]
    exact h.unread i hi j hj hdi hdj
  frame := h.frame

theorem value (h : Progress L moves m₀ done src m) (hl : Legal L moves) (hi : i < moves.length)
    (hd : done i = false) :
    SameBytes (moves.getD i default).dst.size (read L m (src i).kind)
      (read L m₀ (moves.getD i default).src.kind) := by
  rcases h.waits i hi hd with hsrc | ⟨-, -, hval⟩
  · have hlegal := hl.legal i hi
    rw [hsrc]
    refine read_congr hlegal.dstSize hlegal.room fun l hown => ?_
    refine h.frame l (fun j hj hdj hownj => ?_) (hlegal.src_not_scratch hown)
    -- A destination that is written is not read any more.
    have hlj := hl.legal j hj
    have hkind := owns_unique hlj.kinds.1 hlegal.kinds.2 hownj hown
    have hread := h.unread j hj i hi hdj hd
    rw [hsrc, Bool.eq_false_iff] at hread
    exact hread (sameLoc_iff.mpr ⟨hkind, not_imm_of_owns hownj⟩)
  · exact hval

theorem made_of_frame (h : Progress L moves m₀ done src m) (hl : Legal L moves)
    (hi : i < moves.length) (hd : done i = true)
    (hm : ∀ l, Owns L (moves.getD i default).dst.kind l → m' l = m l) :
    SameBytes (moves.getD i default).dst.size (read L m' (moves.getD i default).dst.kind)
      (read L m₀ (moves.getD i default).src.kind) :=
  have hlegal := hl.legal i hi
  (read_congr hlegal.dstSize hlegal.dstRoom hm).trans (h.made i hi hd)

theorem distinct_owns (hl : Legal L moves) {j : Nat} (hi : i < moves.length) (hj : j < moves.length)
    (hne : i ≠ j) (hown : Owns L (moves.getD i default).dst.kind l) :
    ¬ Owns L (moves.getD j default).dst.kind l := by
  intro hownj
  have hkind := owns_unique (hl.legal i hi).kinds.1 (hl.legal j hj).kinds.1 hown hownj
  have hdiff := hl.distinct i hi j hj hne
  rw [Bool.eq_false_iff] at hdiff
  exact hdiff (sameLoc_iff.mpr ⟨hkind, not_imm_of_owns hown⟩)

theorem ne_of_isPark (hk : IsPark k) (hown : Owns L k l) : l = .gpr 10 ∨ l = .xmm 14 := by
  rcases hk with rfl | rfl
  · exact .inl hown
  · exact .inr hown

/-- A parked value outlives the other moves. -/
theorem waits_of_frame (h : Progress L moves m₀ done src m) (hi : i < moves.length)
    (hd : done i = false)
    (hm : ∀ l, l = .gpr 10 ∨ l = .xmm 14 → m' l = m l) :
    src i = (moves.getD i default).src ∨
      (IsPark (src i).kind ∧ Emittable L (moves.getD i default).dst (src i) ∧
        SameBytes (moves.getD i default).dst.size (read L m' (src i).kind)
          (read L m₀ (moves.getD i default).src.kind)) := by
  rcases h.waits i hi hd with hsrc | ⟨hpark, hemit, hval⟩
  · exact .inl hsrc
  · refine .inr ⟨hpark, hemit, SameBytes.trans ?_ hval⟩
    refine read_congr hemit.1 (fun s hs => ?_) (fun l hown => hm l (ne_of_isPark hpark hown))
    rcases hpark with hk | hk <;> rw [hk] at hs <;> cases hs

section

variable (h : Progress L moves m₀ done src m) (hl : Legal L moves) (hi : i < moves.length)
  (hd : done i = false)
include h hl hi hd

theorem emit (hunread : ∀ j < moves.length, j ≠ i → done j = false →
      sameLoc (moves.getD i default).dst (src j) = false)
    (hmoves : Moves L (moves.getD i default).dst (src i).kind m m') :
    Progress L moves m₀ (update done i true) src m' := by
  obtain ⟨hval, hframe⟩ := hmoves
  have hlegal := hl.legal i hi
  have hkeep : ∀ l, ¬ Owns L (moves.getD i default).dst.kind l → l ≠ .gpr 11 → l ≠ .xmm 15 →
      m' l = m l := hframe
  have hpark : ∀ l, l = .gpr 10 ∨ l = .xmm 14 → m' l = m l := by
    intro l hlp
    refine hkeep l (fun hown => hlegal.dst_not_scratch hown ?_) ?_ ?_
    · rcases hlp with rfl | rfl
      · exact .inl rfl
      · exact .inr (.inr (.inl rfl))
    · rcases hlp with rfl | rfl <;> simp
    · rcases hlp with rfl | rfl <;> simp
  refine ⟨fun j hj hdj => ?_, fun j hj hdj => ?_, fun j hj k hk hdj hdk => ?_, fun l hl' hs => ?_⟩
  · by_cases hji : j = i
    · subst hji
      exact hval.trans (h.value hl hj hd)
    · rw [update_of_ne hji] at hdj
      refine h.made_of_frame hl hj hdj fun l hown => hkeep l (distinct_owns hl hj hi hji hown) ?_ ?_
      · rintro rfl
        exact (hl.legal j hj).dst_not_scratch hown (.inr (.inl rfl))
      · rintro rfl
        exact (hl.legal j hj).dst_not_scratch hown (.inr (.inr (.inr rfl)))
  · have hji : j ≠ i := by
      rintro rfl
      simp at hdj
    rw [update_of_ne hji] at hdj
    exact h.waits_of_frame hj hdj hpark
  · have hki : k ≠ i := by
      rintro rfl
      simp at hdk
    rw [update_of_ne hki] at hdk
    by_cases hji : j = i
    · subst hji
      exact hunread k hk hki hdk
    · rw [update_of_ne hji] at hdj
      exact h.unread j hj k hk hdj hdk
  · have hown : ¬ Owns L (moves.getD i default).dst.kind l := hl' i hi (by simp)
    rw [hkeep l hown (fun h => hs (h ▸ .inr (.inl rfl))) (fun h => hs (h ▸ .inr (.inr (.inr rfl))))]
    refine h.frame l (fun j hj hdj => hl' j hj ?_) hs
    by_cases hji : j = i
    · rw [hji, update_self]
    · rw [update_of_ne hji, hdj]

theorem park
    (hnone : ∀ j < moves.length, j ≠ i → done j = false → src j = (moves.getD j default).src)
    {scr : CopyOperand} (hscr : IsPark scr.kind)
    (hemit : Emittable L (moves.getD i default).dst scr) (hw : IsSize w)
    (hle : (moves.getD i default).dst.size ≤ w) (hmoves : Moves L ⟨scr.kind, w⟩ (src i).kind m m') :
    Progress L moves m₀ done (update src i scr) m' := by
  obtain ⟨hval, hframe⟩ := hmoves
  have hkeep : ∀ l, ¬ Scratch l → m' l = m l := by
    intro l hl
    refine hframe l (fun hown => hl ?_) (fun h => hl (h ▸ .inr (.inl rfl)))
      (fun h => hl (h ▸ .inr (.inr (.inr rfl))))
    rcases ne_of_isPark hscr hown with rfl | rfl
    · exact .inl rfl
    · exact .inr (.inr (.inl rfl))
  refine ⟨fun j hj hdj => ?_, fun j hj hdj => ?_, fun j hj k hk hdj hdk => ?_, fun l hl' hs => ?_⟩
  · exact h.made_of_frame hl hj hdj fun l hown => hkeep l ((hl.legal j hj).dst_not_scratch hown)
  · by_cases hji : j = i
    · subst hji
      rw [update_self]
      refine .inr ⟨hscr, hemit, SameBytes.trans ?_ (h.value hl hj hd)⟩
      exact hval.mono (hl.legal j hj).dstSize hw hle
    · rw [update_of_ne hji]
      exact .inl (hnone j hj hji hdj)
  · by_cases hki : k = i
    · subst hki
      rw [update_self, Bool.eq_false_iff]
      intro hsame
      obtain ⟨hkind, -⟩ := sameLoc_iff.mp hsame
      have hown : Owns L scr.kind (if scr.kind = .preg ⟨.gpr, 10⟩ then .gpr 10 else .xmm 14) := by
        rcases hscr with hk | hk <;> rw [hk] <;> rfl
      rw [← hkind] at hown
      refine (hl.legal j hj).dst_not_scratch hown ?_
      split
      · exact .inl rfl
      · exact .inr (.inr (.inl rfl))
    · rw [update_of_ne hki]
      exact h.unread j hj k hk hdj hdk
  · rw [hkeep l hs]
    exact h.frame l hl' hs

end

theorem exec_xchg {p q : PReg} (hp : isGpr p = true) (hq : isGpr q = true) (hne : p ≠ q) :
    exec m (.xchg w (asGpr p) (asGpr q)) (pregLoc p) 0 = narrow w (m (pregLoc q) 0) ∧
      exec m (.xchg w (asGpr p) (asGpr q)) (pregLoc q) 0 = narrow w (m (pregLoc p) 0) ∧
      ∀ l, l ≠ pregLoc p → l ≠ pregLoc q → exec m (.xchg w (asGpr p) (asGpr q)) l = m l := by
  have hloc : pregLoc p ≠ pregLoc q := fun h => hne (pregLoc_inj (.inl hp) (.inl hq) h)
  rw [exec, ← pregLoc_gpr hp, ← pregLoc_gpr hq]
  refine ⟨?_, ?_, fun l hlp hlq => ?_⟩
  · rw [setReg, setReg, update_of_ne hloc, update_self]
  · rw [setReg, update_self]
  · rw [setReg, setReg, update_of_ne hlq, update_of_ne hlp]

theorem exchange {j : Nat} {p q : PReg} (h : Progress L moves m₀ done src m) (hl : Legal L moves)
    (hi : i < moves.length) (hj : j < moves.length) (hij : i ≠ j) (hdi : done i = false)
    (hdj : done j = false) (hp : isGpr p = true) (hq : isGpr q = true)
    (hki : (moves.getD i default).dst.kind = .preg p)
    (hkj : (moves.getD j default).dst.kind = .preg q) (hsi : (src i).kind = .preg q)
    (hsj : (src j).kind = .preg p)
    (hunread : ∀ k < moves.length, k ≠ i → k ≠ j → done k = false →
      sameLoc (moves.getD i default).dst (src k) = false ∧
        sameLoc (moves.getD j default).dst (src k) = false)
    (hsmall : (moves.getD i default).dst.size ≤ 8 ∧ (moves.getD j default).dst.size ≤ 8)
    (hwi : (moves.getD i default).dst.size ≤ w) (hwj : (moves.getD j default).dst.size ≤ w) :
    Progress L moves m₀ (update (update done i true) j true) src
      (exec m (.xchg w (asGpr p) (asGpr q))) := by
  have hne : p ≠ q := by
    rintro rfl
    have hdiff := hl.distinct i hi j hj hij
    rw [Bool.eq_false_iff] at hdiff
    exact hdiff (sameLoc_iff.mpr ⟨hki.trans hkj.symm, (hl.legal i hi).dst_not_imm⟩)
  obtain ⟨hmp, hmq, hkeep⟩ := exec_xchg (m := m) (w := w) hp hq hne
  have hli := hl.legal i hi
  have hlj := hl.legal j hj
  have hscratch : ∀ k < moves.length, k ≠ i → k ≠ j → ∀ l,
      Owns L (moves.getD k default).dst.kind l → l ≠ pregLoc p ∧ l ≠ pregLoc q := by
    intro k hk hki' hkj' l hown
    constructor
    · rintro rfl
      exact distinct_owns hl hk hi hki' hown (by rw [hki]; rfl)
    · rintro rfl
      exact distinct_owns hl hk hj hkj' hown (by rw [hkj]; rfl)
  have hpark : ∀ l, l = .gpr 10 ∨ l = .xmm 14 → exec m (.xchg w (asGpr p) (asGpr q)) l = m l := by
    intro l hlp
    have hs : Scratch l := by
      rcases hlp with rfl | rfl
      · exact .inl rfl
      · exact .inr (.inr (.inl rfl))
    refine hkeep l ?_ ?_
    · rintro rfl
      exact hli.dstReg p hki hs
    · rintro rfl
      exact hlj.dstReg q hkj hs
  have hsplit : ∀ k, update (update done i true) j true k = false →
      k ≠ i ∧ k ≠ j ∧ done k = false := by
    intro k hk
    have hkj' : k ≠ j := by
      rintro rfl
      simp at hk
    rw [update_of_ne hkj'] at hk
    have hki' : k ≠ i := by
      rintro rfl
      simp at hk
    rw [update_of_ne hki'] at hk
    exact ⟨hki', hkj', hk⟩
  refine ⟨fun k hk hdk => ?_, fun k hk hdk => ?_, fun k hk n hn hdk hdn => ?_, fun l hl' hs => ?_⟩
  · by_cases hkj' : k = j
    · subst hkj'
      refine SameBytes.trans ?_ (h.value hl hk hdj)
      rw [hkj, hsj]
      exact sameBytes_of_narrow (isSize_small hlj.dstSize hsmall.2) hwj hmq
    · by_cases hki' : k = i
      · subst hki'
        refine SameBytes.trans ?_ (h.value hl hk hdi)
        rw [hki, hsi]
        exact sameBytes_of_narrow (isSize_small hli.dstSize hsmall.1) hwi hmp
      · rw [update_of_ne hkj', update_of_ne hki'] at hdk
        refine h.made_of_frame hl hk hdk fun l hown => ?_
        obtain ⟨h₁, h₂⟩ := hscratch k hk hki' hkj' l hown
        exact hkeep l h₁ h₂
  · obtain ⟨-, -, hdk'⟩ := hsplit k hdk
    exact h.waits_of_frame hk hdk' hpark
  · obtain ⟨hni, hnj, hdn'⟩ := hsplit n hdn
    by_cases hkj' : k = j
    · rw [hkj']
      exact (hunread n hn hni hnj hdn').2
    · by_cases hki' : k = i
      · rw [hki']
        exact (hunread n hn hni hnj hdn').1
      · rw [update_of_ne hkj', update_of_ne hki'] at hdk
        exact h.unread k hk n hn hdk hdn'
  · have hdone : ∀ k, done k = true → update (update done i true) j true k = true := by
      intro k hk
      by_cases hkj' : k = j
      · rw [hkj', update_self]
      · rw [update_of_ne hkj']
        by_cases hki' : k = i
        · rw [hki', update_self]
        · rw [update_of_ne hki', hk]
    rw [hkeep l ?_ ?_]
    · exact h.frame l (fun k hk hdk => hl' k hk (hdone k hdk)) hs
    · rintro rfl
      refine hl' i hi ?_ (by rw [hki]; rfl)
      rw [update_of_ne hij, update_self]
    · rintro rfl
      exact hl' j hj (by rw [update_self]) (by rw [hkj]; rfl)

end Progress

end Brass.Codegen.Copy
