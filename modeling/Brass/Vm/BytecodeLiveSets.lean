import Brass.Vm.BytecodeLiveness

/-!
# The live sets of safepoints

A value counts as live at a safepoint when nothing from there on in its block defines it, and it
is read from there on in the block or live at the start of a block that this one leads to, by its
branch or by any of its guards (`LiveByBlock`). The live set of a safepoint has the registers of
these values (`mem_liveRegs_iff`). That is liveness save for the guards that stand before the
safepoint in its block (`Verified.liveByBlock_cases`).
-/

namespace Brass.Vm.BytecodeRegalloc

open Brass.Util List

variable {fn : Function} {layout : BlockLayout} {b c j k n u v : Nat} {p q : Point}
  {i : ValueInfo}

def LiveByBlock (fn : Function) (v : Nat) (p : Point) : Prop :=
  (∀ j, p.2 ≤ j → ¬ Defines fn (p.1, j) v) ∧
    ((∃ j, p.2 ≤ j ∧ Reads fn (p.1, j) v) ∨ ∃ c ∈ blockSuccs fn p.1, (flow fn).Live v (c, 0))

theorem Verified.mem_liveIn_iff (hv : Verified fn) (hstub : NoStubResumes fn)
    (hl : IsLayout fn layout) (honce : DefinedOnce fn) (hd : Describes fn i n) :
    c ∈ liveIn fn layout i ↔ (flow fn).Live i.value (c, 0) := by
  refine ⟨live_of_mem_liveIn honce hl hd, fun h => mem_liveIn_of hl ?_ ?_⟩
  · intro heq
    exact hv.not_live_before hstub (heq ▸ hd.defines) (Nat.zero_le n) h
  · rcases hv.live_cases hstub hl hd h with ⟨j, -, hr⟩ | hsucc
    · exact .inl ⟨j, hr⟩
    · exact .inr hsucc

theorem defBlock_notMem_liveIn (hl : IsLayout fn layout) : i.defBlock ∉ liveIn fn layout i := by
  intro h
  obtain ⟨r, hr, hreach⟩ := (mem_liveIn hl).1 h
  rcases Relation.ReflTransGen.cases_tail hreach with heq | ⟨c, -, hc⟩
  · exact (mem_crossUses.1 hr).2.1 heq.symm
  · simp at hc

theorem mem_liveOut (hl : IsLayout fn layout) :
    b ∈ liveOut fn layout i ↔ ∃ c ∈ blockSuccs fn b, c ∈ liveIn fn layout i := by
  rw [liveOut, mem_dedup, mem_flatMap]
  constructor
  · rintro ⟨c, hin, hpred⟩
    exact ⟨c, (hl.preds b c).1 hpred, hin⟩
  · rintro ⟨c, hc, hin⟩
    exact ⟨c, hin, (hl.preds b c).2 hc⟩

/-! ## Last uses -/

theorem pairwise_blockUses (b : Nat) : (blockUses fn b).Pairwise fun x y => x.pos ≤ y.pos := by
  unfold blockUses
  generalize (fn.block b).insts = insts
  suffices h : ∀ start, ((insts.zipIdx start).flatMap fun p =>
      (readsOf p.1).map fun v => (⟨v, b, blockStart fn b + 1 + p.2⟩ : Use)).Pairwise
        fun x y => x.pos ≤ y.pos from h 0
  induction insts with
  | nil => simp
  | cons inst insts ih =>
    intro start
    rw [zipIdx_cons, flatMap_cons, pairwise_append]
    refine ⟨?_, ih (start + 1), ?_⟩
    · exact pairwise_map.2 (pairwise_of_forall fun _ _ => le_refl _)
    · intro x hx y hy
      obtain ⟨v, -, rfl⟩ := mem_map.1 hx
      obtain ⟨⟨inst', m⟩, hmem, hy⟩ := mem_flatMap.1 hy
      obtain ⟨w, -, rfl⟩ := mem_map.1 hy
      have hle := le_snd_of_mem_zipIdx hmem
      dsimp only at hle ⊢
      omega

theorem le_getLast_of_pairwise {l : List Nat} {m x : Nat} (hl : l.Pairwise (· ≤ ·))
    (hm : l.getLast? = some m) (hx : x ∈ l) : x ≤ m := by
  obtain ⟨l', rfl⟩ := getLast?_eq_some_iff.1 hm
  rcases mem_append.1 hx with hx | hx
  · exact (pairwise_append.1 hl).2.2 x hx m (mem_singleton_self m)
  · exact (mem_singleton.1 hx).le

section LastUse

variable {values : List ValueInfo} {idx m : Nat}

theorem lastUse_none (h : lastUse fn values b idx = none) {x : Use} (hx : x ∈ blockUses fn b) :
    x.value ≠ (infoAt values idx).value := by
  intro hv
  rw [lastUse, getLast?_eq_none_iff, map_eq_nil_iff, filter_eq_nil_iff] at h
  exact h x hx (by simpa using hv)

theorem lastUse_some (h : lastUse fn values b idx = some m) :
    (∃ x ∈ blockUses fn b, x.value = (infoAt values idx).value ∧ x.pos = m) ∧
      ∀ x ∈ blockUses fn b, x.value = (infoAt values idx).value → x.pos ≤ m := by
  constructor
  · obtain ⟨x, hx, hpos⟩ := mem_map.1 (mem_of_getLast? h)
    obtain ⟨hmem, hval⟩ := mem_filter.1 hx
    exact ⟨x, hmem, by simpa using hval, hpos⟩
  · intro x hx hv
    refine le_getLast_of_pairwise ?_ h (mem_map_of_mem (mem_filter.2 ⟨hx, ?_⟩))
    · exact pairwise_map.2 ((pairwise_blockUses b).filter _)
    · simpa using hv

/-! ## Live at a safepoint -/

theorem liveAt_iff (hl : IsLayout fn layout) (honce : DefinedOnce fn)
    (hd : Describes fn (infoAt values idx) n) (hk : k < (fn.block b).insts.length) :
    ((lastUse fn values b idx).isSome ∨ b ∈ liveIn fn layout (infoAt values idx) ∨
        b ∈ liveOut fn layout (infoAt values idx)) ∧
      liveAt fn layout values b (blockStart fn b + 1 + k) idx = true ↔
    (b = (infoAt values idx).defBlock → n < k + 1) ∧
      ((∃ j, k + 1 ≤ j ∧ Reads fn (b, j) (infoAt values idx).value) ∨
        ∃ c ∈ blockSuccs fn b, c ∈ liveIn fn layout (infoAt values idx)) := by
  generalize hi : infoAt values idx = i at hd ⊢
  have hdefBlock : b = i.defBlock → b ∉ liveIn fn layout i := fun h =>
    h ▸ defBlock_notMem_liveIn hl
  have hdefPos := hd.defPos
  simp only [liveAt, hi, mem_liveOut hl, Bool.and_eq_true, Bool.or_eq_true, decide_eq_true_eq,
    beq_iff_eq]
  constructor
  · rintro ⟨-, ⟨hhere, hstart⟩, hstop⟩
    refine ⟨fun hb => ?_, ?_⟩
    · rw [if_neg (hdefBlock hb)] at hstart
      rw [hdefPos, ← hb] at hstart
      omega
    · by_cases hout : ∃ c ∈ blockSuccs fn b, c ∈ liveIn fn layout i
      · exact .inr hout
      rw [if_neg hout] at hstop
      rcases hlast : lastUse fn values b idx with _ | m
      · rw [hlast, Option.getD_none] at hstop
        omega
      · rw [hlast, Option.getD_some] at hstop
        obtain ⟨⟨x, hx, hv, hpos⟩, -⟩ := lastUse_some hlast
        obtain ⟨j, hj, -, -, hr⟩ := reads_of_use hx
        rw [hi] at hv
        rw [hv] at hr
        refine .inl ⟨j, by omega, hr.resolve_right fun hdef => ?_⟩
        -- A use at the definition itself is an invoke's own result.
        obtain ⟨rfl, rfl⟩ := Prod.mk.inj (honce _ _ _ hdef hd.defines)
        rw [if_neg (hdefBlock rfl)] at hstart
        omega
  · rintro ⟨hdef, hlive⟩
    have hin : b ≠ i.defBlock → b ∈ liveIn fn layout i := fun hne => by
      refine mem_liveIn_of hl hne ?_
      rcases hlive with ⟨j, -, hr⟩ | hsucc
      · exact .inl ⟨j, hr⟩
      · exact .inr hsucc
    have hhere : b ∈ liveIn fn layout i ∨ i.defBlock = b := by
      by_cases hb : b = i.defBlock
      · exact .inr hb.symm
      · exact .inl (hin hb)
    have hstart : (if b ∈ liveIn fn layout i then blockStart fn b else i.defPos) <
        blockStart fn b + 1 + k := by
      split
      · omega
      · rename_i hnot
        have hb : b = i.defBlock := by
          by_contra hne
          exact hnot (hin hne)
        have := hdef hb
        rw [hdefPos, ← hb]
        omega
    by_cases hout : ∃ c ∈ blockSuccs fn b, c ∈ liveIn fn layout i
    · refine ⟨.inr (.inr hout), ⟨hhere, hstart⟩, ?_⟩
      rw [if_pos hout, blockEnd]
      omega
    · obtain ⟨j, hj, hr⟩ := hlive.resolve_right hout
      obtain ⟨x, hx, hv, hpos⟩ := exists_use hr
      rcases hlast : lastUse fn values b idx with _ | m
      · exact absurd (hv.trans (congrArg ValueInfo.value hi.symm)) (lastUse_none hlast hx)
      · have hle := (lastUse_some hlast).2 x hx (hv.trans (congrArg ValueInfo.value hi.symm))
        refine ⟨.inl rfl, ⟨hhere, hstart⟩, ?_⟩
        rw [if_neg hout, Option.getD_some]
        omega

end LastUse

/-! ## The values of a function -/

theorem infoAt_valueInfos {idx : Nat} (h : idx < (definitions fn).length) :
    infoAt (valueInfos fn layout) idx = withHull fn layout (definitions fn)[idx] := by
  simp [infoAt, valueInfos, getD_eq_getElem?_getD, h]

theorem length_valueInfos : (valueInfos fn layout).length = (definitions fn).length := by
  rw [valueInfos, length_map]

theorem map_value_valueInfos :
    (valueInfos fn layout).map (·.value) = (definitions fn).map (·.value) := by
  rw [valueInfos, map_map]
  exact map_congr_left fun i _ => (sameValue_withHull i).value.symm

variable (layout) in
theorem describes_infoAt {idx : Nat} (h : idx < (definitions fn).length) :
    ∃ n, Describes fn (infoAt (valueInfos fn layout) idx) n := by
  obtain ⟨n, hd⟩ := exists_describes (getElem_mem h)
  rw [infoAt_valueInfos h]
  exact ⟨n, (sameValue_withHull _).describes hd⟩

theorem definedOnce_of_nodup (h : ((definitions fn).map (·.value)).Nodup) : DefinedOnce fn := by
  rintro ⟨b, k⟩ ⟨c, j⟩ v hp hq
  obtain ⟨i, hi, hv, hb, hpos⟩ := exists_definition hp
  obtain ⟨i', hi', hv', hb', hpos'⟩ := exists_definition hq
  obtain rfl := inj_on_of_nodup_map h hi hi' (hv.trans hv'.symm)
  obtain rfl := hb.symm.trans hb'
  rw [hpos] at hpos'
  exact Prod.ext rfl (by dsimp only; omega)

theorem Verified.not_liveByBlock_defines (hv : Verified fn) (hstub : NoStubResumes fn)
    (h : (flow fn).Live v p) (j : Nat) (hj : p.2 ≤ j) : ¬ Defines fn (p.1, j) v :=
  fun hd => hv.not_live_before hstub hd hj h

theorem Verified.mem_liveRegs_iff (hv : Verified fn) (hstub : NoStubResumes fn)
    (hl : IsLayout fn layout) (hnodup : ((definitions fn).map (·.value)).Nodup)
    (assigned : Nat → Nat) (hk : k < (fn.block b).insts.length) (r : Nat) :
    r ∈ liveRegs fn layout (valueInfos fn layout) assigned b (blockStart fn b + 1 + k) ↔
      ∃ idx < (definitions fn).length, assigned idx = r ∧
        LiveByBlock fn (infoAt (valueInfos fn layout) idx).value (b, k + 1) := by
  have honce := definedOnce_of_nodup hnodup
  have hiff : ∀ idx < (definitions fn).length, ((lastUse fn (valueInfos fn layout) b idx).isSome ∨
          b ∈ liveIn fn layout (infoAt (valueInfos fn layout) idx) ∨
          b ∈ liveOut fn layout (infoAt (valueInfos fn layout) idx)) ∧
        liveAt fn layout (valueInfos fn layout) b (blockStart fn b + 1 + k) idx = true ↔
      LiveByBlock fn (infoAt (valueInfos fn layout) idx).value (b, k + 1) := by
    intro idx hidx
    obtain ⟨n, hd⟩ := describes_infoAt layout hidx
    rw [liveAt_iff hl honce hd hk]
    refine and_congr ⟨fun h j hj hdef => ?_, fun h hb => ?_⟩ (or_congr Iff.rfl ?_)
    · obtain ⟨rfl, rfl⟩ := Prod.mk.inj (honce _ _ _ hdef hd.defines)
      exact absurd (h rfl) (Nat.not_lt.2 hj)
    · by_contra hge
      exact h n (Nat.not_lt.1 hge) (hb ▸ hd.defines)
    · exact exists_congr fun c => and_congr_right fun _ => hv.mem_liveIn_iff hstub hl honce hd
  rw [liveRegs, mem_insertionSort, mem_map]
  constructor
  · rintro ⟨idx, hidx, rfl⟩
    obtain ⟨hcand, hlive⟩ := mem_filter.1 hidx
    obtain ⟨hrange, hcand⟩ := mem_filter.1 hcand
    rw [mem_range, length_valueInfos] at hrange
    exact ⟨idx, hrange, rfl, (hiff idx hrange).1 ⟨of_decide_eq_true hcand, hlive⟩⟩
  · rintro ⟨idx, hidx, rfl, hlive⟩
    obtain ⟨hcand, hlive⟩ := (hiff idx hidx).2 hlive
    refine ⟨idx, mem_filter.2 ⟨mem_filter.2 ⟨?_, decide_eq_true hcand⟩, hlive⟩, rfl⟩
    rwa [mem_range, length_valueInfos]

/-! ## Against liveness along paths -/

theorem Verified.liveByBlock_of_live (hv : Verified fn) (hstub : NoStubResumes fn)
    (h : (flow fn).Live v p) : LiveByBlock fn v p := by
  refine ⟨hv.not_liveByBlock_defines hstub h, ?_⟩
  induction h with
  | @read p hr => exact .inl ⟨p.2, le_refl _, hr⟩
  | @step p q hnot hn hlive ih =>
    rcases flow_next hn with rfl | ⟨h0, hmem⟩
    · rcases ih with ⟨j, hj, hr⟩ | hsucc
      · exact .inl ⟨j, by dsimp only at hj; omega, hr⟩
      · exact .inr hsucc
    · obtain ⟨c, m⟩ := q
      obtain rfl : m = 0 := h0
      exact .inr ⟨c, hmem, hlive⟩

/-- A value that counts as live at a point is live there, or a guard that stands before the point
in its block has a resume block into which it is live. -/
theorem Verified.liveByBlock_cases (hv : Verified fn) (hb : p.2 ≤ (fn.block p.1).insts.length)
    (h : LiveByBlock fn v p) :
    (flow fn).Live v p ∨ ∃ m < p.2, ∃ q, Resumes fn (p.1, m) q ∧ (flow fn).Live v q := by
  obtain ⟨b, k⟩ := p
  obtain ⟨hnot, hread | ⟨c, hc, hlive⟩⟩ := h
  · obtain ⟨j, hj, hr⟩ := hread
    exact .inl (live_back (.read hr) (live_le (.read hr)) hj fun m hm _ => hnot m hm)
  · obtain ⟨m, hway⟩ := mem_blockSuccs_iff.1 hc
    -- From a place at or behind the point the way out is a way from the point.
    have hback : k ≤ m → (flow fn).next (b, m) (c, 0) → (flow fn).Live v (b, k) := fun hm hn =>
      live_back (.step (hnot m hm) hn hlive) (live_le (.step (hnot m hm) hn hlive)) hm
        fun m hm _ => hnot m hm
    rcases hway with ⟨inst, hat, t, ht, rfl⟩ | hr
    · have hlast := hv.closing b m inst hat (ne_nil_of_mem ht)
      exact .inl (hback (hlast ▸ hb) (.inl (.inr ⟨inst, hat, t, ht, rfl⟩)))
    · rcases Nat.lt_or_ge m k with hm | hm
      · exact .inr ⟨m, hm, (c, 0), hr, hlive⟩
      · exact .inl (hback hm (.inr hr))

/-- Where every value is defined on each path to its reads, a value that counts as live at a point
is defined on each path there. -/
theorem Verified.defined_of_liveByBlock (hv : Verified fn) (hstub : NoStubResumes fn)
    (hstrict : ∀ v, ¬ (branchFlow fn).Live v (0, 0)) (hb : p.2 ≤ (fn.block p.1).insts.length)
    (h : LiveByBlock fn v p) : ¬ (flow fn).Bypasses v (0, 0) p := by
  have hstart : ¬ (flow fn).Live v (0, 0) := fun hl =>
    hstrict v (hv.live_branchFlow hstub hl)
  rcases hv.liveByBlock_cases hb h with hlive | ⟨m, hm, q, hr, hlive⟩
  · exact hlive.defined hstart
  · intro hpath
    -- The path comes by the guard.
    have hguard : ∀ k, m ≤ k → ∀ p : Point, (flow fn).Bypasses v (0, 0) p → p.2 = k →
        Resumes fn (p.1, m) q → (flow fn).Bypasses v (0, 0) (p.1, m) := by
      intro k hk
      induction k, hk using Nat.le_induction with
      | base =>
        intro p hpath hp _
        exact hp ▸ hpath
      | succ k hk ih =>
        intro p hpath hp hr
        rcases Relation.ReflTransGen.cases_tail hpath with heq | ⟨p', hpath', hstep⟩
        · rw [heq] at hp
          exact absurd hp (by simp)
        · rcases flow_next hstep.1 with rfl | ⟨h0, -⟩
          · exact ih p' hpath' (by dsimp only at hp; omega) hr
          · omega
    have hat := hguard p.2 hm.le p hpath rfl hr
    have hnot : ¬ Defines fn (p.1, m) v := by
      obtain ⟨inst, hinst, r, hres, -⟩ := hr
      rintro (⟨h0, -⟩ | ⟨inst', hinst', hresult⟩)
      · have := (instAt_le hinst).1
        omega
      · obtain rfl := Option.some.inj (hinst.symm.trans hinst')
        rw [hv.guardResult _ inst hinst (opcode_of_resumeOf hres)] at hresult
        cases hresult
    have hread : (flow fn).Live v (p.1, m) := .step hnot (Or.inr hr) hlive
    exact hread.defined hstart hat

end Brass.Vm.BytecodeRegalloc
