import Brass.Codegen.LinearScanSteps

/-!
# Taking a register in use

`allocateBlocked` takes the register of other pieces. Every active piece that competes for a
register and meets the new piece is a holder to evict, or bounds the part of the new piece
that gets the register (`blocked_active`). After the evictions all of them are out of its way
(`evictHolders_yields`, `foldl_evictFrom`), so the round keeps the invariant
(`allocateBlocked_inv`).
-/

namespace Brass.Codegen

open ScanState List

namespace ScanData

variable {d : ScanData} {s t : ScanState} {i k q pos a : Nat} {r : PReg} {p : AllocPiece}
variable {wholeOnly : Bool} {b : Blocked}

/-! ## Holders and limits -/

/-- A register's limits only fall, and it only gets more holders, all of them active. -/
structure Blocked.Grows (b b' : Blocked) : Prop where
  length : b'.holders.length = b.holders.length
  hardQ : ∀ k, b'.hardQ.getD k 0 ≤ b.hardQ.getD k 0
  holders : ∀ k a, a ∈ b.holders.getD k [] → a ∈ b'.holders.getD k []

theorem mem_getD_modify_append (l : List (List Nat)) (n x k a : Nat) :
    (a ∈ l.getD k [] → a ∈ (l.modify n (· ++ [x])).getD k []) ∧
      (a ∈ (l.modify n (· ++ [x])).getD k [] → a ∈ l.getD k [] ∨ a = x) := by
  simp only [getD_eq_getElem?_getD, getElem?_modify]
  cases l[k]? with
  | none => simp
  | some xs =>
    by_cases hn : n = k
    · simp only [hn, if_true, Option.map_eq_map, Option.map_some, Option.getD_some,
        mem_append, mem_singleton]
      exact ⟨.inl, id⟩
    · simp only [hn, if_false, Option.getD_some]
      exact ⟨id, .inl⟩

theorem mem_modify_append (l : List (List Nat)) {n : Nat} (hn : n < l.length) (x : Nat) :
    x ∈ (l.modify n (· ++ [x])).getD n [] := by
  simp [getD_eq_getElem?_getD, getElem?_eq_getElem hn]

theorem addHolder_grows (b : Blocked) (a : Nat) : b.Grows (d.addHolder s p wholeOnly b a) := by
  have hrefl : b.Grows b := ⟨rfl, fun _ => Nat.le_refl _, fun _ _ h => h⟩
  unfold addHolder
  dsimp only
  split_ifs
  · exact hrefl
  · exact hrefl
  · exact ⟨length_modify .., fun _ => Nat.le_refl _,
      fun k x hx => (mem_getD_modify_append _ _ _ k x).1 hx⟩
  · exact ⟨length_modify .., fun _ => Nat.le_refl _,
      fun k x hx => (mem_getD_modify_append _ _ _ k x).1 hx⟩
  · exact ⟨rfl, fun k => (getD_modify_min_le _ _ _ k).1, fun _ _ h => h⟩
  · exact ⟨length_modify .., fun _ => Nat.le_refl _,
      fun k x hx => (mem_getD_modify_append _ _ _ k x).1 hx⟩

/-- The piece is a holder, or its first intersection bounds the register. -/
def Blocked.Sees (b : Blocked) (d : ScanData) (s : ScanState) (p : AllocPiece) (a : Nat) : Prop :=
  a ∈ b.holdersOf (s.piece a).reg ∨
    limitOf b.hardQ (s.piece a).reg ≤ d.firstIntersection (s.piece a) p

theorem addHolder_sees (hlen : b.holders.length = 32) (ha : d.Competes s p a)
    (hc : d.firstIntersection (s.piece a) p ≠ kNever) :
    (d.addHolder s p wholeOnly b a).Sees d s p a := by
  have hcode : (s.piece a).reg.code.toNat < b.holders.length := by
    rw [hlen]
    have := ha.2
    rwa [UInt8.lt_iff_toNat_lt] at this
  unfold addHolder
  dsimp only
  rw [if_neg (by simpa [ha.1] using ha.2), if_neg hc]
  split_ifs
  · exact .inl (mem_modify_append _ hcode a)
  · exact .inl (mem_modify_append _ hcode a)
  · exact .inr (getD_modify_min_le _ _ _ 0).2
  · exact .inl (mem_modify_append _ hcode a)

theorem addHolder_mem {x : Nat} (h : x ∈ (d.addHolder s p wholeOnly b a).holders.getD k []) :
    x ∈ b.holders.getD k [] ∨ x = a := by
  unfold addHolder at h
  dsimp only at h
  split_ifs at h
  · exact .inl h
  · exact .inl h
  · exact (mem_getD_modify_append _ _ _ k x).2 h
  · exact (mem_getD_modify_append _ _ _ k x).2 h
  · exact .inl h
  · exact (mem_getD_modify_append _ _ _ k x).2 h

theorem blocked_hardQ_le (k : Nat) : (d.blocked s p wholeOnly).hardQ.getD k 0 ≤
    limitBefore ((d.regLimits p).getD k 0) := by
  have hstart : ((d.regLimits p).map limitBefore).getD k 0 ≤
      limitBefore ((d.regLimits p).getD k 0) := by
    simp only [getD_eq_getElem?_getD, getElem?_map]
    cases (d.regLimits p)[k]? <;> simp
  exact foldlRecOn (motive := fun b : Blocked => b.hardQ.getD k 0 ≤
      limitBefore ((d.regLimits p).getD k 0)) _ _ hstart
    (fun b hb a _ => ((addHolder_grows b a).hardQ k).trans hb)

theorem blocked_holders_active {x : Nat} (h : x ∈ (d.blocked s p wholeOnly).holdersOf r) :
    x ∈ s.active := by
  have hall : ∀ k, ∀ x ∈ (d.blocked s p wholeOnly).holders.getD k [], x ∈ s.active := by
    refine foldlRecOn (motive := fun b : Blocked =>
      ∀ k, ∀ x ∈ b.holders.getD k [], x ∈ s.active) _ _ ?_ (fun b hb a ha k x hx => ?_)
    · intro k x hx
      rw [getD_eq_getElem?_getD, getElem?_replicate] at hx
      split at hx <;> simp at hx
    · rcases addHolder_mem hx with hx | rfl
      · exact hb k x hx
      · exact ha
  exact hall _ x h

theorem blocked_active (ha : a ∈ s.active) (hcomp : d.Competes s p a)
    (hc : d.firstIntersection (s.piece a) p ≠ kNever) :
    (d.blocked s p wholeOnly).Sees d s p a := by
  obtain ⟨pre, post, hact⟩ := append_of_mem ha
  unfold blocked
  dsimp only
  rw [hact, foldl_append, foldl_cons]
  refine foldlRecOn (motive := fun b : Blocked => b.Sees d s p a) _ _ ?_ ?_
  · refine addHolder_sees ?_ hcomp hc
    exact foldlRecOn (motive := fun b : Blocked => b.holders.length = 32) _ _ (by simp)
      (fun b hb a _ => (addHolder_grows b a).length.trans hb)
  · intro b hb x _
    have hgrows : b.Grows (d.addHolder s p wholeOnly b x) := addHolder_grows b x
    rcases hb with hb | hb
    · exact .inl (hgrows.holders _ a hb)
    · exact .inr ((hgrows.hardQ _).trans hb)

/-- A part of the piece that stops at the limit of a register is clear of instructions that
block it, and the register's other pieces are holders or out of its way. -/
theorem Ready.blocked (wf : d.WellFormed) (h : d.Ready pos i s)
    (hr : r ∈ d.available (d.vreg (s.piece i)).regClass) {p : AllocPiece} (hp : d.Windowed p)
    (hn : Narrower p (s.piece i))
    (hlim : p.stop ≤ limitOf (d.blocked s (s.piece i) wholeOnly).hardQ r) :
    d.Unblocked p r ∧ ∀ k, (s.piece k).inRegister = true → (s.piece k).reg = r →
      k ∈ (d.blocked s (s.piece i) wholeOnly).holdersOf r ∨
        ((s.piece k).stop ≤ pos ∨ d.Apart p (s.piece k)) := by
  have hwin := h.inv.windowed i h.lt
  refine ⟨unblocked_of_limit wf hwin hp hn hr (hlim.trans (blocked_hardQ_le _)),
    fun k hk hreg => ?_⟩
  rcases h.inv.holding k hk with hact | hstop
  · have hwin' := h.inv.windowed k (inRegister_lt hk)
    by_cases hc : d.firstIntersection (s.piece k) (s.piece i) = kNever
    · exact .inr (.inr ((apart_of_never wf hwin' hwin hc).symm.mono wf hn (Narrower.refl _)))
    · have hsees : (d.blocked s (s.piece i) wholeOnly).Sees d s (s.piece i) k :=
        blocked_active hact (h.inv.competes wf hr hk hreg) hc
      rw [Blocked.Sees, hreg] at hsees
      rcases hsees with hold | hle
      · exact .inl hold
      · exact .inr (.inr (apart_of_stop_le wf hwin' hwin hp hn (hlim.trans hle)).symm)
  · exact .inr (.inl hstop)

/-! ## Evicting holders -/

/-- Evictions one after the other: each takes registers away and gets its piece out of the way
of piece `i`. -/
theorem foldl_evict (wf : d.WellFormed) {f : ScanState → Nat → ScanState} {as : List Nat}
    (hstep : ∀ s a, a < s.pieces.length → (∀ k < s.pieces.length, d.Windowed (s.piece k)) →
      i < s.pieces.length → d.Yields pos s (f s a) ∧ d.OutOfWay pos i a (f s a))
    (has : ∀ a ∈ as, a < s.pieces.length) (hi : i < s.pieces.length)
    (hwin : ∀ k < s.pieces.length, d.Windowed (s.piece k)) :
    d.Yields pos s (as.foldl f s) ∧ ∀ a ∈ as, d.OutOfWay pos i a (as.foldl f s) := by
  induction as generalizing s with
  | nil => exact ⟨Yields.refl s, by simp⟩
  | cons a as ih =>
    obtain ⟨hy, hout⟩ := hstep s a (has a (by simp)) hwin hi
    have hlt := hy.length_le
    obtain ⟨hys, houts⟩ := ih (s := f s a)
      (fun x hx => Nat.lt_of_lt_of_le (has x (mem_cons_of_mem _ hx)) hlt)
      (Nat.lt_of_lt_of_le hi hlt) (hy.windowed hwin)
    refine ⟨hy.trans hys, fun x hx => ?_⟩
    rcases mem_cons.mp hx with rfl | hx
    · exact hout.yields wf hys (Nat.lt_of_lt_of_le hi hlt)
        (Nat.lt_of_lt_of_le (has x (by simp)) hlt)
    · exact houts x hx

theorem foldl_evictFrom (wf : d.WellFormed) {as : List Nat} (has : ∀ a ∈ as, a < s.pieces.length)
    (hi : i < s.pieces.length) (hwin : ∀ k < s.pieces.length, d.Windowed (s.piece k)) :
    d.Yields pos s (as.foldl (d.evictFrom pos) s) ∧
      ∀ a ∈ as, d.OutOfWay pos i a (as.foldl (d.evictFrom pos) s) := by
  refine foldl_evict wf (fun s a ha hwin _ => ?_) has hi hwin
  obtain ⟨hy, hgone⟩ := evictFrom_yields wf ha (hwin a ha)
  exact ⟨hy, hgone.imp id .inl⟩

theorem evictHolders_yields (wf : d.WellFormed) {as : List Nat}
    (has : ∀ a ∈ as, a < s.pieces.length) (hi : i < s.pieces.length)
    (hwin : ∀ k < s.pieces.length, d.Windowed (s.piece k)) :
    d.Yields pos s (d.evictHolders i pos s as) ∧
      ∀ a ∈ as, d.OutOfWay pos i a (d.evictHolders i pos s as) := by
  refine foldl_evict wf (fun s a ha hwin hi => ?_) has hi hwin
  split
  · obtain ⟨hy, hgone⟩ := evictFrom_yields wf ha (hwin a ha)
    exact ⟨hy, hgone.imp id .inl⟩
  · rename_i hmeet
    exact ⟨Yields.refl s, .inr (.inr
      (apart_of_never wf (hwin a ha) (hwin i hi) (not_not.mp hmeet)).symm)⟩

/-! ## Placing a piece over holders -/

theorem Ready.take (wf : d.WellFormed) (hy : d.Yields pos s t) (h : d.Ready pos i t)
    {holders : List Nat} (hold : ∀ a ∈ holders, a < s.pieces.length)
    (hr : r ∈ d.available (d.vreg (t.piece i)).regClass) (hfree : d.Unblocked (t.piece i) r)
    (hclear : ∀ k, (s.piece k).inRegister = true → (s.piece k).reg = r →
      k ∈ holders ∨ ((s.piece k).stop ≤ pos ∨ d.Apart (t.piece i) (s.piece k))) :
    d.Inv pos none (d.evictHolders i pos (t.assign i r) holders) := by
  have hassign := h.inv.assign h.lt h.taken hr
  have hlen : (t.assign i r).pieces.length = t.pieces.length := by simp [ScanState.assign]
  have hself : (t.assign i r).piece i = { t.piece i with reg := r, spilled := false } := by
    rw [piece_assign, if_pos ⟨rfl, h.lt⟩]
  have hi' : i < (t.assign i r).pieces.length := hlen ▸ h.lt
  have hold' : ∀ a ∈ holders, a < (t.assign i r).pieces.length :=
    fun a ha => hlen ▸ Nat.lt_of_lt_of_le (hold a ha) hy.length_le
  obtain ⟨hev, hout⟩ := @evictHolders_yields d (t.assign i r) i pos wf holders hold' hi'
    hassign.windowed
  have hinv := hassign.yields wf hev
  generalize d.evictHolders i pos (t.assign i r) holders = u at hev hout hinv ⊢
  have hn := hev.narrower i hi'
  have hwin := hinv.windowed i (Nat.lt_of_lt_of_le hi' hev.length_le)
  have hreg : (u.piece i).inRegister = true → (u.piece i).reg = r := by
    intro hu
    rw [(hev.reg i hi' hu).2, hself]
  have hpos : pos ≤ (u.piece i).start := by
    have hstart := hev.start_le i hi'
    rw [hself] at hstart
    exact h.start ▸ hstart
  rw [hself] at hn
  refine hinv.placed (fun hui k hk huk hsame => ?_) (fun hui => ?_)
  · rw [hreg hui] at hsame
    have hk' : k < (t.assign i r).pieces.length := by
      by_contra hge
      rw [hev.fresh k (Nat.le_of_not_lt hge)] at huk
      cases huk
    obtain ⟨hak, har⟩ := hev.reg k hk' huk
    have hother : (t.assign i r).piece k = t.piece k := by
      rw [piece_assign, if_neg (fun he => hk he.1.symm)]
    rw [hother] at hak har
    have hks : k < s.pieces.length := by
      by_contra hge
      rw [hy.fresh k (Nat.le_of_not_lt hge)] at hak
      cases hak
    obtain ⟨hsk, hsr⟩ := hy.reg k hks hak
    have houtk : d.OutOfWay pos i k u := by
      rcases hclear k hsk (hsr ▸ har ▸ hsame) with hold' | hfree'
      · exact hout k hold'
      · have hass : d.OutOfWay pos i k (t.assign i r) := by
          have := outOfWay_of_yields wf hy hak hfree'
          rw [OutOfWay] at this ⊢
          rw [hother, hself]
          exact this
        exact hass.yields wf hev hi' hk'
    exact houtk.cleared (hinv.windowed k (inRegister_lt huk)) hwin hpos huk
  · rw [hreg hui]
    exact hfree.mono wf ⟨hn.base, hn.from_le, hn.to_le⟩

theorem takeRegister_inv (wf : d.WellFormed) (h : d.Ready pos i s)
    {first : Nat} {best : PReg} (hr : best ∈ d.available (d.vreg (s.piece i)).regClass) :
    d.Inv pos none (d.takeRegister s i (d.blocked s (s.piece i) false) first best) := by
  have hwin := h.inv.windowed i h.lt
  have hold : ∀ a ∈ (d.blocked s (s.piece i) false).holdersOf best, a < s.pieces.length :=
    fun a ha => h.inv.active_lt a (blocked_holders_active ha)
  unfold takeRegister
  dsimp only
  generalize hhard : limitOf (d.blocked s (s.piece i) false).hardQ best = hard
  split
  · generalize hq : (if hard > first then d.splitPosition (first + 1) hard else kNever) = q
    split
    · exact h.inv.yields wf (spillAndRequeue_yields wf h.lt hwin _)
    · -- the part up to the split takes the register
      rename_i hno
      simp only [not_or, Nat.not_le] at hno
      obtain ⟨hne, h₁, h₂⟩ := hno
      have hle : q ≤ hard := by
        split at hq
        · exact hq ▸ splitPosition_le wf (hq ▸ hne)
        · exact absurd hq.symm hne
      have hy := h.split_yields wf h₁ h₂
      have hs := h.split wf h₁ h₂
      obtain ⟨hlt, hact, hne', hreg⟩ := h.split_right wf h₁ h₂
      have hn := hy.narrower i h.lt
      obtain ⟨hfree, hclear⟩ := h.blocked wf hr (hs.inv.windowed i hs.lt) hn
        ((splitPiece_stop_le h.lt).trans (hhard ▸ hle))
      have hready : d.Ready pos i ((d.splitPiece s i q).2.pushUnhandled s.pieces.length) :=
        ⟨hs.inv.push hlt hact hreg, hs.lt, fun hin => by
          rcases mem_append.mp hin with hin | hin
          · exact hs.taken hin
          · exact hne' (mem_singleton.mp hin).symm, hs.idle, hs.start⟩
      have hpool : best ∈ d.available (d.vreg ((d.splitPiece s i q).2.piece i)).regClass := by
        rw [vreg, hn.base]
        exact hr
      rw [h.start]
      exact Ready.take wf (hy.push (Nat.le_refl _) hlt) hready hold hpool hfree hclear
  · rename_i hlim
    obtain ⟨hfree, hclear⟩ := h.blocked wf hr hwin (Narrower.refl _) (hhard ▸ Nat.le_of_not_lt hlim)
    rw [h.start]
    exact Ready.take wf (Yields.refl s) h hold hr hfree hclear

theorem cheapestWhole_some {regs : List PReg} {cost : Nat}
    (h : cheapestWhole b regs p cost = some r) : r ∈ regs ∧ p.stop ≤ limitOf b.hardQ r := by
  have hall : ∀ x, cheapestWhole b regs p cost = some x → x ∈ regs ∧ p.stop ≤ limitOf b.hardQ x := by
    unfold cheapestWhole
    refine foldlRecOn (motive := fun c : Option PReg × Nat =>
      ∀ x, c.1 = some x → x ∈ regs ∧ p.stop ≤ limitOf b.hardQ x) _ _ (by simp)
      (fun c hc r hr => ?_)
    split
    · exact hc
    · rename_i hlim
      split
      · intro x hx
        cases hx
        exact ⟨hr, Nat.le_of_not_lt hlim⟩
      · exact hc
  exact hall r h

theorem considerRegister_mem {regs : List PReg} {w : Wish} {own : Nat}
    (h : (regs.foldl (d.considerRegister s p b w own) {}).best = some r) : r ∈ regs := by
  have hall : ∀ x, (regs.foldl (d.considerRegister s p b w own) {}).best = some x → x ∈ regs := by
    refine foldlRecOn (motive := fun c : Choice => ∀ x, c.best = some x → x ∈ regs) _ _
      (by simp) (fun c hc r hr => ?_)
    unfold considerRegister
    dsimp only
    split_ifs
    · exact hc
    · exact hc
    · intro x hx
      cases hx
      exact hr
    · exact hc
  exact hall r h

theorem allocateBlocked_inv (wf : d.WellFormed) (h : d.Ready pos i s) :
    d.Inv pos none (d.allocateBlocked s i) := by
  have hwin := h.inv.windowed i h.lt
  have hspill : ∀ after, d.Inv pos none (d.spillAndRequeue s i after) :=
    fun after => h.inv.yields wf (spillAndRequeue_yields wf h.lt hwin after)
  unfold allocateBlocked
  dsimp only
  split
  · split
    · exact h.inv.yields wf (spill_yields s i)
    · -- a whole life in the register, its holders evicted before
      rename_i best hbest
      obtain ⟨hmem, hlim⟩ := cheapestWhole_some hbest
      have hpool := candidate_mem wf hmem
      rw [h.start]
      have hold : ∀ a ∈ (d.blocked s (s.piece i) true).holdersOf best, a < s.pieces.length :=
        fun a ha => h.inv.active_lt a (blocked_holders_active ha)
      obtain ⟨hy, hout⟩ := @foldl_evictFrom d s i pos wf _ hold h.lt h.inv.windowed
      have hinv := h.inv.yields wf hy
      generalize ((d.blocked s (s.piece i) true).holdersOf best).foldl (d.evictFrom pos) s = t
        at hy hout hinv ⊢
      have hn := hy.narrower i h.lt
      have hlt := Nat.lt_of_lt_of_le h.lt hy.length_le
      obtain ⟨hfree, hclear⟩ := h.blocked wf hpool (hinv.windowed i hlt) hn
        ((hy.stop_le i h.lt).trans hlim)
      refine hinv.place hlt (fun hin => ?_) ?_ (h.start ▸ hy.start_le i h.lt) hfree
        (fun k _ hk hreg => ?_)
      · rcases hy.waiting i hin with hin | hin
        · exact h.taken hin
        · exact absurd h.lt (Nat.not_lt.mpr hin.1)
      · rw [vreg, hn.base]
        exact hpool
      · have hks : k < s.pieces.length := by
          by_contra hge
          rw [hy.fresh k (Nat.le_of_not_lt hge)] at hk
          cases hk
        obtain ⟨hsk, hsr⟩ := hy.reg k hks hk
        rcases hclear k hsk (hsr ▸ hreg) with hold | hfree'
        · exact hout k hold
        · exact outOfWay_of_yields wf hy hk hfree'
  · split
    · exact hspill _
    · rename_i best hbest
      split_ifs
      · exact hspill _
      · exact hspill _
      · exact takeRegister_inv wf h (candidate_mem wf (considerRegister_mem hbest))

/-! ## A round -/

theorem nextPiece_mem (h : nextPiece s = some i) : i ∈ s.unhandled := by
  unfold nextPiece at h
  split at h
  · cases h
  · rename_i j rest heq
    cases h
    rw [heq]
    refine foldlRecOn (motive := fun m => m ∈ j :: rest) _ _ (by simp) (fun m hm k hk => ?_)
    split
    · exact mem_cons_of_mem _ hk
    · exact hm

theorem scanStep_inv (wf : d.WellFormed) (h : d.Inv pos none s) (hi : nextPiece s = some i)
    (hpos : pos ≤ (s.piece i).start) (ht : d.scanStep s = some t) :
    d.Inv (s.piece i).start none t := by
  obtain ⟨hlt, hidle, hreg⟩ := h.waiting i (nextPiece_mem hi)
  unfold scanStep at ht
  rw [hi, Option.map_some, Option.some.injEq] at ht
  dsimp only at ht
  set u : ScanState := { s with
    unhandled := s.unhandled.filter (· ≠ i)
    active := s.active.filter (fun a => ¬ (s.piece a).stop ≤ (s.piece i).start) } with hu
  have hready : d.Ready (s.piece i).start i u := by
    refine ⟨⟨h.windowed, h.apart, h.unblocked, h.pool, fun k hk => ?_, fun k hk => ?_,
      fun k hk => ?_⟩, hlt, by simp [hu], fun hin => hidle (mem_filter.mp hin).1, rfl⟩
    · by_cases hstop : (s.piece k).stop ≤ (s.piece i).start
      · exact .inr hstop
      · rcases h.holding k hk with hact | hle
        · exact .inl (mem_filter.mpr ⟨hact, by simpa using hstop⟩)
        · exact absurd (hle.trans hpos) hstop
    · exact h.active_lt k (mem_filter.mp hk).1
    · obtain ⟨hlt', hact, hreg'⟩ := h.waiting k (mem_filter.mp hk).1
      exact ⟨hlt', fun hin => hact (mem_filter.mp hin).1, hreg'⟩
  split at ht
  · subst ht
    exact hready.inv.yields wf (spill_yields u i)
  · split at ht
    · rename_i t' htry
      subst ht
      exact tryAllocateFree_inv wf hready htry
    · subst ht
      exact allocateBlocked_inv wf hready

end ScanData

end Brass.Codegen
