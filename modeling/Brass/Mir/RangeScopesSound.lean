import Brass.Mir.RangeLog

/-!
# Queries answer what copies of the scope would

The walk with rollbacks goes on beside one that copies the ranges in scope at every block
(`Beside`): both have the same ranges in scope, the log has what each block has refined, and a
block is in the subtree of another one exactly when that one dominates it. So the last write in
effect at a block is that of its nearest dominator (`run_rangeAt`).
-/

namespace Brass.Mir

open Option Pass3

open Function (update update_of_ne update_self)

open Brass.Util Brass.Util.LinkedLog List

variable {F : RangeFunction} {blockRanges : Nat → List (Nat × ValueRange)} {globalRanges : Ranges}
  {path : List Nat} {visited : Nat → Prop} {s : Pass3} {c : ScopeCopies} {b t u v n m i : Nat}

/-- Undoing the rollbacks one after the other goes back through the copies. -/
def Restores : List (List (Nat × Option ValueRange)) → List Ranges → Prop
  | [], scopes => ∃ ranges, scopes = [ranges]
  | rollback :: rollbacks, ranges :: scopes =>
    Scope.undo ranges rollback = scopes.headD (fun _ => none) ∧ Restores rollbacks scopes
  | _ :: _, [] => False

structure Numbered (F : RangeFunction) (path : List Nat) (visited : Nat → Prop) (s : Pass3) :
    Prop where
  isPath : IsPath F.dom.children path
  nodup : path.Nodup
  pathVisited : ∀ x ∈ path, visited x
  upward : ∀ u v, v ∈ F.dom.children u → visited v → visited u
  visit : ∀ b, visited b ↔ (s.visit b).isSome
  lt : ∀ b n, s.visit b = some n → n < s.subtreeEnd.length
  inj : ∀ b b' n, s.visit b = some n → s.visit b' = some n → b = b'
  ends : ∀ n last, s.ends n = some last → last < s.subtreeEnd.length
  inEffect : ∀ b t n m, s.visit b = some n → s.visit t = some m →
    (InEffect s.ends n m ↔ TreeWalk.Under F.dom.children b t)
  opened : ∀ b n, s.visit b = some n → (s.ends n = none ↔ b ∈ path)

structure Beside (F : RangeFunction) (path : List Nat) (visited : Nat → Prop)
    (p : Pass3 × ScopeCopies) : Prop where
  numbered : Numbered F path visited p.1
  currentRanges : p.1.currentRanges = p.2.scopes.headD (fun _ => none)
  globalRanges : p.1.globalRanges = p.2.globalRanges
  depth : p.1.rollbacks.length = path.length
  restores : Restores p.1.rollbacks p.2.scopes
  log : p.1.Log
  written : ∀ v n r, p.1.Written v n r ↔
    ∃ b, p.1.visit b = some n ∧ p.2.refined b v = true ∧ p.2.scopeAt b v = some r
  refined : ∀ b v, p.2.refined b v = true → (p.2.scopeAt b v).isSome

/-! ## Entering a block -/

theorem ends_enter (s : Pass3) (n : Nat) : (s.subtreeEnd ++ [none]).getD n none = s.ends n := by
  unfold ends
  rw [getD_eq_getElem?_getD, getD_eq_getElem?_getD]
  rcases Nat.lt_trichotomy n s.subtreeEnd.length with hlt | rfl | hgt
  · rw [getElem?_append_left hlt]
  · rw [getElem?_append_right (Nat.le_refl _), Nat.sub_self, getElem?_eq_none (Nat.le_refl _)]
    rfl
  · rw [getElem?_eq_none (by rw [length_append, length_singleton]; omega),
      getElem?_eq_none (by omega)]

theorem ends_none (h : s.subtreeEnd.length ≤ n) : s.ends n = none := by
  rw [ends, getD_eq_getElem?_getD, getElem?_eq_none h]
  rfl

theorem Numbered.visited_of_under (h : Numbered F path visited s)
    (hbt : TreeWalk.Under F.dom.children b t) (ht : visited t) : visited b := by
  induction hbt with
  | refl => exact ht
  | tail _ hstep ih => exact ih (h.upward _ _ hstep ht)

/-- A block is entered under the head of the path, with a number after all others. -/
theorem Numbered.enter {s' : Pass3} (h : Numbered F path visited s)
    (hnew : ¬ visited v)
    (hpath : TreeWalk.EnteredAt F.dom.children [0] path v)
    (hvisit : s'.visit = update s.visit v (some s.subtreeEnd.length))
    (hend : s'.subtreeEnd = s.subtreeEnd ++ [none]) :
    Numbered F (v :: path) (fun x => x = v ∨ visited x) s' := by
  have hends : s'.ends = s.ends := by
    funext n
    rw [Pass3.ends, hend, ends_enter]
  have hlen : s'.subtreeEnd.length = s.subtreeEnd.length + 1 := by
    rw [hend, length_append, length_singleton]
  have hcases : ∀ b n, s'.visit b = some n →
      b = v ∧ n = s.subtreeEnd.length ∨ b ≠ v ∧ s.visit b = some n := by
    intro b n hb
    rw [hvisit] at hb
    by_cases hbv : b = v
    · subst hbv
      rw [update_self, some.injEq] at hb
      exact .inl ⟨rfl, hb.symm⟩
    · rw [update_of_ne hbv] at hb
      exact .inr ⟨hbv, hb⟩
  have hnext := IsPath.cons F.built h.isPath hpath
  have hup : ∀ x, x ∈ v :: path ↔ TreeWalk.Under F.dom.children x v := hnext.1
  have hvnone : s.visit v = none := by
    rw [← not_isSome_iff_eq_none, ← h.visit]
    exact hnew
  refine ⟨hnext, nodup_cons.mpr ⟨fun hv => hnew (h.pathVisited v hv), h.nodup⟩,
    fun x hx => ?_, fun u w hw hvis => ?_, fun b => ?_,
    fun b n hb => ?_, fun b b' n hb hb' => ?_, fun n last hn => ?_, fun b t n m hb ht => ?_,
    fun b n hb => ?_⟩
  · exact (mem_cons.mp hx).imp_right (h.pathVisited x)
  · rcases hvis with rfl | hvis
    · rcases mem_cons.mp ((hup u).mpr (.single hw)) with rfl | hu
      · exact .inl rfl
      · exact .inr (h.pathVisited u hu)
    · exact .inr (h.upward u w hw hvis)
  · rw [hvisit]
    by_cases hbv : b = v
    · rw [hbv, update_self]
      exact iff_of_true (.inl rfl) rfl
    · rw [update_of_ne hbv, ← h.visit]
      exact or_iff_right hbv
  · rcases hcases b n hb with ⟨-, rfl⟩ | ⟨-, hb⟩
    · omega
    · have := h.lt b n hb
      omega
  · rcases hcases b n hb with ⟨rfl, rfl⟩ | ⟨-, hb⟩
    · rcases hcases b' _ hb' with ⟨rfl, -⟩ | ⟨-, hb'⟩
      · rfl
      · exact absurd (h.lt b' _ hb') (Nat.lt_irrefl _)
    · rcases hcases b' n hb' with ⟨-, rfl⟩ | ⟨-, hb'⟩
      · exact absurd (h.lt b _ hb) (Nat.lt_irrefl _)
      · exact h.inj b b' n hb hb'
  · rw [hends] at hn
    have := h.ends n last hn
    omega
  · rw [hends]
    rcases hcases t m ht with ⟨rfl, rfl⟩ | ⟨htv, ht⟩
    · rw [← hup b]
      rcases hcases b n hb with ⟨rfl, rfl⟩ | ⟨hbv, hb⟩
      · refine iff_of_true ⟨Nat.le_refl _, fun last hlast => ?_⟩ mem_cons_self
        rw [ends_none (Nat.le_refl _)] at hlast
        cases hlast
      · rw [mem_cons, or_iff_right hbv, ← h.opened b n hb]
        have hnlt := h.lt b n hb
        constructor
        · intro hin
          refine eq_none_iff_forall_ne_some.mpr fun last hlast => ?_
          have := hin.2 last hlast
          have := h.ends n last hlast
          omega
        · intro hnone
          refine ⟨Nat.le_of_lt hnlt, fun last hlast => ?_⟩
          rw [hnone] at hlast
          cases hlast
    · rcases hcases b n hb with ⟨rfl, rfl⟩ | ⟨-, hb⟩
      · have hmlt := h.lt t m ht
        exact iff_of_false (fun hin => absurd hin.1 (by omega)) fun hbt =>
          hnew (h.visited_of_under hbt ((h.visit t).mpr (by rw [ht]; rfl)))
      · exact h.inEffect b t n m hb ht
  · rw [hends]
    rcases hcases b n hb with ⟨rfl, rfl⟩ | ⟨hbv, hb⟩
    · exact iff_of_true (ends_none (Nat.le_refl _)) mem_cons_self
    · rw [h.opened b n hb, mem_cons, or_iff_right hbv]

theorem Beside.enter {p : Pass3 × ScopeCopies} (h : Beside F path visited p)
    (hnew : ¬ visited v) (hpath : TreeWalk.EnteredAt F.dom.children [0] path v) :
    Beside F (v :: path) (fun x => x = v ∨ visited x)
      (p.1.enter F blockRanges v, p.2.enter F blockRanges v) := by
  obtain ⟨s, c⟩ := p
  obtain ⟨hnum, hcur, hglobal, hdepth, hrestores, hlog, hwritten, hrefined⟩ := h
  have hsame := enter_scopes F blockRanges s v
  have hsets : Scope.Sets { ranges := s.currentRanges, rollback := [] }
      (F.enterDominatorBlock blockRanges s.globalRanges v s.currentRanges).1 :=
    RangeFunction.sets_enterDominatorBlock v
  simp only at hcur hglobal hdepth hrestores hlog hwritten hrefined hsame
  have hnum' := hnum.enter hnew hpath hsame.visit hsame.subtreeEnd
  have hcopy : c.enter F blockRanges v =
      { scopes := (F.enterDominatorBlock blockRanges s.globalRanges v s.currentRanges).1.ranges ::
          c.scopes
        globalRanges := (F.enterDominatorBlock blockRanges s.globalRanges v s.currentRanges).2
        scopeAt := update c.scopeAt v
          (F.enterDominatorBlock blockRanges s.globalRanges v s.currentRanges).1.ranges
        refined := update c.refined v fun u =>
          (F.enterDominatorBlock blockRanges s.globalRanges v s.currentRanges).1.rollback.any
            (·.1 == u) } := by
    rw [ScopeCopies.enter, ← hcur, ← hglobal]
  -- The state before the block writes to the log.
  obtain ⟨s₁, hs₁⟩ : ∃ s₁ : Pass3, s₁ = { s with
      currentRanges := (F.enterDominatorBlock blockRanges s.globalRanges v s.currentRanges).1.ranges
      globalRanges := (F.enterDominatorBlock blockRanges s.globalRanges v s.currentRanges).2
      rollbacks := (F.enterDominatorBlock blockRanges s.globalRanges v
        s.currentRanges).1.rollback :: s.rollbacks
      visit := update s.visit v (some s.subtreeEnd.length)
      subtreeEnd := s.subtreeEnd ++ [none] } := ⟨_, rfl⟩
  have hbase : s₁.Log := by
    subst hs₁
    refine hlog.congr rfl rfl (by simp) fun a b _ _ => ?_
    have hends : ends { s with subtreeEnd := s.subtreeEnd ++ [none] } = s.ends :=
      funext fun n => ends_enter s n
    exact Iff.of_eq (congrArg (fun e => InEffect e a b) hends)
  have hnewest : s₁.Newest s.subtreeEnd.length := by
    subst hs₁
    exact ⟨by simp, (ends_enter s _).trans (ends_none (Nat.le_refl _)),
      fun b last hb => hnum.ends b last ((ends_enter s b).symm.trans hb)⟩
  subst hs₁
  obtain ⟨hlog', hspec⟩ := stageScope_spec hbase hnewest fun u => (Scope.ranges_of_sets hsets u).1
  refine ⟨hnum', ?_, ?_, ?_, ?_, hlog', fun u m r => ?_, fun b u hb => ?_⟩
  · rw [hcopy]
    exact hsame.currentRanges
  · rw [hcopy]
    exact hsame.globalRanges
  · rw [hsame.rollbacks]
    simp [hdepth]
  · rw [hcopy, hsame.rollbacks]
    exact ⟨(Scope.undo_of_sets hsets).trans hcur, hrestores⟩
  · rw [hcopy]
    refine (hspec u m r).trans ?_
    show _ ↔ ∃ b, (s.enter F blockRanges v).visit b = some m ∧ _
    rw [hsame.visit]
    dsimp only
    have hother : ∀ b, b ≠ v → (update s.visit v (some s.subtreeEnd.length) b = s.visit b) :=
      fun b hb => update_of_ne hb ..
    by_cases hm : m = s.subtreeEnd.length
    · subst hm
      have hnone : ∀ b, s.visit b ≠ some s.subtreeEnd.length := fun b hb =>
        Nat.lt_irrefl _ (hnum.lt b _ hb)
      have honly : ∀ b, update s.visit v (some s.subtreeEnd.length) b =
          some s.subtreeEnd.length ↔ b = v := by
        intro b
        by_cases hb : b = v
        · rw [hb, update_self]
          exact iff_of_true rfl rfl
        · rw [hother b hb]
          exact iff_of_false (hnone b) hb
      simp only [honly, exists_eq_left, update_self, and_true]
      split
      · rename_i hany
        rw [and_iff_right hany]
      · rename_i hany
        refine iff_of_false (fun hw => ?_) fun hand => hany hand.1
        obtain ⟨b, hb, -⟩ := (hwritten u _ r).mp hw
        exact hnone b hb
    · rw [if_neg fun hand => hm hand.2]
      refine (hwritten u m r).trans ⟨?_, ?_⟩
      · rintro ⟨b, hb, hrest⟩
        have hbv : b ≠ v := by
          rintro rfl
          exact hnew ((hnum.visit b).mpr (by rw [hb]; rfl))
        refine ⟨b, (hother b hbv).trans hb, ?_⟩
        rwa [update_of_ne hbv, update_of_ne hbv]
      · rintro ⟨b, hb, hrest⟩
        have hbv : b ≠ v := by
          rintro rfl
          rw [update_self, some.injEq] at hb
          exact hm hb.symm
        rw [hother b hbv] at hb
        rw [update_of_ne hbv, update_of_ne hbv] at hrest
        exact ⟨b, hb, hrest⟩
  · rw [hcopy] at hb ⊢
    dsimp only at hb ⊢
    by_cases hbv : b = v
    · subst hbv
      rw [update_self] at hb ⊢
      exact (Scope.ranges_of_sets hsets u).1 hb
    · rw [update_of_ne hbv] at hb ⊢
      exact hrefined b u hb

/-! ## Leaving a block -/

theorem ends_leave (h : n < s.subtreeEnd.length) (hv : s.visit v = some n) :
    (s.leave v).ends = update s.ends n (some (s.subtreeEnd.length - 1)) := by
  funext k
  simp only [ends, leave, hv, getD_some, getD_eq_getElem?_getD, getElem?_set]
  by_cases hk : n = k
  · subst hk
    rw [if_pos rfl, if_pos h, update_self]
    rfl
  · rw [if_neg hk, update_of_ne (Ne.symm hk), ends, getD_eq_getElem?_getD]

theorem inEffect_leave (h : n < s.subtreeEnd.length) (hv : s.visit v = some n)
    (hopen : s.ends n = none) (hm : m < s.subtreeEnd.length) :
    InEffect (s.leave v).ends i m ↔ InEffect s.ends i m := by
  rw [ends_leave h hv]
  unfold InEffect
  refine and_congr_right fun _ => ?_
  by_cases hi : i = n
  · subst hi
    rw [update_self, hopen]
    refine iff_of_true (fun last hlast => ?_) fun last hlast => ?_
    · rw [mem_some_iff] at hlast
      omega
    · cases hlast
  · rw [update_of_ne hi]

theorem Numbered.leave (h : Numbered F (v :: path) visited s) :
    Numbered F path visited (s.leave v) := by
  obtain ⟨n, hn⟩ := isSome_iff_exists.mp ((h.visit v).mp (h.pathVisited v mem_cons_self))
  have hlt := h.lt v n hn
  have hopen := (h.opened v n hn).mpr mem_cons_self
  obtain ⟨hvp, hnodup⟩ := nodup_cons.mp h.nodup
  have hlen : (s.leave v).subtreeEnd.length = s.subtreeEnd.length := by
    rw [Pass3.leave, length_set]
  refine ⟨h.isPath.2, hnodup, fun x hx => h.pathVisited x (mem_cons_of_mem _ hx), h.upward,
    h.visit, fun b k hb => hlen ▸ h.lt b k hb, h.inj, fun k last hk => ?_, fun b t k m hb ht => ?_,
    fun b k hb => ?_⟩
  · rw [ends_leave hlt hn] at hk
    by_cases hkn : k = n
    · rw [hkn, update_self, some.injEq] at hk
      omega
    · rw [update_of_ne hkn] at hk
      exact hlen ▸ h.ends k last hk
  · rw [inEffect_leave hlt hn hopen (h.lt t m ht)]
    exact h.inEffect b t k m hb ht
  · rw [ends_leave hlt hn]
    by_cases hkn : k = n
    · subst hkn
      obtain rfl := h.inj b v k hb hn
      rw [update_self]
      exact iff_of_false (fun hnone => by cases hnone) hvp
    · rw [update_of_ne hkn, h.opened b k hb, mem_cons, or_iff_right]
      rintro rfl
      exact hkn (some.inj (hb.symm.trans hn))

theorem Beside.leave {p : Pass3 × ScopeCopies} (h : Beside F (v :: path) visited p) :
    Beside F path visited (p.1.leave v, p.2.leave v) := by
  obtain ⟨s, c⟩ := p
  obtain ⟨hnum, hcur, hglobal, hdepth, hrestores, hlog, hwritten, hrefined⟩ := h
  obtain ⟨n, hn⟩ := isSome_iff_exists.mp ((hnum.visit v).mp (hnum.pathVisited v mem_cons_self))
  have hlt := hnum.lt v n hn
  have hopen := (hnum.opened v n hn).mpr mem_cons_self
  simp only at hcur hglobal hdepth hrestores hlog hwritten
  refine ⟨hnum.leave, ?_, hglobal, ?_, ?_, ?_, hwritten, hrefined⟩
  all_goals
    unfold Pass3.leave
    try unfold ScopeCopies.leave
  · cases hr : s.rollbacks with
    | nil =>
      rw [hr] at hdepth
      cases hdepth
    | cons rollback rollbacks =>
      rw [hr] at hrestores
      cases hc : c.scopes with
      | nil =>
        rw [hc] at hrestores
        exact hrestores.elim
      | cons ranges scopes =>
        rw [hc] at hrestores hcur
        dsimp only
        rw [hcur]
        exact hrestores.1
  · dsimp only
    rw [length_tail, hdepth]
    rfl
  · dsimp only
    cases hr : s.rollbacks with
    | nil =>
      rw [hr] at hdepth
      cases hdepth
    | cons rollback rollbacks =>
      rw [hr] at hrestores
      cases hc : c.scopes with
      | nil =>
        rw [hc] at hrestores
        exact hrestores.elim
      | cons ranges scopes =>
        rw [hc] at hrestores
        exact hrestores.2
  · exact hlog.congr rfl rfl (by rw [length_set]) fun a b _ hb =>
      inEffect_leave hlt hn hopen hb

/-! ## The whole walk -/

theorem beside_init (F : RangeFunction) (globalRanges : Ranges) :
    Beside F [] (fun _ => False) (.init globalRanges, .init globalRanges) := by
  have hnumbered : Numbered F [] (fun _ => False) (.init globalRanges) := by
    refine ⟨trivial, nodup_nil, fun x hx => absurd hx not_mem_nil, fun _ _ _ h => h,
      fun b => ?_, fun b n hb => ?_, fun b b' n hb => ?_, fun n last hn => ?_,
      fun b t n m hb => ?_, fun b n hb => ?_⟩
    · exact iff_of_false id (by simp [init])
    · cases hb
    · cases hb
    · cases hn
    · cases hb
    · cases hb
  refine ⟨hnumbered, rfl, rfl, rfl, ⟨globalRanges, rfl⟩, ⟨fun v => ?_, fun v i b l hi => ?_,
    fun v => ⟨fun i j b b' l l' _ hi => ?_, fun i b l hi => ?_⟩⟩, fun v n r => ?_, fun b v hb => ?_⟩
  · exact fun i hi => by cases hi
  · cases hi
  · cases hi
  · cases hi
  · refine iff_of_false ?_ ?_
    · rintro ⟨i, l, hi⟩
      cases hi
    · rintro ⟨b, hb, -⟩
      cases hb
  · cases hb

theorem exists_beside (F : RangeFunction) (blockRanges : Nat → List (Nat × ValueRange))
    (globalRanges : Ranges) :
    ∃ s c, Beside F [] (fun b => Search.Reaches F.cfg.next 0 b) (s, c) ∧
      s.currentRanges = globalRanges ∧ ∃ n, ∀ fuel, n ≤ fuel →
        TreeWalk.walkFrom F.dom.children (enter F blockRanges) leave fuel 0
          (.init globalRanges) = some s ∧
        TreeWalk.walkFrom F.dom.children (ScopeCopies.enter F blockRanges) ScopeCopies.leave fuel 0
          (.init globalRanges) = some c := by
  obtain ⟨rank, htree⟩ := F.built.isTree
  obtain ⟨s, hs, n₁, hrun₁⟩ := @TreeWalk.walkFrom_spec _ _ F.dom.children _
    (enter F blockRanges) leave htree.rank_lt 0 (.init globalRanges)
  obtain ⟨c, hc, n₂, hrun₂⟩ := @TreeWalk.walkFrom_spec _ _ F.dom.children _
    (ScopeCopies.enter F blockRanges) ScopeCopies.leave htree.rank_lt 0 (.init globalRanges)
  refine ⟨s, c, ?_, (walks_scopes hs).1, n₁ + n₂, fun fuel hfuel =>
    ⟨hrun₁ fuel (by omega), hrun₂ fuel (by omega)⟩⟩
  exact F.built.visits (P := Beside F) (fun path visited p v hp hnew hpath => hp.enter hnew hpath)
    (fun path visited p v hp => hp.leave) (hs.prod hc) (beside_init F globalRanges)

theorem Beside.dominates_iff {visited : Nat → Prop} (h : Beside F path visited (s, c))
    (hn : s.visit b = some n) (ht : s.visit t = some m) (hreach : Search.Reaches F.cfg.next 0 t) :
    InEffect s.ends n m ↔ F.dom.dominates b t = true := by
  rw [h.numbered.inEffect b t n m hn ht, F.built.dominates_iff_under hreach]

/-- The write that is found for a reachable block is that of its nearest dominator. -/
theorem Beside.rangeAt {a : RangeAnalysis} {fallback : ValueRange}
    (h : Beside F [] (fun b => Search.Reaches F.cfg.next 0 b) (s, c)) (ha : a.Answers s)
    (ht : s.visit b = some t) (hb : Search.Reaches F.cfg.next 0 b) {r : ValueRange}
    (hr : r = match (a.climb (a.writes v) t).bind ((a.writes v)[·]?) with
      | some e => e.range
      | none => fallback) :
    (∃ d, c.Nearest F.dom v b d ∧ c.scopeAt d v = some r) ∨
      (∀ d, F.dom.dominates d b = true → c.refined d v = false) ∧ r = fallback := by
  have hfind := ha.find_spec h.log v t
  -- A dominator that has refined the value has a write that is in effect.
  have hover : ∀ d, F.dom.dominates d b = true → c.refined d v = true →
      ∃ n q, s.visit d = some n ∧ s.Written v n q ∧ InEffect s.ends n t := by
    intro d hd hrefined
    have hunder := (F.built.dominates_iff_under hb).mp hd
    have hdreach : Search.Reaches F.cfg.next 0 d :=
      Dominance.reaches_of_dominates hb ((F.built.under_iff hb).mp hunder)
    obtain ⟨n, hn⟩ := isSome_iff_exists.mp ((h.numbered.visit d).mp hdreach)
    obtain ⟨q, hq⟩ := isSome_iff_exists.mp (h.refined d v hrefined)
    exact ⟨n, q, hn, (h.written v n q).mpr ⟨d, hn, hrefined, hq⟩, (h.dominates_iff hn ht hb).mpr hd⟩
  split at hr
  · rename_i e he
    rw [he] at hfind
    obtain ⟨hwritten, hin, hmax⟩ := hfind
    obtain ⟨d, hd, hrefined, hscope⟩ := (h.written v _ _).mp hwritten
    have hdb := (h.dominates_iff hd ht hb).mp hin
    refine .inl ⟨d, ⟨hdb, hrefined, fun e' he' hrefined' => ?_⟩, by rw [hscope, hr]⟩
    obtain ⟨n, q, hn, hq, hin'⟩ := hover e' he' hrefined'
    have hle := hmax n q hq hin'
    have hdreach : Search.Reaches F.cfg.next 0 d := (h.numbered.visit d).mpr (by rw [hd]; rfl)
    exact (h.dominates_iff hn hd hdreach).mp (hin'.of_le hle hin.1)
  · rename_i hnone
    rw [hnone] at hfind
    refine .inr ⟨fun d hd => ?_, hr⟩
    by_contra hrefined
    obtain ⟨n, q, -, hq, hin⟩ := hover d hd (Bool.eq_true_of_not_eq_false hrefined)
    exact hfind n q hq hin

/-- Every subtree is left with the ranges in scope that it was entered with, and a query answers
with what the nearest dominator has written, as copies of the scope at every block would. -/
theorem run_rangeAt (F : RangeFunction) (blockRanges : Nat → List (Nat × ValueRange))
    (globalRanges : Ranges) :
    (∀ (s : Pass3) bb t, TreeWalk.Walks F.dom.children (Pass3.enter F blockRanges) Pass3.leave
        (F.dom.children bb) (s.enter F blockRanges bb) t →
      (t.leave bb).currentRanges = s.currentRanges) ∧
    ∃ a c n, (∀ fuel, n ≤ fuel → RangeAnalysis.run F blockRanges globalRanges fuel = some a ∧
        TreeWalk.walkFrom F.dom.children (ScopeCopies.enter F blockRanges) ScopeCopies.leave fuel 0
          (.init globalRanges) = some c) ∧
      ∀ v bb, c.RangeAt F blockRanges globalRanges v bb (a.getRangeAt F v bb) := by
  refine ⟨fun s bb t h => Pass3.walks_restores h, ?_⟩
  obtain ⟨s, c, hbeside, hcur, n, hrun⟩ := exists_beside F blockRanges globalRanges
  have ha : (RangeAnalysis.ofPass3 blockRanges s).Answers s := ⟨rfl, rfl⟩
  refine ⟨.ofPass3 blockRanges s, c, n, fun fuel hfuel => ⟨?_, (hrun fuel hfuel).2⟩,
    fun v bb => ?_⟩
  · rw [RangeAnalysis.run, (hrun fuel hfuel).1]
    rfl
  · unfold ScopeCopies.RangeAt RangeAnalysis.getRangeAt
    cases F.getConstInt v with
    | some k => rfl
    | none =>
      have hglobal : s.globalRanges = c.globalRanges := hbeside.globalRanges
      dsimp only
      by_cases hreach : Search.Reaches F.cfg.next 0 bb
      · obtain ⟨t, ht⟩ := Option.isSome_iff_exists.mp ((hbeside.numbered.visit bb).mp hreach)
        rw [if_pos (F.built.isReachable_iff.mpr hreach),
          show (RangeAnalysis.ofPass3 blockRanges s).visit bb = some t from ht]
        refine hbeside.rangeAt ha ht hreach ?_
        dsimp only
        generalize ((RangeAnalysis.ofPass3 blockRanges s).climb
          ((RangeAnalysis.ofPass3 blockRanges s).writes v) t).bind _ = found
        cases found with
        | none => simp only [RangeAnalysis.ofPass3, hcur, hglobal]
        | some e => rfl
      · have hnone : s.visit bb = none := by
          rw [← Option.not_isSome_iff_eq_none, ← hbeside.numbered.visit bb]
          exact hreach
        rw [if_neg fun h => hreach (F.built.isReachable_iff.mp h),
          show (RangeAnalysis.ofPass3 blockRanges s).visit bb = none from hnone]
        simp only [RangeAnalysis.ofPass3, hglobal]
        cases (blockRanges bb).lookup v <;> rfl

end Brass.Mir
