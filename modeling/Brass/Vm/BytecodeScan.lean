import Brass.Util.PartitionPoint
import Brass.Vm.BytecodeRegalloc

/-!
# The scan over the hulls

What holds while the scan goes over the values by the starts of their hulls (`Scanned`): a value
that has a register is active or its hull has ended, no two active values share a register, and
free registers belong to no active value. So two values with one register have one type, and one
hull ends before the other begins (`scan_spec`).
-/

namespace Brass.Vm.BytecodeRegalloc

open List

variable {fn : Function} {values : List ValueInfo} {s s' : Scan} {done : List Nat}
  {L i j r nparams : Nat} {t : TypeKind}

theorem activeBefore_trans {a b c : Nat × Nat} (h : activeBefore a b) (h' : activeBefore b c) :
    activeBefore a c := by
  unfold activeBefore at h h' ⊢
  omega

instance : IsTrans (Nat × Nat) activeBefore := ⟨fun _ _ _ => activeBefore_trans⟩

instance : Std.Total activeBefore := ⟨fun a b => by unfold activeBefore; omega⟩

instance : IsTrans Nat (startsBefore values) := ⟨fun _ _ _ => Nat.le_trans⟩

instance : Std.Total (startsBefore values) := ⟨fun _ _ => Nat.le_total _ _⟩

structure Scanned (fn : Function) (values : List ValueInfo) (nparams : Nat) (done : List Nat)
    (L : Nat) (s : Scan) : Prop where
  sorted : s.active.Pairwise activeBefore
  activeNodup : s.active.Nodup
  active : ∀ a ∈ s.active, a.2 ∈ done ∧ a.1 = (infoAt values a.2).hi
  expired : ∀ i ∈ done, ((infoAt values i).hi, i) ∈ s.active ∨ (infoAt values i).hi < L
  activeRegs : ∀ a ∈ s.active, ∀ b ∈ s.active, s.assigned a.2 = s.assigned b.2 → a = b
  freeNodup : ∀ t, (s.freeRegs t).Nodup
  freeType : ∀ t, ∀ r ∈ s.freeRegs t, s.registerTypes[r]? = some t
  freeActive : ∀ t, ∀ r ∈ s.freeRegs t, ∀ a ∈ s.active, s.assigned a.2 ≠ r
  freeUsed : ∀ t, ∀ r ∈ s.freeRegs t, ∃ i ∈ done, s.assigned i = r
  type : ∀ i ∈ done, s.registerTypes[s.assigned i]? = some (typeOf fn values i)
  apart : ∀ i ∈ done, ∀ j ∈ done, i ≠ j → s.assigned i = s.assigned j →
    (infoAt values i).hi < (infoAt values j).lo ∨ (infoAt values j).hi < (infoAt values i).lo
  reserved : ∀ i ∈ done, s.assigned i < nparams →
    ∃ j ∈ done, (infoAt values j).fixedReg = some (s.assigned i)
  params : nparams ≤ s.registerTypes.length

/-- The entry parameters are in registers of their own, of their types. -/
structure ParamsFixed (fn : Function) (values : List ValueInfo) (types : List TypeKind) : Prop where
  type : ∀ i < values.length, ∀ r, (infoAt values i).fixedReg = some r →
    types[r]? = some (typeOf fn values i)
  inj : ∀ i < values.length, ∀ j < values.length, ∀ r, (infoAt values i).fixedReg = some r →
    (infoAt values j).fixedReg = some r → i = j

theorem bind_eq_ok {α β : Type} {x : Except String α} {f : α → Except String β} {b : β} :
    x.bind f = .ok b ↔ ∃ a, x = .ok a ∧ f a = .ok b := by
  cases x <;> simp [Except.bind]

theorem map_eq_ok {α β : Type} {x : Except String α} {f : α → β} {b : β} :
    x.map f = .ok b ↔ ∃ a, x = .ok a ∧ f a = b := by
  cases x <;> simp [Except.map]

/-! ## Ended hulls -/

variable (fn values) in
theorem foldl_freeReg (l : List Nat) : ∀ free : TypeKind → List Nat,
    (∀ t, (free t).Nodup) → (l.map s.assigned).Nodup → (∀ i ∈ l, ∀ t, s.assigned i ∉ free t) →
    (∀ t, (l.foldl (freeReg fn values s) free t).Nodup) ∧
      ∀ t r, r ∈ l.foldl (freeReg fn values s) free t ↔
        r ∈ free t ∨ ∃ i ∈ l, typeOf fn values i = t ∧ s.assigned i = r := by
  induction l with
  | nil => exact fun free hfree _ _ => ⟨hfree, by simp⟩
  | cons i l ih =>
    intro free hfree hnodup hnot
    obtain ⟨hi, hnodup⟩ := nodup_cons.1 hnodup
    have hmem : ∀ t r, r ∈ freeReg fn values s free i t ↔
        r ∈ free t ∨ (typeOf fn values i = t ∧ s.assigned i = r) := by
      intro t r
      unfold freeReg
      by_cases ht : t = typeOf fn values i
      · subst ht
        simp only [Function.update_self, mem_cons, true_and]
        rw [or_comm, eq_comm]
      · rw [Function.update_of_ne ht]
        simp [Ne.symm ht]
    have hn : ∀ t, (freeReg fn values s free i t).Nodup := by
      intro t
      unfold freeReg
      by_cases ht : t = typeOf fn values i
      · subst ht
        rw [Function.update_self]
        exact nodup_cons.2 ⟨hnot i mem_cons_self _, hfree _⟩
      · rw [Function.update_of_ne ht]
        exact hfree t
    have hrest : ∀ j ∈ l, ∀ t, s.assigned j ∉ freeReg fn values s free i t := by
      intro j hj t hin
      rcases (hmem t _).1 hin with hin | ⟨-, heq⟩
      · exact hnot j (mem_cons_of_mem _ hj) t hin
      · exact hi (heq ▸ mem_map_of_mem hj)
    obtain ⟨hn, hiff⟩ := ih (freeReg fn values s free i) hn hnodup hrest
    refine ⟨hn, fun t r => ?_⟩
    rw [foldl_cons, hiff, hmem, or_assoc]
    simp

theorem Scanned.expire (h : Scanned fn values nparams done L s) {lo : Nat} (hlo : L ≤ lo) :
    Scanned fn values nparams done lo (expire fn values s lo) := by
  have hsub : s.active.dropWhile (fun a => decide (a.1 < lo)) ⊆ s.active :=
    (dropWhile_sublist _).subset
  have hended : ∀ a ∈ s.active.takeWhile (fun a => decide (a.1 < lo)), a.1 < lo := fun a ha => by
    simpa using mem_takeWhile_imp ha
  have htaken : s.active.takeWhile (fun a => decide (a.1 < lo)) ⊆ s.active :=
    (takeWhile_sublist _).subset
  have hdrop : ∀ a ∈ s.active.dropWhile (fun a => decide (a.1 < lo)), lo ≤ a.1 := fun a ha => by
    have hnot := Util.not_of_mem_dropWhile (h.sorted.imp fun {a b} hab hb => ?_) ha
    · simpa using hnot
    · unfold activeBefore at hab
      simp only [decide_eq_true_eq] at hb ⊢
      omega
  have hregs : (((s.active.takeWhile (fun a => decide (a.1 < lo))).map (·.2)).map
      s.assigned).Nodup := by
    rw [map_map]
    refine List.Nodup.map_on (fun a ha b hb heq => ?_) (h.activeNodup.sublist (takeWhile_sublist _))
    exact h.activeRegs a (htaken ha) b (htaken hb) heq
  have hnot : ∀ i ∈ (s.active.takeWhile (fun a => decide (a.1 < lo))).map (·.2), ∀ t,
      s.assigned i ∉ s.freeRegs t := by
    intro i hi t hin
    obtain ⟨a, ha, rfl⟩ := mem_map.1 hi
    exact h.freeActive t _ hin a (htaken ha) rfl
  obtain ⟨hfree, hmem⟩ := foldl_freeReg fn values _ s.freeRegs h.freeNodup hregs hnot
  have hfreed : ∀ t, ∀ r ∈ (BytecodeRegalloc.expire fn values s lo).freeRegs t, r ∈ s.freeRegs t ∨
      ∃ a ∈ s.active, a.1 < lo ∧ typeOf fn values a.2 = t ∧ s.assigned a.2 = r := by
    intro t r hr
    rcases (hmem t r).1 hr with hr | ⟨i, hi, ht, hreg⟩
    · exact .inl hr
    · obtain ⟨a, ha, rfl⟩ := mem_map.1 hi
      exact .inr ⟨a, htaken ha, hended a ha, ht, hreg⟩
  exact {
    sorted := h.sorted.sublist (dropWhile_sublist _)
    activeNodup := h.activeNodup.sublist (dropWhile_sublist _)
    active := fun a ha => h.active a (hsub ha)
    expired := fun i hi => by
      rcases h.expired i hi with hact | hlt
      · rcases Nat.lt_or_ge (infoAt values i).hi lo with hlt | hge
        · exact .inr hlt
        · refine .inl ?_
          rw [← takeWhile_append_dropWhile (p := fun a => decide (a.1 < lo))
            (l := s.active)] at hact
          rcases mem_append.1 hact with hact | hact
          · exact absurd (hended _ hact) (by dsimp only; omega)
          · exact hact
      · exact .inr (hlt.trans_le hlo)
    activeRegs := fun a ha b hb => h.activeRegs a (hsub ha) b (hsub hb)
    freeNodup := hfree
    freeType := fun t r hr => by
      rcases hfreed t r hr with hr | ⟨a, ha, -, rfl, rfl⟩
      · exact h.freeType t r hr
      · exact h.type _ (h.active a ha).1
    freeActive := fun t r hr a ha heq => by
      rcases hfreed t r hr with hr | ⟨a', ha', hlt, -, rfl⟩
      · exact h.freeActive t r hr a (hsub ha) heq
      · obtain rfl := h.activeRegs a (hsub ha) a' ha' heq
        exact absurd (hdrop a ha) (by omega)
    freeUsed := fun t r hr => by
      rcases hfreed t r hr with hr | ⟨a, ha, -, -, rfl⟩
      · exact h.freeUsed t r hr
      · exact ⟨a.2, (h.active a ha).1, rfl⟩
    type := h.type
    apart := h.apart
    reserved := h.reserved
    params := h.params }

/-! ## A register for the next value -/

theorem Scanned.occupy (h : Scanned fn values nparams done (infoAt values i).lo s) (hi : i ∉ done)
    (hactive : ∀ a ∈ s.active, s.assigned a.2 ≠ r) (hfree : ∀ t, r ∉ s.freeRegs t)
    (htype : s.registerTypes[r]? = some (typeOf fn values i))
    (hreserved : r < nparams → ∃ j ∈ done ++ [i], (infoAt values j).fixedReg = some r) :
    Scanned fn values nparams (done ++ [i]) (infoAt values i).lo (occupy values s i r) := by
  have hold : ∀ j ∈ done, Function.update s.assigned i r j = s.assigned j := fun j hj =>
    Function.update_of_ne (fun (heq : j = i) => hi (heq ▸ hj)) _ _
  have hself : Function.update s.assigned i r i = r := Function.update_self _ _ _
  have hmem : ∀ a, a ∈ (BytecodeRegalloc.occupy values s i r).active ↔
      a = ((infoAt values i).hi, i) ∨ a ∈ s.active := fun a => mem_orderedInsert _
  have hended : ∀ j ∈ done, s.assigned j = r → (infoAt values j).hi < (infoAt values i).lo := by
    intro j hj hreg
    refine (h.expired j hj).resolve_left fun hact => ?_
    exact hactive _ hact hreg
  have hnew : ((infoAt values i).hi, i) ∉ s.active := fun hact => hi (h.active _ hact).1
  exact {
    sorted := h.sorted.orderedInsert _ _
    activeNodup := (perm_orderedInsert _ _ _).nodup_iff.2 (nodup_cons.2 ⟨hnew, h.activeNodup⟩)
    active := fun a ha => by
      rcases (hmem a).1 ha with rfl | ha
      · exact ⟨by simp, rfl⟩
      · exact ⟨mem_append_left _ (h.active a ha).1, (h.active a ha).2⟩
    expired := fun j hj => by
      rcases mem_append.1 hj with hj | hj
      · rcases h.expired j hj with hact | hlt
        · exact .inl ((hmem _).2 (.inr hact))
        · exact .inr hlt
      · obtain rfl := mem_singleton.1 hj
        exact .inl ((hmem _).2 (.inl rfl))
    activeRegs := fun a ha b hb heq => by
      change Function.update s.assigned i r a.2 = Function.update s.assigned i r b.2 at heq
      rcases (hmem a).1 ha with rfl | ha <;> rcases (hmem b).1 hb with rfl | hb
      · rfl
      · rw [hself, hold _ (h.active b hb).1] at heq
        exact absurd heq.symm (hactive b hb)
      · rw [hself, hold _ (h.active a ha).1] at heq
        exact absurd heq (hactive a ha)
      · rw [hold _ (h.active a ha).1, hold _ (h.active b hb).1] at heq
        exact h.activeRegs a ha b hb heq
    freeNodup := h.freeNodup
    freeType := h.freeType
    freeActive := fun t r' hr a ha heq => by
      change Function.update s.assigned i r a.2 = r' at heq
      rcases (hmem a).1 ha with rfl | ha
      · rw [hself] at heq
        exact hfree t (heq ▸ hr)
      · rw [hold _ (h.active a ha).1] at heq
        exact h.freeActive t r' hr a ha heq
    freeUsed := fun t r' hr => by
      obtain ⟨j, hj, hreg⟩ := h.freeUsed t r' hr
      exact ⟨j, mem_append_left _ hj, (hold j hj).trans hreg⟩
    type := fun j hj => by
      change s.registerTypes[Function.update s.assigned i r j]? = _
      rcases mem_append.1 hj with hj | hj
      · rw [hold j hj]
        exact h.type j hj
      · obtain rfl := mem_singleton.1 hj
        rwa [hself]
    apart := fun j hj k hk hne heq => by
      change Function.update s.assigned i r j = Function.update s.assigned i r k at heq
      rcases mem_append.1 hj with hj | hj <;> rcases mem_append.1 hk with hk | hk
      · rw [hold j hj, hold k hk] at heq
        exact h.apart j hj k hk hne heq
      · rw [mem_singleton.1 hk] at heq ⊢
        rw [hold j hj, hself] at heq
        exact .inl (hended j hj heq)
      · rw [mem_singleton.1 hj] at heq ⊢
        rw [hold k hk, hself] at heq
        exact .inr (hended k hk heq.symm)
      · exact absurd ((mem_singleton.1 hj).trans (mem_singleton.1 hk).symm) hne
    reserved := fun j hj hlt => by
      change Function.update s.assigned i r j < nparams at hlt
      change ∃ k ∈ done ++ [i], (infoAt values k).fixedReg = some (Function.update s.assigned i r j)
      rcases mem_append.1 hj with hj | hj
      · rw [hold j hj] at hlt ⊢
        obtain ⟨k, hk, hfix⟩ := h.reserved j hj hlt
        exact ⟨k, mem_append_left _ hk, hfix⟩
      · obtain rfl := mem_singleton.1 hj
        rw [hself] at hlt ⊢
        exact hreserved hlt
    params := h.params }

theorem Scanned.take (h : Scanned fn values nparams done L s) {rest : List Nat}
    (hr : s.freeRegs t = r :: rest) :
    Scanned fn values nparams done L { s with freeRegs := Function.update s.freeRegs t rest } ∧
      ∀ t', r ∉ Function.update s.freeRegs t rest t' := by
  obtain ⟨hnot, hrest⟩ := nodup_cons.1 (hr ▸ h.freeNodup t)
  have hsub : ∀ t', ∀ r' ∈ Function.update s.freeRegs t rest t', r' ∈ s.freeRegs t' := by
    intro t' r' hr'
    by_cases ht : t' = t
    · subst ht
      rw [Function.update_self] at hr'
      exact hr ▸ mem_cons_of_mem _ hr'
    · rwa [Function.update_of_ne ht] at hr'
  refine ⟨{ h with
    freeNodup := fun t' => ?_
    freeType := fun t' r' hr' => h.freeType t' r' (hsub t' r' hr')
    freeActive := fun t' r' hr' => h.freeActive t' r' (hsub t' r' hr')
    freeUsed := fun t' r' hr' => h.freeUsed t' r' (hsub t' r' hr') }, fun t' hin => ?_⟩
  · by_cases ht : t' = t
    · subst ht
      dsimp only
      rwa [Function.update_self]
    · dsimp only
      rw [Function.update_of_ne ht]
      exact h.freeNodup t'
  · by_cases ht : t' = t
    · subst ht
      rw [Function.update_self] at hin
      exact hnot hin
    · have h1 := h.freeType t' r (hsub t' r hin)
      have h2 := h.freeType t r (hr ▸ mem_cons_self)
      exact ht (Option.some.inj (h1.symm.trans h2))

theorem fresh_eq (h : fresh fn s t = .ok (r, s')) :
    r = s.registerTypes.length ∧ s' = { s with registerTypes := s.registerTypes ++ [t] } := by
  unfold fresh at h
  split at h
  · cases h
  · exact ⟨(Prod.mk.inj (Except.ok.inj h)).1.symm, (Prod.mk.inj (Except.ok.inj h)).2.symm⟩

theorem Scanned.addType (h : Scanned fn values nparams done L s) (t : TypeKind) :
    Scanned fn values nparams done L { s with registerTypes := s.registerTypes ++ [t] } := by
  have hkeep : ∀ {r : Nat} {t' : TypeKind}, s.registerTypes[r]? = some t' →
      (s.registerTypes ++ [t])[r]? = some t' := fun {r t'} hr => by
    rw [List.getElem?_append_left (List.getElem?_eq_some_iff.1 hr).1, hr]
  exact { h with
    freeType := fun t' r hr => hkeep (h.freeType t' r hr)
    type := fun i hi => hkeep (h.type i hi)
    params := h.params.trans (by simp) }

theorem Scanned.assign {types : List TypeKind} (hp : ParamsFixed fn values types)
    (h : Scanned fn values types.length done L s)
    (htypes : ∀ (r : Nat) (t : TypeKind), types[r]? = some t → s.registerTypes[r]? = some t)
    (hdone : ∀ j ∈ done, j < values.length) (hi : i ∉ done) (hlt : i < values.length)
    (hL : L ≤ (infoAt values i).lo) (hs : assign fn values s i = .ok s') :
    Scanned fn values types.length (done ++ [i]) (infoAt values i).lo s' ∧
      ∀ (r : Nat) (t : TypeKind), types[r]? = some t → s'.registerTypes[r]? = some t := by
  have he := h.expire hL
  unfold BytecodeRegalloc.assign at hs
  dsimp only at hs
  rcases hfix : (infoAt values i).fixedReg with _ | p
  · rw [hfix] at hs
    dsimp only at hs
    rcases hfree : (BytecodeRegalloc.expire fn values s (infoAt values i).lo).freeRegs
        (typeOf fn values i) with _ | ⟨r, rest⟩
    · rw [hfree] at hs
      obtain ⟨⟨r, s₁⟩, hfresh, rfl⟩ := map_eq_ok.1 hs
      obtain ⟨rfl, rfl⟩ := fresh_eq hfresh
      have hlen : ∀ {r : Nat} {t : TypeKind}, (BytecodeRegalloc.expire fn values s
          (infoAt values i).lo).registerTypes[r]? = some t → r <
          (BytecodeRegalloc.expire fn values s (infoAt values i).lo).registerTypes.length :=
        fun hr => (List.getElem?_eq_some_iff.1 hr).1
      refine ⟨(he.addType _).occupy hi ?_ ?_ ?_ ?_, fun r t hr => ?_⟩
      · intro a ha heq
        exact (hlen (he.type _ (he.active a ha).1)).ne heq
      · intro t hin
        exact (hlen (he.freeType t _ hin)).ne rfl
      · simp
      · intro hr
        exact absurd he.params (by omega)
      · have hr' := htypes r t hr
        change (s.registerTypes ++ [_])[r]? = some t
        rw [List.getElem?_append_left (List.getElem?_eq_some_iff.1 hr').1, hr']
    · rw [hfree] at hs
      obtain rfl := Except.ok.inj hs
      obtain ⟨htake, hnot⟩ := he.take hfree
      have hin : r ∈ (BytecodeRegalloc.expire fn values s (infoAt values i).lo).freeRegs
          (typeOf fn values i) := hfree ▸ mem_cons_self
      refine ⟨htake.occupy hi (he.freeActive _ r hin) hnot (he.freeType _ r hin) ?_, htypes⟩
      intro hr
      obtain ⟨j, hj, hreg⟩ := he.freeUsed _ r hin
      obtain ⟨k, hk, hfixed⟩ := he.reserved j hj (hreg ▸ hr)
      exact ⟨k, mem_append_left _ hk, hreg ▸ hfixed⟩
  · rw [hfix] at hs
    obtain rfl := Except.ok.inj hs
    have htype := hp.type i hlt p hfix
    have hlen : p < types.length := (List.getElem?_eq_some_iff.1 htype).1
    -- The register of a parameter that is still to come has no owner.
    have hunused : ∀ j ∈ done, s.assigned j ≠ p := by
      intro j hj hreg
      obtain ⟨k, hk, hfixed⟩ := h.reserved j hj (hreg ▸ hlen)
      rw [hreg] at hfixed
      exact hi (hp.inj i hlt k (hdone k hk) p hfix hfixed ▸ hk)
    refine ⟨he.occupy hi ?_ ?_ (htypes p _ htype) ?_, htypes⟩
    · intro a ha
      exact hunused _ (he.active a ha).1
    · intro t hin
      obtain ⟨j, hj, hreg⟩ := he.freeUsed t p hin
      exact hunused j hj hreg
    · exact fun _ => ⟨i, by simp, hfix⟩

/-! ## The whole scan -/

theorem Scanned.foldlM {types : List TypeKind} (hp : ParamsFixed fn values types) (todo : List Nat)
    (h : Scanned fn values types.length done L s)
    (htypes : ∀ (r : Nat) (t : TypeKind), types[r]? = some t → s.registerTypes[r]? = some t)
    (hlt : ∀ j ∈ done ++ todo, j < values.length) (hnodup : (done ++ todo).Nodup)
    (hL : ∀ j ∈ todo, L ≤ (infoAt values j).lo)
    (hsorted : todo.Pairwise fun i j => (infoAt values i).lo ≤ (infoAt values j).lo)
    (hs : todo.foldlM (BytecodeRegalloc.assign fn values) s = .ok s') :
    ∃ L', Scanned fn values types.length (done ++ todo) L' s' := by
  induction todo generalizing done L s with
  | nil =>
    obtain rfl := Except.ok.inj hs
    exact ⟨L, by rwa [append_nil]⟩
  | cons i todo ih =>
    obtain ⟨s₁, hassign, hs⟩ := bind_eq_ok.1 ((foldlM_cons ..).symm.trans hs)
    obtain ⟨hi, hsorted⟩ := pairwise_cons.1 hsorted
    have hnot : i ∉ done := fun hin =>
      (nodup_append.1 hnodup).2.2 i hin i mem_cons_self rfl
    obtain ⟨h₁, htypes₁⟩ := h.assign hp htypes (fun j hj => hlt j (mem_append_left _ hj)) hnot
      (hlt i (mem_append_right _ mem_cons_self)) (hL i mem_cons_self) hassign
    obtain ⟨L', h'⟩ := ih h₁ htypes₁ (by simpa using hlt) (by simpa using hnodup) hi hsorted hs
    exact ⟨L', by simpa using h'⟩

theorem reserveParams_eq (types : List TypeKind) (h : reserveParams fn types s = .ok s') :
    s' = { s with registerTypes := s.registerTypes ++ types } := by
  induction types generalizing s with
  | nil =>
    obtain rfl := Except.ok.inj h
    rw [append_nil]
  | cons t types ih =>
    obtain ⟨⟨r, s₁⟩, hfresh, hs⟩ := bind_eq_ok.1 h
    obtain ⟨-, rfl⟩ := fresh_eq hfresh
    rw [ih hs]
    simp

/-- Two values with one register have one type, and one hull ends before the other begins; the
register has that type. -/
theorem scan_spec (hp : ParamsFixed fn values (entryTypes fn)) (h : scan fn values = .ok s) :
    (∀ i < values.length, s.registerTypes[s.assigned i]? = some (typeOf fn values i)) ∧
      ∀ i < values.length, ∀ j < values.length, i ≠ j → s.assigned i = s.assigned j →
        typeOf fn values i = typeOf fn values j ∧ ((infoAt values i).hi < (infoAt values j).lo ∨
            (infoAt values j).hi < (infoAt values i).lo) := by
  obtain ⟨s₀, hreserve, hs⟩ := bind_eq_ok.1 h
  obtain rfl := reserveParams_eq _ hreserve
  have hstart : Scanned fn values (entryTypes fn).length [] 0
      { registerTypes := [] ++ entryTypes fn } := {
    sorted := List.Pairwise.nil
    activeNodup := nodup_nil
    active := by simp
    expired := by simp
    activeRegs := by simp
    freeNodup := fun _ => nodup_nil
    freeType := by simp
    freeActive := by simp
    freeUsed := by simp
    type := by simp
    apart := by simp
    reserved := by simp
    params := by simp }
  have hperm : (scanOrder values).Perm (range values.length) := perm_insertionSort _ _
  have hmem : ∀ j, j ∈ scanOrder values ↔ j < values.length := fun j => by
    rw [hperm.mem_iff, mem_range]
  have hsorted : (scanOrder values).Pairwise
      fun i j => (infoAt values i).lo ≤ (infoAt values j).lo :=
    pairwise_insertionSort (startsBefore values) _
  obtain ⟨L, hscan⟩ := hstart.foldlM hp (scanOrder values) (by simp) (by simp [hmem])
    (by simpa using hperm.nodup_iff.2 nodup_range) (by simp) hsorted hs
  simp only [nil_append] at hscan
  refine ⟨fun i hi => hscan.type i ((hmem i).2 hi), fun i hi j hj hne heq => ⟨?_, ?_⟩⟩
  · have hti := hscan.type i ((hmem i).2 hi)
    rw [heq, hscan.type j ((hmem j).2 hj)] at hti
    exact (Option.some.inj hti).symm
  · exact hscan.apart i ((hmem i).2 hi) j ((hmem j).2 hj) hne heq

end Brass.Vm.BytecodeRegalloc
