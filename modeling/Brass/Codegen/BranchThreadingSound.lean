import Brass.Codegen.BranchThreading
import Brass.Util.Accumulate
import Mathlib.Order.Interval.Finset.Nat

/-!
# Branch threading preserves the visits

A chain of jumps that ends at all ends within as many steps as there are blocks, so the target
of a block of the chain is its end (`target_eq`); a chain that does not end visits nothing.
Every way out of a block in the threaded layout is among the ids entered (`leads_entered`), so
it leads to a block that is emitted, and the threaded run goes block by block with the
original one (`visits_threaded_iff`).
-/

namespace Brass.Codegen.BranchThreading

open Brass.Util List Option

variable {fn : Function} {i p : Nat} {id t : UInt32} {l : List (Nat × Outcome)}

/-! ## Positions and ids -/

theorem positionOf_spec (h : positionOf fn id = some p) :
    p < fn.blocks.length ∧ (block fn p).id = id := by
  obtain ⟨hid, hp, -⟩ := find?_range_eq_some.1 h
  exact ⟨mem_range.1 hp, eq_of_beq hid⟩

theorem hop_of_hopAt (hp : positionOf fn id = some p) : hop fn id = hopAt fn p := by
  rw [hop, hp, bind_some]

theorem mem_ids_of_hop (h : hop fn id = some t) : id ∈ fn.blocks.map (·.id) := by
  obtain ⟨p, hp, -⟩ := bind_eq_some_iff.1 h
  obtain ⟨hlt, rfl⟩ := positionOf_spec hp
  refine mem_map.2 ⟨fn.blocks[p], getElem_mem hlt, ?_⟩
  simp [block, hlt]

/-! ## Chains of jumps -/

theorem hopOn_of_none (h : hop fn id = none) : hopOn fn id = id := by
  rw [hopOn, h, getD_none]

theorem hopOn_of_some (h : hop fn id = some t) : hopOn fn id = t := by
  rw [hopOn, h, getD_some]

theorem iterate_hopOn_of_none (h : hop fn id = none) (k : Nat) : (hopOn fn)^[k] id = id :=
  Function.iterate_fixed (hopOn_of_none h) k

theorem follow_eq_iterate (k : Nat) (id : UInt32) : follow fn k id = (hopOn fn)^[k] id := by
  induction k generalizing id with
  | zero => rfl
  | succ k ih =>
    rw [Function.iterate_succ_apply, follow]
    cases h : hop fn id with
    | none =>
      rw [hopOn_of_none h]
      exact (iterate_hopOn_of_none h k).symm
    | some t =>
      rw [hopOn_of_some h]
      exact ih t

def Ends (fn : Function) (id : UInt32) : Prop := ∃ k, hop fn ((hopOn fn)^[k] id) = none

theorem ends_of_hop (h : hop fn id = some t) (ht : Ends fn t) : Ends fn id := by
  obtain ⟨k, hk⟩ := ht
  refine ⟨k + 1, ?_⟩
  rwa [Function.iterate_succ_apply, hopOn_of_some h]

/-- The blocks of a chain before its end are different, so there are no more of them than
blocks. -/
theorem exists_end_le (h : Ends fn id) :
    ∃ k ≤ fn.blocks.length, hop fn ((hopOn fn)^[k] id) = none := by
  classical
  refine ⟨Nat.find h, ?_, Nat.find_spec h⟩
  have hbefore : ∀ k < Nat.find h, hop fn ((hopOn fn)^[k] id) ≠ none :=
    fun k hk => Nat.find_min h hk
  -- a block met twice would bring the end nearer
  have hinj : Set.InjOn (fun k => (hopOn fn)^[k] id) (Finset.range (Nat.find h)) := by
    intro a ha b hb hab
    rw [Finset.coe_range, Set.mem_Iio] at ha hb
    dsimp only at hab
    by_contra hne
    wlog hlt : a < b generalizing a b
    · exact this hb ha hab.symm (Ne.symm hne) (by omega)
    have hshift : (hopOn fn)^[(Nat.find h - b) + a] id = (hopOn fn)^[Nat.find h] id := by
      rw [Function.iterate_add_apply, hab, ← Function.iterate_add_apply]
      congr 1
      omega
    refine hbefore ((Nat.find h - b) + a) (by omega) ?_
    rw [hshift]
    exact Nat.find_spec h
  have hmaps : Set.MapsTo (fun k => (hopOn fn)^[k] id) (Finset.range (Nat.find h))
      (fn.blocks.map (·.id)).toFinset := by
    intro k hk
    rw [Finset.coe_range, Set.mem_Iio] at hk
    obtain ⟨t, ht⟩ := ne_none_iff_exists'.1 (hbefore k hk)
    exact Finset.mem_coe.2 (mem_toFinset.2 (mem_ids_of_hop ht))
  calc Nat.find h = (Finset.range (Nat.find h)).card := (Finset.card_range _).symm
    _ ≤ (fn.blocks.map (·.id)).toFinset.card := Finset.card_le_card_of_injOn _ hmaps hinj
    _ ≤ (fn.blocks.map (·.id)).length := toFinset_card_le _
    _ = fn.blocks.length := length_map ..

theorem target_eq {k : Nat} (hk : hop fn ((hopOn fn)^[k] id) = none) :
    target fn id = (hopOn fn)^[k] id := by
  obtain ⟨k₀, hle, hk₀⟩ := exists_end_le ⟨k, hk⟩
  have hfixed : ∀ m, k₀ ≤ m → (hopOn fn)^[m] id = (hopOn fn)^[k₀] id := by
    intro m hm
    rw [← Nat.sub_add_cancel hm, Function.iterate_add_apply]
    exact iterate_hopOn_of_none hk₀ _
  rw [target, follow_eq_iterate, hfixed _ hle]
  rcases Nat.le_total k₀ k with h | h
  · exact (hfixed k h).symm
  · rw [← Nat.sub_add_cancel h, Function.iterate_add_apply]
    exact iterate_hopOn_of_none hk _

theorem target_of_none (h : hop fn id = none) : target fn id = id :=
  target_eq (k := 0) h

theorem target_of_hop (h : hop fn id = some t) (ht : Ends fn t) : target fn id = target fn t := by
  obtain ⟨k, hk⟩ := ht
  have hnext : (hopOn fn)^[k + 1] id = (hopOn fn)^[k] t := by
    rw [Function.iterate_succ_apply, hopOn_of_some h]
  rw [target_eq hk, ← hnext]
  exact target_eq (by rwa [hnext])

/-! ## What is entered -/

section Entered

variable {s : Entering} {inst : Inst} {u : LirOperand} {src : Nat}

theorem branchTo_entered (s : Entering) (id : UInt32) (src : Nat) :
    (branchTo fn s id src).entered = id :: s.entered := by
  unfold branchTo
  dsimp only
  split
  · split <;> rfl
  · rfl

theorem enterUse_grows : s.entered ⊆ (enterUse fn src inst s u).entered := by
  unfold enterUse
  cases u.label? with
  | none => exact List.Subset.refl _
  | some id =>
    dsimp only
    split
    · rw [branchTo_entered]
      exact subset_cons_self ..
    · exact subset_cons_self ..

theorem mem_enterUse (h : u.label? = some id) : id ∈ (enterUse fn src inst s u).entered := by
  unfold enterUse
  rw [h]
  dsimp only
  split
  · rw [branchTo_entered]
    exact mem_cons_self
  · exact mem_cons_self

theorem unwind_grows : s.entered ⊆ (if inst.rest.unwindBlockId ≠ noId then
      enter s inst.rest.unwindBlockId else s).entered := by
  split
  · exact subset_cons_self ..
  · exact List.Subset.refl _

theorem enterInst_grows : s.entered ⊆ (enterInst fn src s inst).entered :=
  foldlRecOn (motive := fun r : Entering => s.entered ⊆ r.entered) inst.uses _ unwind_grows
    fun _ hr _ _ => List.Subset.trans hr enterUse_grows

theorem mem_enterInst_label (hu : u ∈ inst.uses) (hl : u.label? = some id) :
    id ∈ (enterInst fn src s inst).entered :=
  foldl_of_mem (P := fun r : Entering => id ∈ r.entered) hu (fun _ => mem_enterUse hl)
    (fun _ _ hr => enterUse_grows hr) _

theorem mem_enterInst_unwind (h : inst.rest.unwindBlockId ≠ noId) :
    inst.rest.unwindBlockId ∈ (enterInst fn src s inst).entered := by
  refine foldlRecOn (motive := fun r : Entering => inst.rest.unwindBlockId ∈ r.entered) inst.uses _ ?_
    fun _ hr _ _ => enterUse_grows hr
  rw [if_pos h]
  exact mem_cons_self

theorem enterClosing_grows (i : Nat) : s.entered ⊆ (enterClosing fn i s).entered := by
  unfold enterClosing
  dsimp only
  split
  · rw [branchTo_entered]
    refine List.Subset.trans ?_ (subset_cons_self ..)
    split
    · rw [branchTo_entered]
      exact subset_cons_self ..
    · exact List.Subset.refl _
  · exact List.Subset.refl _

theorem mem_enterClosing_taken (hc : 0 < (closingBranches fn i).count)
    (ht : (closingBranches fn i).conditional = true) :
    target fn (closingBranches fn i).taken ∈ (enterClosing fn i s).entered := by
  unfold enterClosing
  dsimp only
  rw [if_pos hc, if_pos ht]
  dsimp only
  rw [branchTo_entered, branchTo_entered]
  exact mem_cons_of_mem _ mem_cons_self

theorem mem_enterClosing_other (hc : 0 < (closingBranches fn i).count) :
    target fn (closingBranches fn i).other ∈ (enterClosing fn i s).entered := by
  unfold enterClosing
  dsimp only
  rw [if_pos hc]
  dsimp only
  rw [branchTo_entered]
  exact mem_cons_self

theorem body_grows (i : Nat) (insts : List Inst) :
    s.entered ⊆ (insts.foldl (enterInst fn i) s).entered :=
  foldlRecOn (motive := fun r : Entering => s.entered ⊆ r.entered) insts _ (List.Subset.refl _)
    fun _ hr _ _ => List.Subset.trans hr enterInst_grows

theorem falls_grows (i : Nat) :
    s.entered ⊆ (if s.falls = true then enter s (block fn i).id else s).entered := by
  split
  · exact subset_cons_self ..
  · exact List.Subset.refl _

theorem enterBlock_grows (i : Nat) : s.entered ⊆ (enterBlock fn s i).entered :=
  List.Subset.trans (falls_grows i) (List.Subset.trans (body_grows i _) (enterClosing_grows i))

theorem enterBlock_falls (hc : (closingBranches fn i).count = 0) :
    (enterBlock fn s i).falls = runsOn fn i := by
  unfold enterBlock enterClosing
  dsimp only
  rw [if_neg (by omega)]

theorem mem_enterBlock_falls (hs : s.falls = true) :
    (block fn i).id ∈ (enterBlock fn s i).entered := by
  unfold enterBlock
  rw [if_pos hs]
  exact enterClosing_grows i (body_grows i _ mem_cons_self)

theorem mem_enterBlock {o : Outcome} (h : Leads fn (target fn) i o (some id)) (ho : o ≠ .falls) :
    id ∈ (enterBlock fn s i).entered := by
  cases h with
  | label hi hu hl =>
    exact enterClosing_grows i (foldl_of_mem (P := fun r : Entering => id ∈ r.entered) hi
      (fun _ => mem_enterInst_label hu hl) (fun _ _ hr => enterInst_grows hr) _)
  | unwinds hi hu =>
    exact enterClosing_grows i (foldl_of_mem (P := fun r : Entering => _ ∈ r.entered) hi
      (fun _ => mem_enterInst_unwind hu) (fun _ _ hr => enterInst_grows hr) _)
  | taken hc ht => exact mem_enterClosing_taken hc ht
  | other hc => exact mem_enterClosing_other hc
  | falls => exact absurd rfl ho

/-- The walk up to a block. -/
def enteringUpTo (fn : Function) (k : Nat) : Entering :=
  (List.range k).foldl (enterBlock fn) (enterStart fn)

theorem enteringUpTo_succ (k : Nat) :
    enteringUpTo fn (k + 1) = enterBlock fn (enteringUpTo fn k) k := by
  rw [enteringUpTo, range_succ, foldl_append]
  rfl

theorem enteringUpTo_subset {k m : Nat} (h : k ≤ m) :
    (enteringUpTo fn k).entered ⊆ (enteringUpTo fn m).entered := by
  induction m, h using Nat.le_induction with
  | base => exact List.Subset.refl _
  | succ m _ ih =>
    rw [enteringUpTo_succ]
    exact List.Subset.trans ih (enterBlock_grows m)

theorem leads_entered {o : Outcome} (hi : i < fn.blocks.length)
    (h : Leads fn (target fn) i o (some id)) : id ∈ (entering fn).entered := by
  by_cases ho : o = .falls
  · subst ho
    cases h with
    | falls hc hr hn =>
      obtain ⟨b, hb, rfl⟩ := map_eq_some_iff.1 hn
      have hnext : i + 1 < fn.blocks.length := (List.getElem?_eq_some_iff.1 hb).1
      have hid : (block fn (i + 1)).id = b.id := by
        rw [block, getD_eq_getElem?_getD, hb, getD_some]
      have hfalls : (enteringUpTo fn (i + 1)).falls = true := by
        rw [enteringUpTo_succ, enterBlock_falls hc, hr]
      refine enteringUpTo_subset (k := i + 2) (by omega) ?_
      rw [enteringUpTo_succ, ← hid]
      exact mem_enterBlock_falls hfalls
  · refine enteringUpTo_subset (k := i + 1) (by omega) ?_
    rw [enteringUpTo_succ]
    exact mem_enterBlock h ho

theorem start_entered (h : id ∈ (enterStart fn).entered) : id ∈ (entering fn).entered :=
  enteringUpTo_subset (k := 0) (Nat.zero_le _) h

end Entered

/-! ## Where the threaded layout lands -/

theorem not_skipped_of_entered (hp : positionOf fn id = some p)
    (h : id ∈ (entering fn).entered) : skipped fn p = false := by
  rw [← (positionOf_spec hp).2] at h
  simp [skipped, h]

theorem threaded_land (h : id ∈ (entering fn).entered) :
    (threaded fn).land id = positionOf fn id := by
  unfold threaded
  dsimp only
  cases hp : positionOf fn id with
  | none => rfl
  | some p =>
    rw [bind_some]
    have hlt := (positionOf_spec hp).1
    refine find?_range_eq_some.2 ⟨?_, mem_range.2 hlt, ?_⟩
    · rw [not_skipped_of_entered hp h]
      simp
    · intro j hj
      simp [hj]

/-! ## The visits -/

theorem ends_of_visits {place : Option Nat} (h : Visits fn (original fn) place l)
    (hl : l ≠ []) (hp : positionOf fn id = place) : Ends fn id := by
  induction h generalizing id with
  | start => exact absurd rfl hl
  | hop hh _ ih =>
    rw [← hop_of_hopAt hp] at hh
    exact ends_of_hop hh (ih hl rfl)
  | visit hh =>
    rw [← hop_of_hopAt hp] at hh
    exact ⟨0, hh⟩

/-- A way out under one redirection is one under another, to the same block or to the block
that the other redirection gives. -/
theorem Leads.redirect {r : UInt32 → UInt32} {o : Outcome} {dest : Option UInt32}
    (h : Leads fn r i o dest) (r' : UInt32 → UInt32) :
    Leads fn r' i o dest ∨ ∃ d, dest = some (r d) ∧ Leads fn r' i o (some (r' d)) := by
  cases h with
  | leaves => exact .inl .leaves
  | label hi hu hl => exact .inl (.label hi hu hl)
  | unwinds hi hu => exact .inl (.unwinds hi hu)
  | taken hc ht => exact .inr ⟨_, rfl, .taken hc ht⟩
  | other hc => exact .inr ⟨_, rfl, .other hc⟩
  | falls hc hr hn => exact .inl (.falls hc hr hn)

theorem leads_of_hopAt (r : UInt32 → UInt32) (h : hopAt fn i = some t) :
    Leads fn r i .other (some (r t)) := by
  have hclosing : closingBranches fn i = { count := 1, other := t } := by
    unfold hopAt at h
    split at h
    · rename_i inst hinst
      split at h
      · exact absurd h (by simp)
      · have hlabel := (filter_eq_some_iff.1 h).1
        unfold closingBranches closingOf
        rw [hinst]
        simp [hlabel]
    · exact absurd h (by simp)
  have hlead : Leads fn r i .other (some (r (closingBranches fn i).other)) :=
    .other (by simp [hclosing])
  rwa [hclosing] at hlead

theorem visits_nowhere {lay : Layout} (h : Visits fn lay none l) : l = [] := by
  cases h
  rfl

/-- A run of the original layout, seen from the block's label and from the label that the
closing branches to the block go to. -/
theorem threaded_of_original {place : Option Nat} (h : Visits fn (original fn) place l)
    (hp : positionOf fn id = place) :
    (id ∈ (entering fn).entered → Visits fn (threaded fn) ((threaded fn).land id) l) ∧
      (target fn id ∈ (entering fn).entered →
        Visits fn (threaded fn) ((threaded fn).land (target fn id)) l) := by
  induction h generalizing id with
  | start => exact ⟨fun _ => .start _, fun _ => .start _⟩
  | @hop i t l hh hv ih =>
    by_cases hl : l = []
    · rw [hl]
      exact ⟨fun _ => .start _, fun _ => .start _⟩
    have htarget := target_of_hop ((hop_of_hopAt hp).trans hh) (ends_of_visits hv hl rfl)
    have hentered : target fn t ∈ (entering fn).entered :=
      leads_entered (positionOf_spec hp).1 (leads_of_hopAt _ hh)
    refine ⟨fun hid => ?_, fun _ => ?_⟩
    · rw [threaded_land hid, hp]
      exact .hop hh ((ih rfl).2 hentered)
    · rw [htarget]
      exact (ih rfl).2 hentered
  | @visit i o dest l hh hl hv ih =>
    have hself : target fn id = id := target_of_none ((hop_of_hopAt hp).trans hh)
    have hlt := (positionOf_spec hp).1
    have hvisit : id ∈ (entering fn).entered →
        Visits fn (threaded fn) ((threaded fn).land id) ((i, o) :: l) := by
      intro hid
      rw [threaded_land hid, hp]
      rcases hl.redirect (target fn) with hkept | ⟨d, rfl, hturned⟩
      · refine .visit hh hkept ?_
        cases dest with
        | none =>
          rw [visits_nowhere hv]
          exact .start _
        | some d => exact (ih rfl).1 (leads_entered hlt hkept)
      · exact .visit hh hturned ((ih rfl).2 (leads_entered hlt hturned))
    exact ⟨hvisit, hself.symm ▸ hvisit⟩

theorem visits_of_iterate (k : Nat)
    (h : Visits fn (original fn) (positionOf fn ((hopOn fn)^[k] id)) l) :
    Visits fn (original fn) (positionOf fn id) l := by
  induction k generalizing id with
  | zero => exact h
  | succ k ih =>
    rw [Function.iterate_succ_apply] at h
    have hnext := ih h
    cases hhop : hop fn id with
    | none => rwa [hopOn_of_none hhop] at hnext
    | some t =>
      rw [hopOn_of_some hhop] at hnext
      obtain ⟨p, hp, hh⟩ := bind_eq_some_iff.1 hhop
      rw [hp]
      exact .hop hh hnext

theorem visits_of_target (h : Visits fn (original fn) (positionOf fn (target fn id)) l) :
    Visits fn (original fn) (positionOf fn id) l := by
  rw [target, follow_eq_iterate] at h
  exact visits_of_iterate _ h

theorem original_of_threaded {place : Option Nat} (h : Visits fn (threaded fn) place l)
    (hid : id ∈ (entering fn).entered) (hp : (threaded fn).land id = place) :
    Visits fn (original fn) (positionOf fn id) l := by
  induction h generalizing id with
  | start => exact .start _
  | @hop i t l hh hv ih =>
    rw [threaded_land hid] at hp
    have hlead := leads_of_hopAt (target fn) hh
    rw [hp]
    exact .hop hh (visits_of_target (ih (leads_entered (positionOf_spec hp).1 hlead) rfl))
  | @visit i o dest l hh hl hv ih =>
    rw [threaded_land hid] at hp
    have hlt := (positionOf_spec hp).1
    rw [hp]
    rcases hl.redirect (fun id => id) with hkept | ⟨d, rfl, hturned⟩
    · refine .visit hh hkept ?_
      cases dest with
      | none =>
        rw [visits_nowhere hv]
        exact .start _
      | some d => exact ih (leads_entered hlt hl) rfl
    · exact .visit hh hturned (visits_of_target (ih (leads_entered hlt hl) rfl))

theorem visits_threaded_iff (hid : id ∈ (entering fn).entered) :
    Visits fn (threaded fn) ((threaded fn).land id) l ↔
      Visits fn (original fn) (positionOf fn id) l :=
  ⟨fun h => original_of_threaded h hid rfl, fun h => (threaded_of_original h rfl).1 hid⟩

/-- Where a run of the function starts: its first block, or a block of a resume entry. -/
def IsEntry (fn : Function) (id : UInt32) : Prop :=
  (∃ b, fn.blocks.head? = some b ∧ b.id = id) ∨ ∃ r ∈ fn.resumeEntries, r.2 = id

theorem entered_of_isEntry (h : IsEntry fn id) : id ∈ (entering fn).entered := by
  apply start_entered
  rcases h with ⟨b, hb, rfl⟩ | ⟨r, hr, rfl⟩
  · apply mem_append_left
    rw [hb]
    exact mem_cons_self
  · apply mem_append_right
    exact mem_map_of_mem hr

/-- No block that is left out is entered, by a way out of a block of the threaded layout or by
an entry, and from every entry both layouts visit the same blocks in the same order. -/
theorem threaded_visits (fn : Function) :
    (∀ (i : Nat) (o : Outcome) (id : UInt32) (p : Nat), i < fn.blocks.length →
      Leads fn (target fn) i o (some id) → positionOf fn id = some p → skipped fn p = false) ∧
    (∀ (id : UInt32), IsEntry fn id → ∀ p, positionOf fn id = some p → skipped fn p = false) ∧
    ∀ (id : UInt32), IsEntry fn id → ∀ l : List (Nat × Outcome),
      (Visits fn (threaded fn) ((threaded fn).land id) l ↔
        Visits fn (original fn) ((original fn).land id) l) := by
  refine ⟨?_, ?_, ?_⟩
  · intro i o id p hi hl hp
    exact not_skipped_of_entered hp (leads_entered hi hl)
  · intro id hid p hp
    exact not_skipped_of_entered hp (entered_of_isEntry hid)
  · intro id hid l
    exact visits_threaded_iff (entered_of_isEntry hid)

/-- A branch around a block that only jumps on. -/
def diamond : Function where
  blocks :=
    [{ id := 0
       instructions :=
        [{ opcode := .jcc, uses := [{ kind := .label 2 }], rest := {} },
          { opcode := .jmp, uses := [{ kind := .label 1 }], rest := {} }] },
      { id := 1, instructions := [{ opcode := .jmp, uses := [{ kind := .label 2 }], rest := {} }] },
      { id := 2, instructions := [{ opcode := .ret, rest := {} }] }]
  ids_nodup := by decide
  ids_valid := by decide

theorem threaded_visits_diamond :
    skipped diamond 1 = true ∧ ∀ l : List (Nat × Outcome),
      (Visits diamond (threaded diamond) ((threaded diamond).land 0) l ↔
        Visits diamond (original diamond) ((original diamond).land 0) l) :=
  ⟨by decide, (threaded_visits diamond).2.2 0 (Or.inl ⟨_, rfl, rfl⟩)⟩

end Brass.Codegen.BranchThreading
