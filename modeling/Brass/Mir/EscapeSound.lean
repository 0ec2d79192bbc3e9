import Brass.Mir.EscapeClosure
import Brass.Mir.EscapeRun

/-!
# Allocations that do not escape

`Confined` is the invariant of an execution: the address of an object whose allocation does not
escape is only in the pointers to which the allocation flows, whole, and in the memory of such
objects, where it flows to the field. Every tracked step keeps it (`Confined.step`).
-/

namespace Brass.Mir.Escape

open Brass.Util List

variable {fn : Function} {options : EscapeAnalysisOptions} {g : ConnectionGraph}
  {inst : Instruction} {s s' : State} {fuel v : Nat} {o : Object} {w : List Byte} {a : Action}

/-! ## Words -/

variable {pos : Int} {base site : Nat}

theorem carries_address {target : Object} : Carries (address target pos) o ↔ o = target := by
  unfold Carries address
  constructor
  · rintro ⟨p, i, h⟩
    obtain ⟨j, -, hj⟩ := mem_map.1 h
    cases hj
    rfl
  · rintro rfl
    exact ⟨pos, 0, mem_map.2 ⟨0, mem_range.2 (by omega), rfl⟩⟩

theorem address_inj {o' : Object} {pos' : Int} (h : address o pos = address o' pos') :
    o = o' ∧ pos = pos' := by
  have hhead := congrArg head? h
  simp only [address] at hhead
  cases hhead
  exact ⟨rfl, rfl⟩

theorem Names.of_address {o' : Object} {pos' : Int} (h : Names (address o pos) o' pos') :
    o' = o ∧ pos' = pos := by
  rcases h with h | ⟨hne, -⟩
  · obtain ⟨h1, h2⟩ := address_inj h
    exact ⟨h1.symm, h2.symm⟩
  · exact (hne o pos rfl).elim

theorem Flows.isAllocationResult {n : CGNode} (h : Flows fn n (.allocation site)) :
    IsAllocationResult fn site := by
  generalize ho : ObjectNode.allocation site = o at h
  induction h with
  | allocation hinst halloc hres =>
    cases ho
    exact ⟨_, hinst, halloc, hres⟩
  | param => cases ho
  | copy _ _ ih => exact ih ho
  | store _ _ _ _ _ _ _ _ ih => exact ih ho
  | load _ _ _ _ _ _ _ _ ih => exact ih ho

/-! ## The invariant -/

/-- An object of an allocation that does not escape. -/
def Private (fn : Function) (g : ConnectionGraph) : Object → Prop
  | .outside _ => False
  | .allocated site _ => IsAllocationResult fn site ∧
      g.state (.object (.allocation site)) = .noEscape

structure Confined (fn : Function) (g : ConnectionGraph) (s : State) : Prop where
  regs : ∀ v site n, Private fn g (.allocated site n) → Carries (s.regs v) (.allocated site n) →
    s.regs v = address (.allocated site n) 0 ∧ Flows fn (.reference v) (.allocation site) ∧
      (fn.isPointerLike v = true ∨ IsAllocationResult fn v)
  fields : ∀ site n, Private fn g (.allocated site n) → ∀ x target m pos i,
    s.mem (.allocated site n) x = .part (.allocated target m) pos i →
    Private fn g (.allocated target m) →
    pos = 0 ∧ Flows fn (.field (.allocation site) (x - i)) (.allocation target)
  others : ∀ o, ¬ Private fn g o → ∀ x target pos i, s.mem o x = .part target pos i →
    ¬ Private fn g target
  published : ∀ o, s.published o → ¬ Private fn g o

namespace Confined

theorem initial (h : Initial s) : Confined fn g s where
  regs v site n _ hc := by
    obtain ⟨m, hm⟩ := h.regs v _ hc
    cases hm
  fields site n _ x target m pos i hb _ := by
    obtain ⟨k, hk⟩ := h.mem _ _ _ _ _ hb
    cases hk
  others o _ x target pos i hb := by
    obtain ⟨k, rfl⟩ := h.mem _ _ _ _ _ hb
    exact id
  published o ho := (h.published o ho).elim

section

variable (hc : Confined fn g s)
include hc

theorem not_private_of_reachable (h : Reachable s o) : ¬ Private fn g o := by
  induction h with
  | outside n => exact id
  | published h => exact hc.published _ h
  | mem _ hb ih => exact hc.others _ ih _ _ _ _ hb

theorem of_regs (hmem : s'.mem = s.mem) (hpub : s'.published = s.published)
    (hregs : ∀ v site n, Private fn g (.allocated site n) →
      Carries (s'.regs v) (.allocated site n) →
      s'.regs v = address (.allocated site n) 0 ∧ Flows fn (.reference v) (.allocation site) ∧
        (fn.isPointerLike v = true ∨ IsAllocationResult fn v)) : Confined fn g s' :=
  ⟨hregs, hmem ▸ hc.fields, hmem ▸ hc.others, hpub ▸ hc.published⟩

theorem next : Confined fn g s.next := hc.of_regs rfl rfl hc.regs

theorem set {result : Option Nat}
    (hw : ∀ v site n, result = some v → Private fn g (.allocated site n) →
      Carries w (.allocated site n) →
      w = address (.allocated site n) 0 ∧ Flows fn (.reference v) (.allocation site) ∧
        (fn.isPointerLike v = true ∨ IsAllocationResult fn v)) :
    Confined fn g (s.set result w) := by
  refine hc.of_regs rfl rfl fun v site n hp hcar => ?_
  cases result with
  | none => exact hc.regs v site n hp hcar
  | some r =>
    unfold State.set at hcar ⊢
    dsimp only [Option.elim_some] at hcar ⊢
    by_cases hv : v = r
    · subst hv
      rw [Function.update_self] at hcar ⊢
      exact hw v site n rfl hp hcar
    · rw [Function.update_of_ne hv] at hcar ⊢
      exact hc.regs v site n hp hcar

theorem publish {vs : List Nat} (hvs : ∀ v ∈ vs, ∀ o, Carries (s.regs v) o → ¬ Private fn g o) :
    Confined fn g (s.publish vs) := by
  refine ⟨hc.regs, hc.fields, hc.others, fun o ho => ?_⟩
  rcases ho with ho | ⟨v, hv, hcar⟩
  · exact hc.published o ho
  · exact hvs v hv o hcar

theorem outsideWrites {mem : Object → Int → Byte}
    (h : OutsideWrites s mem) : Confined fn g { s with mem } := by
  refine ⟨hc.regs, fun site n hp x target m pos i hb ht => ?_, fun o ho x target pos i hb => ?_,
    hc.published⟩
  · rcases h (.allocated site n) x with heq | ⟨hreach, -⟩
    · exact hc.fields site n hp x target m pos i (heq ▸ hb) ht
    · exact (hc.not_private_of_reachable hreach hp).elim
  · rcases h o x with heq | ⟨-, hbytes⟩
    · exact hc.others o ho x target pos i (heq ▸ hb)
    · exact hc.not_private_of_reachable (hbytes target pos i hb)

theorem names {n : Nat} (hp : Private fn g (.allocated site n))
    (h : Names (s.regs base) (.allocated site n) pos) :
    pos = 0 ∧ Flows fn (.reference base) (.allocation site) := by
  have hcar : Carries (s.regs base) (.allocated site n) := by
    rcases h with h | ⟨-, ⟨m, hm⟩ | h⟩
    · exact h ▸ carries_address.2 rfl
    · cases hm
    · exact h
  obtain ⟨hw, hflow, -⟩ := hc.regs base site n hp hcar
  rw [hw] at h
  exact ⟨h.of_address.2, hflow⟩

end

end Confined

theorem mem_published (hv : Verified fn) (hinst : Has fn inst) (h : v ∈ handedOut fn inst)
    (hpl : fn.isPointerLike v = true) : v ∈ published fn inst := by
  unfold handedOut at h
  split at h
  · rename_i hout
    have hindex : ∀ (hop : inst.opcode = .loadIndexed ∨ inst.opcode = .storeIndexed),
        inst.operands[1]? ≠ some v := fun hop he => by
      rw [hv.index inst hinst hop v he] at hpl
      cases hpl
    unfold actsOutside at hout
    unfold published
    split at hout
    case h_9 => cases hout
    all_goals
      rename_i hop
      rw [hop]
      dsimp only
    · rw [if_neg (by simpa using hout)]
      exact h
    · exact h
    · have hlen := hv.ret inst hinst hop
      obtain ⟨i, hi⟩ := List.mem_iff_getElem?.1 h
      have hlt := (List.getElem?_eq_some_iff.1 hi).1
      obtain rfl : i = 0 := by omega
      rw [head?_eq_getElem?, hi]
      exact mem_cons_self
    · exact h
    · exact h
    · exact h
    · have hlen := hv.loadIndexed inst hinst hop
      obtain ⟨i, hi⟩ := List.mem_iff_getElem?.1 h
      have hlt := (List.getElem?_eq_some_iff.1 hi).1
      have hne : i ≠ 1 := fun he => hindex (.inl hop) (he ▸ hi)
      obtain rfl : i = 0 := by omega
      rw [hi]
      exact mem_cons_self
    · have hlen := hv.storeIndexed inst hinst hop
      obtain ⟨i, hi⟩ := List.mem_iff_getElem?.1 h
      have hlt := (List.getElem?_eq_some_iff.1 hi).1
      have hne : i ≠ 1 := fun he => hindex (.inr hop) (he ▸ hi)
      obtain rfl | rfl : i = 0 ∨ i = 2 := by omega
      · simp [hi]
      · simp [hi]
  · exact (not_mem_nil h).elim

section Steps

variable (hv : Verified fn) (hg : Complete fn g) (hinst : Has fn inst)

include hv hg hinst in
theorem not_private_of_handedOut (hc : Confined fn g s) (ht : Tracked fn s inst a)
    (hmem : v ∈ handedOut fn inst) (o : Object) (hcar : Carries (s.regs v) o) :
    ¬ Private fn g o := by
  cases o with
  | outside n => exact id
  | allocated site n =>
    intro hp
    obtain ⟨-, hflow, hpl⟩ := hc.regs v site n hp hcar
    have hptr : fn.isPointerLike v = true :=
      hpl.elim id (ht.integers v (mem_append_left _ hmem))
    have hpub := hg.published inst hinst v (mem_published hv hinst hmem hptr) hptr
    exact hg.object_of_reference hflow hpub hp.2

theorem foldl_update (ws : List (Nat × List Byte)) (regs : Nat → List Byte) (p : Nat) :
    (ws.foldl (fun regs a => Function.update regs a.1 a.2) regs) p = regs p ∨
      (p, (ws.foldl (fun regs a => Function.update regs a.1 a.2) regs) p) ∈ ws := by
  induction ws generalizing regs with
  | nil => exact .inl rfl
  | cons a ws ih =>
    rw [foldl_cons]
    rcases ih (Function.update regs a.1 a.2) with h | h
    · by_cases hp : p = a.1
      · subst hp
        rw [Function.update_self] at h
        rw [h]
        exact .inr mem_cons_self
      · rw [Function.update_of_ne hp] at h
        exact .inl h
    · exact .inr (mem_cons_of_mem _ h)

theorem mem_words {params args : List Nat} {p : Nat} (h : (p, w) ∈ words s params args) :
    ∃ x, (x, p) ∈ args.zip params ∧ w = s.regs x := by
  unfold words at h
  obtain ⟨i, hi⟩ := mem_iff_getElem?.1 h
  rw [getElem?_zip_eq_some, getElem?_map] at hi
  obtain ⟨hp, hword⟩ := hi
  obtain ⟨x, hx, rfl⟩ := Option.map_eq_some_iff.1 hword
  exact ⟨x, mem_iff_getElem?.2 ⟨i, getElem?_zip_eq_some.2 ⟨hx, hp⟩⟩, rfl⟩

theorem Confined.enter (hc : Confined fn g s) {b : Nat} {params args : List Nat}
    (hw : ∀ x p, (x, p) ∈ args.zip params → ∀ site n, Private fn g (.allocated site n) →
      Carries (s.regs x) (.allocated site n) →
      Flows fn (.reference p) (.allocation site) ∧ fn.isPointerLike p = true) :
    Confined fn g (s.enter b (words s params args)) := by
  refine hc.of_regs rfl rfl fun p site n hp hcar => ?_
  rcases foldl_update (words s params args) s.regs p with h | h
  · unfold State.enter at hcar ⊢
    dsimp only at hcar ⊢
    rw [h] at hcar ⊢
    exact hc.regs p site n hp hcar
  · obtain ⟨x, hx, heq⟩ := mem_words h
    unfold State.enter at hcar ⊢
    dsimp only at hcar ⊢
    rw [heq] at hcar ⊢
    obtain ⟨hflow, hpl⟩ := hw x p hx site n hp hcar
    exact ⟨(hc.regs x site n hp hcar).1, hflow, .inl hpl⟩

include hv hinst in
theorem Confined.enterTarget (hc : Confined fn g s) {t : BranchTarget} (ht : t ∈ inst.targets)
    (hint : ∀ v ∈ copied inst, IsAllocationResult fn v → fn.isPointerLike v = true) :
    Confined fn g (s.enter t.block (words s (fn.block t.block).params t.args)) := by
  refine hc.enter fun x p hx site n hp hcar => ?_
  obtain ⟨-, hflow, hpl⟩ := hc.regs x site n hp hcar
  have hcopied : x ∈ copied inst := mem_append_right _ (mem_flatMap.2 ⟨t, ht, (of_mem_zip hx).1⟩)
  have hptr := hpl.elim id (hint x hcopied)
  have hparam : fn.isPointerLike p = true := by
    unfold Function.isPointerLike at hptr ⊢
    rwa [← hv.edge inst hinst t ht (x, p) hx]
  exact ⟨.copy (.edge hinst ht hx hptr hparam) hflow, hparam⟩

theorem Confined.allocate (hc : Confined fn g s) (hinst : Has fn inst)
    (halloc : isAllocation fn inst = true) (hres : inst.result = some v) {mem : Int → Byte}
    (hmem : ∀ x o pos i, mem x = .part o pos i → Reachable s o) :
    Confined fn g ({ s.set (some v) (address (.allocated v s.allocations) 0) with
      mem := Function.update s.mem (.allocated v s.allocations) mem
      allocations := s.allocations + 1 } : State).next := by
  have hset : Confined fn g (s.set (some v) (address (.allocated v s.allocations) 0)) := by
    refine hc.set fun v' site n hv' _ hcar => ?_
    cases hv'
    obtain ⟨rfl, rfl⟩ := Object.allocated.inj (carries_address.1 hcar)
    exact ⟨rfl, .allocation hinst halloc hres, .inr ⟨inst, hinst, halloc, hres⟩⟩
  have hbyte : ∀ o x target pos i,
      Function.update s.mem (.allocated v s.allocations) mem o x = .part target pos i →
      s.mem o x = .part target pos i ∨ ¬ Private fn g target := by
    intro o x target pos i hb
    by_cases ho : o = .allocated v s.allocations
    · subst ho
      rw [Function.update_self] at hb
      exact .inr (hc.not_private_of_reachable (hmem x target pos i hb))
    · rw [Function.update_of_ne ho] at hb
      exact .inl hb
  refine ⟨hset.regs, fun site n hp x target m pos i hb ht => ?_,
    fun o ho x target pos i hb => ?_, hset.published⟩
  · rcases hbyte _ x _ pos i hb with h | h
    · exact hc.fields site n hp x target m pos i h ht
    · exact (h ht).elim
  · rcases hbyte o x target pos i hb with h | h
    · exact hc.others o ho x target pos i h
    · exact h

include hinst in
theorem Confined.load (hc : Confined fn g s) (ht : Tracked fn s inst a)
    (hop : inst.opcode = .load) (hbase : inst.operands[0]? = some base)
    (hres : inst.result = some v) (hnames : Names (s.regs base) o pos) :
    Confined fn g (s.set (some v) (s.loaded o (pos + inst.offset) (fn.ty v).sizeInBytes)).next := by
  refine (hc.set fun v' target m hv' hp hcar => ?_).next
  cases hv'
  obtain ⟨p, i, hmem⟩ := hcar
  obtain ⟨k, -, hk⟩ := mem_map.1 hmem
  by_cases ho : Private fn g o
  · cases o with
    | outside n => exact ho.elim
    | allocated site n =>
      obtain ⟨rfl, hflow⟩ := hc.names ho hnames
      obtain ⟨hpl, o', pos', hword⟩ := ht.loads hop base v hbase hres site n 0 hnames
        fun hno => hno target m ⟨p, i, hmem⟩
      rw [hword] at hmem
      obtain rfl := carries_address.1 ⟨p, i, hmem⟩
      have hfirst : s.mem (.allocated site n) (0 + inst.offset + (0 : Nat)) =
          .part (.allocated target m) pos' 0 := by
        have hhead := congrArg (·[0]?) hword
        have hsize : (fn.ty v).sizeInBytes = 8 := TypeKind.sizeInBytes_of_pointer hpl
        simp only [State.loaded, hsize, address] at hhead
        exact Option.some.inj hhead
      obtain ⟨rfl, hfield⟩ := hc.fields site n ho _ target m pos' 0 hfirst hp
      rw [hword]
      refine ⟨rfl, .load hinst hop hbase hres hpl hflow ?_, .inl hpl⟩
      simpa using hfield
  · exact (hc.others o ho _ _ _ _ hk hp).elim

include hg hinst in
/-- An address of an object that does not escape is stored into such an object only. -/
theorem store_private (hc : Confined fn g s) (ht : Tracked fn s inst a) {val target m : Nat}
    (hop : inst.opcode = .store) (hbase : inst.operands[0]? = some base)
    (hval : inst.operands[1]? = some val) (hnames : Names (s.regs base) o pos)
    (hp : Private fn g (.allocated target m)) (hcar : Carries (s.regs val) (.allocated target m)) :
    s.regs val = address (.allocated target m) 0 ∧ pos = 0 ∧ Private fn g o ∧
      ∃ site n, o = .allocated site n ∧
        Flows fn (.field (.allocation site) inst.offset) (.allocation target) := by
  obtain ⟨hw, hflow, hpl⟩ := hc.regs val target m hp hcar
  have hcopied : val ∈ copied inst := by
    unfold copied
    rw [hop, hval]
    exact mem_append_left _ mem_cons_self
  have hptr : fn.isPointerLike val = true :=
    hpl.elim id (ht.integers val (mem_append_right _ hcopied))
  have hfield : ∀ x, Flows fn (.reference base) x →
      Flows fn (.field x inst.offset) (.allocation target) :=
    fun x hx => .store hinst hop hbase hval hptr hx hflow
  have hinside : ∀ x, Flows fn (.reference base) x → g.state (.object x) = .noEscape := fun x hx =>
    Classical.by_contradiction fun hne => hg.object_of_field (hfield x hx) hne hp.2
  rcases ht.stores hop base val hbase hval (fun hno => hno target m hcar) o pos hnames with
    hnone | ⟨p, hphantom⟩ | ⟨site, n, rfl, hsite⟩
  · have hempty : g.pointsTo (.reference base) = [] :=
      eq_nil_iff_forall_not_mem.2 fun x hx => hnone x (hg.mem_pointsTo_iff.1 hx)
    have hescapes := hg.store inst base val hinst hop hbase hval hptr hempty
      (ne_nil_of_mem (hg.pointsTo _ _ hflow))
    exact (hg.object_of_reference hflow hescapes hp.2).elim
  · obtain ⟨hparam, hparamptr⟩ := hphantom.param_mem
    exact (hg.param p hparam hparamptr (hinside _ hphantom)).elim
  · have hpo : Private fn g (.allocated site n) := ⟨hsite.isAllocationResult, hinside _ hsite⟩
    exact ⟨hw, (hc.names hpo hnames).1, hpo, site, n, rfl, hfield _ hsite⟩

include hg hinst in
theorem Confined.store (hc : Confined fn g s) (ht : Tracked fn s inst a) {val : Nat}
    (hop : inst.opcode = .store) (hbase : inst.operands[0]? = some base)
    (hval : inst.operands[1]? = some val) (hnames : Names (s.regs base) o pos) :
    Confined fn g (s.write o (pos + inst.offset) (fn.ty val).sizeInBytes (s.regs val)).next := by
  have hbyte : ∀ o' x target m p i, (s.write o (pos + inst.offset) (fn.ty val).sizeInBytes
      (s.regs val)).mem o' x = .part (.allocated target m) p i →
      Private fn g (.allocated target m) → s.mem o' x = .part (.allocated target m) p i ∨
        (o' = o ∧ p = 0 ∧ Private fn g o ∧ ∃ site n, o = .allocated site n ∧
          Flows fn (.field (.allocation site) (x - i)) (.allocation target)) := by
    intro o' x target m p i hb hp
    unfold State.write at hb
    dsimp only at hb
    by_cases ho : o' = o
    · subst ho
      rw [Function.update_self] at hb
      split at hb
      · rename_i hrange
        have hmem : Byte.part (.allocated target m) p i ∈ s.regs val := by
          rw [getD_eq_getElem?_getD] at hb
          cases hget : (s.regs val)[(x - (pos + inst.offset)).toNat]? with
          | none =>
            rw [hget] at hb
            cases hb
          | some byte =>
            rw [hget] at hb
            exact hb ▸ mem_of_getElem? hget
        obtain ⟨hw, rfl, hpo, site, n, rfl, hflow⟩ :=
          store_private hg hinst hc ht hop hbase hval hnames hp ⟨p, i, hmem⟩
        rw [hw] at hb
        obtain ⟨hpi, hpos⟩ : p = 0 ∧ i = (x - (0 + inst.offset)).toNat := by
          rw [getD_eq_getElem?_getD] at hb
          unfold address at hb
          rw [getElem?_map] at hb
          cases hget : (range 8)[(x - (0 + inst.offset)).toNat]? with
          | none =>
            rw [hget] at hb
            cases hb
          | some k =>
            rw [hget] at hb
            have hk := List.getElem?_eq_some_iff.1 hget
            obtain ⟨hlt, hk⟩ := hk
            rw [getElem_range] at hk
            cases hb
            exact ⟨rfl, hk.symm⟩
        refine .inr ⟨rfl, hpi, hpo, site, n, rfl, ?_⟩
        have hx : x - i = inst.offset := by omega
        rwa [hx]
      · exact .inl hb
    · rw [Function.update_of_ne ho] at hb
      exact .inl hb
  refine Confined.next ⟨hc.regs, fun site n hp x target m p i hb htp => ?_,
    fun o' ho' x target p i hb htp => ?_, hc.published⟩
  · rcases hbyte _ x target m p i hb htp with h | ⟨rfl, rfl, -, site', n', heq, hflow⟩
    · exact hc.fields site n hp x target m p i h htp
    · cases heq
      exact ⟨rfl, hflow⟩
  · cases target with
    | outside k => exact htp
    | allocated t m =>
      rcases hbyte o' x t m p i hb htp with h | ⟨rfl, -, hpo, -⟩
      · exact hc.others o' ho' x _ p i h htp
      · exact ho' hpo

include hv hg hinst in
theorem Confined.step (hc : Confined fn g s) (ht : Tracked fn s inst a)
    (hstep : Step fn s inst a s') : Confined fn g s' := by
  have hpublish : actsOutside fn inst = true → Confined fn g (s.publish inst.operands) :=
    fun hout => hc.publish fun x hx => not_private_of_handedOut hv hg hinst hc ht
      (by unfold handedOut; rwa [if_pos hout])
  have hresult : ∀ {s : State} {r : Option Nat} {w : List Byte} {mem : Object → Int → Byte},
      Confined fn g s → OutsideWrites s mem → (∀ o, Carries w o → Reachable s o) →
      Confined fn g { s.set r w with mem } := by
    intro s r w mem hs hmem hw
    have hset : Confined fn g (s.set r w) := hs.set fun v site n _ hp hcar =>
      (hs.not_private_of_reachable (hw _ hcar) hp).elim
    have hwrites := hs.outsideWrites hmem
    exact ⟨hset.regs, hwrites.fields, hwrites.others, hset.published⟩
  have hint : ∀ v ∈ copied inst, IsAllocationResult fn v → fn.isPointerLike v = true :=
    fun v hv => ht.integers v (mem_append_right _ hv)
  cases hstep with
  | allocate halloc hres hmem => exact hc.allocate hinst halloc hres hmem
  | allocateUnused => exact hc.next
  | load hop hbase hres hnames => exact hc.load hinst ht hop hbase hres hnames
  | store hop hbase hval hnames => exact hc.store hg hinst ht hop hbase hval hnames
  | @select x hop hsrc =>
    refine (hc.set fun r site n hr hp hcar => ?_).next
    obtain ⟨hw, hflow, hpl⟩ := hc.regs x site n hp hcar
    have hcopied : x ∈ copied inst := by
      unfold copied
      rw [hop]
      exact mem_append_left _ (by simpa using hsrc)
    have hptr := hpl.elim id (hint x hcopied)
    have hrptr : fn.isPointerLike r = true := by
      unfold Function.isPointerLike at hptr ⊢
      rwa [← hv.select inst hinst hop r x hr hsrc]
    exact ⟨hw, .copy (.select hinst hop hr hsrc hptr hrptr) hflow, .inl hrptr⟩
  | branch _ htarget => exact hc.enterTarget hv hinst htarget hint
  | outside hout _ hmem hw => exact (hresult (hpublish hout) hmem hw).next
  | invoke hop htarget hmem hw =>
    have hout : actsOutside fn inst = true := by
      unfold actsOutside
      rw [hop]
    exact (hresult (hpublish hout) hmem hw).enterTarget hv hinst htarget hint
  | leave hout _ hmem =>
    exact ((hpublish hout).outsideWrites hmem).of_regs rfl rfl (hpublish hout).regs
  | exit hop hmem =>
    have hstate : Confined fn g (s.publish (inst.operands ++ inst.stateMap)) := by
      refine hc.publish fun x hx o hcar => ?_
      rcases mem_append.1 hx with hx | hx
      · refine not_private_of_handedOut hv hg hinst hc ht ?_ o hcar
        unfold handedOut actsOutside
        rw [hop]
        exact hx
      · cases o with
        | outside n => exact id
        | allocated site n => exact (ht.guards x hx site n hcar).elim
    exact (hstate.outsideWrites hmem).of_regs rfl rfl hstate.regs
  | resume hop hb =>
    refine hc.enter fun x p hx site n _ hcar => ?_
    exact (ht.guards x (mem_map.2 ⟨(x, p), hx, rfl⟩) site n hcar).elim

include hv hg in
theorem Confined.reached (h : Reached fn (Tracked fn) s) : Confined fn g s := by
  induction h with
  | start h => exact .initial h
  | @step s s' inst a _ hat hok hstep ih =>
    refine ih.step hv hg ?_ hok hstep
    obtain ⟨p, -, hmem⟩ := Option.bind_eq_some_iff.1 hat
    refine ⟨p.1, ?_, mem_of_getElem? hmem⟩
    by_contra hge
    have hnil : (fn.block p.1).insts = [] := by
      unfold Function.block
      rw [getD_eq_getElem?_getD, getElem?_eq_none (not_lt.1 hge)]
      rfl
    rw [hnil] at hmem
    cases hmem

end Steps

theorem mem_nonEscapingAllocations_iff (hg : Complete fn g) :
    site ∈ nonEscapingAllocations fn options g ↔
      IsAllocationResult fn site ∧ g.state (.object (.allocation site)) = .noEscape := by
  unfold nonEscapingAllocations
  rw [mem_filter, mem_allocations, decide_eq_true_iff]
  refine and_congr_right fun halloc => ?_
  obtain ⟨inst, hinst, halloc, hres⟩ := halloc
  have hflow : Flows fn (.reference site) (.allocation site) := .allocation hinst halloc hres
  unfold ConnectionGraph.getEscapeState
  rw [if_pos (hg.built.pointsTo _ _ (hg.pointsTo _ _ hflow)).2.1]

section Sample

def allocationOf (v : Nat) : Instruction := { opcode := .call, result := some v, symbol := "malloc" }

/-- `%3` is `%1`, which is allocated, or the result of an unknown call; `%4` is stored into it. -/
def mergedBase : Function where
  blocks := [{ params := [0], insts := [allocationOf 1,
    { opcode := .call, result := some 2, symbol := "find" },
    { opcode := .select, result := some 3, operands := [0, 1, 2] },
    allocationOf 4,
    { opcode := .store, operands := [3, 4] },
    { opcode := .ret }] }]
  ty v := if v = 0 then .i32 else .ptr

theorem has_mergedBase (h : Has mergedBase inst) : inst ∈ (mergedBase.block 0).insts := by
  obtain ⟨b, hb, hmem⟩ := h
  obtain rfl : b = 0 := Nat.lt_one_iff.1 hb
  exact hmem

theorem opcode_mergedBase (h : Has mergedBase inst) :
    inst.opcode ∈ [Opcode.call, .select, .store, .ret] := by
  have hall : ∀ i ∈ (mergedBase.block 0).insts, i.opcode ∈ [Opcode.call, .select, .store, .ret] := by
    decide
  exact hall inst (has_mergedBase h)

theorem verified_mergedBase : Verified mergedBase where
  edge inst hinst t ht := by
    have hmem := has_mergedBase hinst
    simp only [mergedBase, Function.block, getD_cons_zero, mem_cons, not_mem_nil, or_false] at hmem
    rcases hmem with rfl | rfl | rfl | rfl | rfl | rfl <;> cases ht
  select inst hinst hop v a hres hsrc := by
    have hmem := has_mergedBase hinst
    simp only [mergedBase, Function.block, getD_cons_zero, mem_cons, not_mem_nil, or_false] at hmem
    rcases hmem with rfl | rfl | rfl | rfl | rfl | rfl <;> cases hop
    cases hres
    rcases hsrc with h | h <;> cases h <;> rfl
  ret inst hinst hop := by
    have hmem := has_mergedBase hinst
    simp only [mergedBase, Function.block, getD_cons_zero, mem_cons, not_mem_nil, or_false] at hmem
    rcases hmem with rfl | rfl | rfl | rfl | rfl | rfl <;> cases hop
    exact Nat.zero_le 1
  loadIndexed inst hinst hop := absurd (opcode_mergedBase hinst) (by rw [hop]; decide)
  storeIndexed inst hinst hop := absurd (opcode_mergedBase hinst) (by rw [hop]; decide)
  index inst hinst hop :=
    absurd (opcode_mergedBase hinst) (by rcases hop with hop | hop <;> rw [hop] <;> decide)

def startState : State where
  point := some (0, 0)
  regs _ := []
  mem _ _ := .data 0
  published _ := False
  allocations := 0

theorem initial_startState : Initial startState where
  point := rfl
  regs _ _ h := by
    obtain ⟨_, _, h⟩ := h
    cases h
  mem _ _ _ _ _ h := by cases h
  published _ := id

/-- The execution up to the store, in which the select takes the operand `x`. -/
theorem reached_store {p : State → Instruction → Action → Prop} {x : Nat} (hx : x = 1 ∨ x = 2)
    (hok : ∀ s inst, inst ∈ (mergedBase.block 0).insts → inst.opcode ≠ .store → p s inst .runs) :
    ∃ s, Reached mergedBase p s ∧ s.point = some (0, 4) ∧
      s.regs 3 = (if x = 1 then address (.allocated 1 0) 0 else address (.outside 0) 0) ∧
      s.regs 4 = address (.allocated 4 1) 0 ∧ ∀ o y, s.mem o y = .data 0 := by
  have hdata : ∀ (mem : Object → Int → Byte) o, (∀ o y, mem o y = .data 0) →
      ∀ o' y, Function.update mem o (fun _ => .data 0) o' y = .data 0 := by
    intro mem o hmem o' y
    by_cases ho : o' = o
    · rw [ho, Function.update_self]
    · rw [Function.update_of_ne ho, hmem]
  have h1 := Reached.step (.start initial_startState) rfl (hok _ (allocationOf 1) (by decide)
    (by decide)) (@Step.allocate mergedBase _ _ (fun _ => .data 0) 1 rfl rfl
      fun _ _ _ _ h => by cases h)
  have h2 := Reached.step h1 rfl (hok _ { opcode := .call, result := some 2, symbol := "find" }
    (by decide) (by decide)) (@Step.outside mergedBase _ _ _ (address (.outside 0) 0) rfl (by decide)
      (fun _ _ => .inl rfl) fun o h => carries_address.1 h ▸ .outside 0)
  have h3 := Reached.step h2 rfl (hok _
    { opcode := .select, result := some 3, operands := [0, 1, 2] } (by decide) (by decide))
    (@Step.select mergedBase _ _ x rfl (hx.imp (congrArg some ·.symm) (congrArg some ·.symm)))
  have h4 := Reached.step h3 rfl (hok _ (allocationOf 4) (by decide) (by decide))
    (@Step.allocate mergedBase _ _ (fun _ => .data 0) 4 rfl rfl fun _ _ _ _ h => by cases h)
  refine ⟨_, h4, rfl, ?_, rfl, hdata _ _ (hdata _ _ fun _ _ => rfl)⟩
  rcases hx with rfl | rfl <;> rfl

end Sample

end Brass.Mir.Escape
