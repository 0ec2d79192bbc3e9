import Mathlib.Data.List.Perm.Subperm
import Mathlib.Data.List.Nodup
import Brass.Codegen.SchedDagBarrier
import Brass.Codegen.InstructionScheduler

/-!
# The order of the list scheduler

The loop takes a node only when all its predecessors are scheduled: the count of a node's
unscheduled predecessors is the number of edges into it from nodes not yet in the order, and
it is queued when that number reaches zero. So the order repeats no node, respects every edge
of the graph, and therefore every chain of edges.
-/

namespace Brass.Codegen

open Relation SchedDag List

variable {α : Type}
variable {d : SchedDag α} {order : List Nat} {a b c : Nat} {st : SchedState} {rest : List SchedEdge}
  {cx : SchedContext α}

/-- The edges into a node from nodes outside a list. -/
def openPreds (d : SchedDag α) (order : List Nat) (b : Nat) : Nat :=
  (d.edges.filter fun e => e.dst == b && decide (e.src ∉ order)).length

def edgesInto (es : List SchedEdge) (b : Nat) : Nat := (es.filter fun e => e.dst == b).length

/-- Predecessors come first. -/
def Respects (d : SchedDag α) (order : List Nat) : Prop :=
  ∀ front b rest, order = front ++ b :: rest → ∀ a, d.HasEdge a b → a ∈ front

/-- The loop between two rounds, or within one with the edges `rest` of the node just
scheduled still to come. -/
structure LoopInv (d : SchedDag α) (rest : List SchedEdge) (st : SchedState) : Prop where
  nodup : (st.scheduledOrder ++ st.readyQueue).Nodup
  bound : ∀ i ∈ st.scheduledOrder ++ st.readyQueue, i < d.size
  flagged : ∀ i ∈ st.scheduledOrder ++ st.readyQueue, st.inReadyQueue i = true
  ready : ∀ b ∈ st.readyQueue, ∀ a, d.HasEdge a b → a ∈ st.scheduledOrder
  counts : ∀ b, st.unscheduledPreds b = openPreds d st.scheduledOrder b + edgesInto rest b
  respects : Respects d st.scheduledOrder

theorem openPreds_eq_zero (h : openPreds d order b = 0) (hab : d.HasEdge a b) : a ∈ order := by
  obtain ⟨e, he, rfl, rfl⟩ := hab
  by_contra hout
  have hmem : e ∈ d.edges.filter fun e' => e'.dst == e.dst && decide (e'.src ∉ order) :=
    mem_filter.mpr ⟨he, by simp [hout]⟩
  rw [length_eq_zero_iff.mp h] at hmem
  exact absurd hmem not_mem_nil

theorem edgesInto_cons (e : SchedEdge) (es : List SchedEdge) (b : Nat) :
    edgesInto (e :: es) b = edgesInto es b + if e.dst = b then 1 else 0 := by
  by_cases h : e.dst = b
  · simp [edgesInto, h]
  · simp [edgesInto, h]

theorem openPreds_snoc (hc : c ∉ order) (b : Nat) :
    openPreds d order b = openPreds d (order ++ [c]) b + edgesInto (d.succs c) b := by
  unfold openPreds edgesInto SchedDag.succs
  induction d.edges with
  | nil => rfl
  | cons e es ih =>
      by_cases hdst : e.dst = b
      · by_cases hsrc : e.src = c
        · simp [hdst, hsrc, hc] at ih ⊢
          omega
        · by_cases hin : e.src ∈ order
          · simp [hdst, hsrc, hin] at ih ⊢
            omega
          · simp [hdst, hsrc, hin] at ih ⊢
            omega
      · by_cases hsrc : e.src = c
        · simp [hdst, hsrc] at ih ⊢
          omega
        · simp [hdst, hsrc] at ih ⊢
          omega

/-! ## One successor -/

theorem updateSuccessor_order (st : SchedState) (s : SchedEdge) :
    (updateSuccessor st s).scheduledOrder = st.scheduledOrder := by
  unfold updateSuccessor
  dsimp only
  split
  · split
    · rfl
    · rfl
  · rfl

/-- With the edges not seen yet counted, the guard on the count is always met. -/
theorem updateSuccessor_inv {s : SchedEdge} (h : LoopInv d (s :: rest) st) (hs : s.dst < d.size) :
    LoopInv d rest (updateSuccessor st s) := by
  have hself : st.unscheduledPreds s.dst =
      openPreds d st.scheduledOrder s.dst + edgesInto rest s.dst + 1 := by
    rw [h.counts, edgesInto_cons, if_pos rfl]
    omega
  have hcounts : ∀ b, (if b = s.dst then st.unscheduledPreds s.dst - 1
      else st.unscheduledPreds b) = openPreds d st.scheduledOrder b + edgesInto rest b := by
    intro b
    by_cases hb : b = s.dst
    · rw [if_pos hb, hself, hb]
      omega
    · rw [if_neg hb, h.counts, edgesInto_cons, if_neg (Ne.symm hb)]
      omega
  unfold updateSuccessor
  dsimp only
  rw [if_pos (by omega)]
  by_cases hqueue : (decide (st.unscheduledPreds s.dst - 1 = 0) && !st.inReadyQueue s.dst) = true
  · rw [if_pos hqueue]
    rw [Bool.and_eq_true, decide_eq_true_eq, Bool.not_eq_true'] at hqueue
    have hnew : s.dst ∉ st.scheduledOrder ++ st.readyQueue := by
      intro hmem
      rw [h.flagged _ hmem] at hqueue
      exact absurd hqueue.2 (by simp)
    have hzero : openPreds d st.scheduledOrder s.dst = 0 := by omega
    have hmem : ∀ i, i ∈ st.scheduledOrder ++ (st.readyQueue ++ [s.dst]) ↔
        i ∈ st.scheduledOrder ++ st.readyQueue ∨ i = s.dst := by
      intro i
      rw [← append_assoc, mem_append, mem_singleton]
    refine ⟨?_, ?_, ?_, ?_, hcounts, h.respects⟩
    · dsimp only
      rw [← append_assoc]
      exact nodup_append.mpr ⟨h.nodup, nodup_singleton _, fun a ha b hb => by
        rw [mem_singleton.mp hb]
        exact fun heq => hnew (heq ▸ ha)⟩
    · intro i hi
      rcases (hmem i).mp hi with hi | rfl
      · exact h.bound i hi
      · exact hs
    · intro i hi
      dsimp only
      split
      · rfl
      · rename_i hne
        exact h.flagged i (((hmem i).mp hi).resolve_right hne)
    · intro b hb a hab
      rcases mem_append.mp hb with hb | hb
      · exact h.ready b hb a hab
      · rw [mem_singleton.mp hb] at hab
        exact openPreds_eq_zero hzero hab
  · rw [if_neg hqueue]
    exact { h with counts := hcounts }

theorem foldl_updateSuccessor {es : List SchedEdge} (h : LoopInv d es st)
    (hs : ∀ e ∈ es, e.dst < d.size) :
    LoopInv d [] (es.foldl updateSuccessor st) ∧
      (es.foldl updateSuccessor st).scheduledOrder = st.scheduledOrder := by
  induction es generalizing st with
  | nil => exact ⟨h, rfl⟩
  | cons e es ih =>
      have hstep := updateSuccessor_inv h (hs e mem_cons_self)
      obtain ⟨hinv, horder⟩ := ih hstep fun e' he' => hs e' (mem_cons_of_mem e he')
      exact ⟨hinv, horder.trans (updateSuccessor_order st e)⟩

/-! ## One round -/

theorem respects_snoc (h : Respects d order) (hc : ∀ a, d.HasEdge a c → a ∈ order) :
    Respects d (order ++ [c]) := by
  intro front b rest heq a hab
  rcases eq_nil_or_concat rest with rfl | ⟨rest', last, rfl⟩
  · obtain ⟨rfl, hb⟩ := append_inj' heq rfl
    obtain rfl : c = b := by simpa using hb
    exact hc a hab
  · have heq' : order ++ [c] = (front ++ b :: rest') ++ [last] := by simpa using heq
    exact h front b rest' (append_inj' heq' rfl).1 a hab

theorem scheduleNode_inv (st : SchedState) (high : Bool) (hd : cx.dag.Forward)
    (h : LoopInv cx.dag [] st) (hc : c ∈ st.readyQueue) :
    LoopInv cx.dag [] (scheduleNode cx st high c) ∧
      (scheduleNode cx st high c).scheduledOrder = st.scheduledOrder ++ [c] := by
  have hnot : c ∉ st.scheduledOrder := fun hmem =>
    (nodup_append.mp h.nodup).2.2 c hmem c hc rfl
  have hperm : (st.scheduledOrder ++ st.readyQueue).Perm
      ((st.scheduledOrder ++ [c]) ++ st.readyQueue.erase c) := by
    rw [append_assoc]
    exact (perm_cons_erase hc).append_left _
  have hqueue : ∀ b ∈ st.readyQueue.erase c, b ∈ st.readyQueue := fun b hb =>
    mem_of_mem_erase hb
  refine foldl_updateSuccessor ?_ fun e he => (hd e (mem_succs.mp he).1).2
  refine ⟨hperm.nodup_iff.mp h.nodup, fun i hi => h.bound i (hperm.mem_iff.mpr hi),
    fun i hi => h.flagged i (hperm.mem_iff.mpr hi), fun b hb a hab => ?_, fun b => ?_, ?_⟩
  · exact mem_append_left _ (h.ready b (hqueue b hb) a hab)
  · have hcount := h.counts b
    rw [openPreds_snoc hnot] at hcount
    exact hcount
  · exact respects_snoc h.respects (h.ready c hc)

theorem minElement_mem (less : Score → Score → Bool) (first : Score) (rest : List Score) :
    minElement less first rest ∈ first :: rest := by
  induction rest generalizing first with
  | nil => exact mem_singleton.mpr rfl
  | cons x rest ih =>
      have hstep := ih (if less x first then x else first)
      rw [minElement, foldl_cons]
      rcases mem_cons.mp hstep with heq | hmem
      · rw [minElement] at heq
        rw [heq]
        split
        · simp
        · simp
      · rw [minElement] at hmem
        exact mem_cons_of_mem _ (mem_cons_of_mem _ hmem)

/-- At the cycle the round moves to, some queued node is ready. -/
theorem readyNow_readyAt_ne_nil (h : st.readyQueue ≠ []) : readyNow st (readyAt st) ≠ [] := by
  unfold readyAt
  split
  · rename_i hnone hmin
    rename_i minR
    obtain ⟨u, hu, hcycle⟩ := mem_map.mp (min?_mem hmin)
    have hlate : ¬ st.readyCycle u ≤ st.currentCycle := by
      intro hle
      have hmem : u ∈ readyNow st st.currentCycle :=
        mem_filter.mpr ⟨hu, decide_eq_true hle⟩
      rw [hnone] at hmem
      exact absurd hmem not_mem_nil
    rw [if_pos (by omega)]
    apply ne_nil_of_mem (a := u)
    exact mem_filter.mpr ⟨hu, decide_eq_true hcycle.le⟩
  · rename_i hneither
    intro hnil
    cases hmin : (st.readyQueue.map st.readyCycle).min? with
    | none =>
        rw [min?_eq_none_iff, map_eq_nil_iff] at hmin
        exact h hmin
    | some minR => exact hneither minR hnil hmin

theorem scheduleStep_cases (hqueue : st.readyQueue ≠ []) : ∃ c ∈ st.readyQueue, ∃ cycle stats high,
    scheduleStep cx st =
      scheduleNode cx { st with currentCycle := cycle, stats := stats } high c := by
  unfold scheduleStep
  dsimp only
  split
  · rename_i hnil
    exact absurd hnil (readyNow_readyAt_ne_nil hqueue)
  · rename_i u us hready
    generalize hbest : minElement _ _ _ = best
    have hmem : best ∈ (u :: us).map (score cx st
        (decide (cx.opts.gprPressureThreshold ≤ st.liveGprs) ||
          decide (cx.opts.xmmPressureThreshold ≤ st.liveXmms))) := by
      rw [← hbest, map_cons]
      exact minElement_mem _ _ _
    obtain ⟨c, hc, rfl⟩ := mem_map.mp hmem
    rw [← hready] at hc
    exact ⟨c, (mem_filter.mp hc).1, _, _, _, rfl⟩

theorem scheduleStep_inv (hd : cx.dag.Forward) (h : LoopInv cx.dag [] st)
    (hqueue : st.readyQueue ≠ []) :
    LoopInv cx.dag [] (scheduleStep cx st) ∧
      (scheduleStep cx st).scheduledOrder.length = st.scheduledOrder.length + 1 := by
  obtain ⟨c, hc, cycle, stats, high, heq⟩ := @scheduleStep_cases _ _ cx hqueue
  have hstep := scheduleNode_inv { st with currentCycle := cycle, stats := stats } high hd
    { h with } hc
  rw [heq, hstep.2, length_append]
  exact ⟨hstep.1, rfl⟩

/-! ## The whole loop -/

theorem scheduleLoop_inv (hd : cx.dag.Forward) {fuel : Nat} (h : LoopInv cx.dag [] st) :
    LoopInv cx.dag [] (scheduleLoop cx fuel st) := by
  induction fuel generalizing st with
  | zero => exact h
  | succ fuel ih =>
      rw [scheduleLoop]
      split
      · exact h
      · rename_i hqueue
        exact ih (scheduleStep_inv hd h (by rw [hqueue]; simp)).1

theorem LoopInv.length_le (h : LoopInv d rest st) :
    st.scheduledOrder.length + st.readyQueue.length ≤ d.size := by
  have hsub : (st.scheduledOrder ++ st.readyQueue).Subperm (range d.size) :=
    h.nodup.subperm fun i hi => mem_range.mpr (h.bound i hi)
  have hlen := hsub.length_le
  rwa [length_append, length_range] at hlen

/-- A node is queued no later than its last predecessor is scheduled. -/
structure Covers (n : Nat) (st : SchedState) : Prop where
  flagged : ∀ b, st.inReadyQueue b = true → b ∈ st.scheduledOrder ++ st.readyQueue
  free : ∀ b < n, st.unscheduledPreds b = 0 → b ∈ st.scheduledOrder ++ st.readyQueue

theorem updateSuccessor_covers {n : Nat} (h : Covers n st) (s : SchedEdge) :
    Covers n (updateSuccessor st s) := by
  unfold updateSuccessor
  dsimp only
  split
  · split
    · have hmem : ∀ b, b = s.dst ∨ b ∈ st.scheduledOrder ++ st.readyQueue →
          b ∈ st.scheduledOrder ++ (st.readyQueue ++ [s.dst]) := by
        intro b hb
        rw [← append_assoc, mem_append, mem_singleton]
        exact hb.symm
      refine ⟨fun b hb => hmem b ?_, fun b hb h0 => hmem b ?_⟩
      · exact or_iff_not_imp_left.mpr fun hne => h.flagged b (by simpa [hne] using hb)
      · exact or_iff_not_imp_left.mpr fun hne => h.free b hb (by simpa [hne] using h0)
    · rename_i hqueue
      refine ⟨h.flagged, fun b hb h0 => ?_⟩
      by_cases heq : b = s.dst
      · simp only [heq, if_true] at h0 ⊢
        exact h.flagged _ (by simpa [h0] using hqueue)
      · exact h.free b hb (by simpa [heq] using h0)
  · exact ⟨h.flagged, h.free⟩

theorem scheduleStep_covers {n : Nat} (h : Covers n st) (hqueue : st.readyQueue ≠ []) :
    Covers n (scheduleStep cx st) := by
  obtain ⟨c, hc, cycle, stats, high, heq⟩ := @scheduleStep_cases _ _ cx hqueue
  have hperm : (st.scheduledOrder ++ st.readyQueue).Perm
      ((st.scheduledOrder ++ [c]) ++ st.readyQueue.erase c) := by
    rw [append_assoc]
    exact (perm_cons_erase hc).append_left _
  rw [heq, scheduleNode]
  refine foldlRecOn _ _ ⟨fun b hb => ?_, fun b hb h0 => ?_⟩ fun st' h' s _ =>
    updateSuccessor_covers h' s
  · exact hperm.subset (h.flagged b hb)
  · exact hperm.subset (h.free b hb h0)

theorem Covers.done (h : Covers d.size st) (hinv : LoopInv d [] st) (hd : d.Forward)
    (hqueue : st.readyQueue = []) : st.scheduledOrder.length = d.size := by
  have hall : ∀ b < d.size, b ∈ st.scheduledOrder := by
    intro b
    induction b using Nat.strongRecOn with
    | ind b ih =>
      intro hb
      have hopen : openPreds d st.scheduledOrder b = 0 := by
        refine length_eq_zero_iff.mpr (filter_eq_nil_iff.mpr fun e he hopen => ?_)
        obtain ⟨rfl, hout⟩ : e.dst = b ∧ e.src ∉ st.scheduledOrder := by simpa using hopen
        have hlt := hd e he
        exact hout (ih e.src hlt.1 (hlt.1.trans hlt.2))
      have hmem := h.free b hb ((hinv.counts b).trans (by rw [hopen]; rfl))
      rwa [hqueue, append_nil] at hmem
  have hlen := hinv.length_le
  have hle := (nodup_range.subperm fun b hb => hall b (mem_range.mp hb)).length_le
  rw [length_range] at hle
  omega

theorem scheduleLoop_complete (hd : cx.dag.Forward) {fuel : Nat} (h : LoopInv cx.dag [] st)
    (hcovers : Covers cx.dag.size st) (hfuel : cx.dag.size ≤ st.scheduledOrder.length + fuel) :
    (scheduleLoop cx fuel st).scheduledOrder.length = cx.dag.size := by
  induction fuel generalizing st with
  | zero =>
    have hlen := h.length_le
    exact le_antisymm (Nat.le_of_add_right_le hlen) hfuel
  | succ fuel ih =>
    rw [scheduleLoop]
    split
    · exact hcovers.done h hd ‹_›
    · rename_i hqueue
      have hne : st.readyQueue ≠ [] := by simp [hqueue]
      obtain ⟨hinv, hlen⟩ := scheduleStep_inv hd h hne
      exact ih hinv (scheduleStep_covers hcovers hne) (by omega)

theorem initialState_inv (cx : SchedContext α) : LoopInv cx.dag [] (initialState cx) := by
  have hopen : ∀ b, openPreds cx.dag [] b = (cx.dag.preds b).length := by
    intro b
    simp [openPreds, SchedDag.preds]
  have hmem : ∀ i ∈ (initialState cx).scheduledOrder ++ (initialState cx).readyQueue,
      i < cx.dag.size ∧ (cx.dag.preds i).length = 0 := by
    intro i hi
    rw [show (initialState cx).scheduledOrder = [] from rfl, nil_append] at hi
    obtain ⟨hrange, hpreds⟩ := mem_filter.mp hi
    exact ⟨mem_range.mp hrange, beq_iff_eq.mp hpreds⟩
  refine ⟨?_, fun i hi => (hmem i hi).1, fun i hi => ?_, fun b hb a hab => ?_, fun b => ?_, ?_⟩
  · exact nodup_range.filter _
  · obtain ⟨hlt, hpreds⟩ := hmem i hi
    simp only [initialState, Bool.and_eq_true, decide_eq_true_eq, beq_iff_eq]
    exact ⟨hlt, hpreds⟩
  · obtain ⟨e, he, _, hdst⟩ := hab
    have hpred : e ∈ cx.dag.preds b := mem_preds.mpr ⟨he, hdst⟩
    rw [length_eq_zero_iff.mp (hmem b hb).2] at hpred
    exact absurd hpred not_mem_nil
  · rw [show (initialState cx).scheduledOrder = [] from rfl, hopen]
    rfl
  · intro front b rest heq
    exact absurd heq (by simp [initialState])

theorem initialState_covers (cx : SchedContext α) : Covers cx.dag.size (initialState cx) where
  flagged b hb := by simpa [initialState] using hb
  free b hb h0 := by simpa [initialState, hb] using h0

/-! ## Respecting a graph -/

/-- What a chain of edges orders, the order keeps. -/
theorem Respects.reach (h : Respects d order) (hab : d.Reach a b) (hne : a ≠ b)
    {front rest : List Nat} (heq : order = front ++ b :: rest) : a ∈ front := by
  induction hab generalizing front rest with
  | refl => exact absurd rfl hne
  | @tail m b hpath hedge ih =>
      have hm : m ∈ front := h front b rest heq m hedge
      by_cases ham : a = m
      · exact ham ▸ hm
      · obtain ⟨front', rest', rfl⟩ := append_of_mem hm
        rw [append_assoc] at heq
        exact mem_append_left _ (ih ham heq)

theorem Respects.sublist (h : Respects d order) (hab : d.Reach a b) (hne : a ≠ b)
    (hb : b ∈ order) : [a, b].Sublist order := by
  obtain ⟨front, rest, rfl⟩ := append_of_mem hb
  have ha := h.reach hab hne rfl
  have left : [a].Sublist front := singleton_sublist.mpr ha
  exact left.append (singleton_sublist.mpr mem_cons_self)

section

variable (insts : List (LirInst α)) (arch : Arch)
include insts arch

theorem buildDag_extends : Extends { insts := insts, arch := arch } (buildDag insts arch) :=
  ((buildRegisterDependencies_extends _).trans (buildMemoryDependencies_extends _)).trans
    (buildBarrierDependencies_extends _)

theorem forward_empty : SchedDag.Forward { insts := insts, arch := arch } := by
  intro e he
  exact absurd he not_mem_nil

theorem buildDag_forward : (buildDag insts arch).Forward :=
  (buildDag_extends insts arch).forward (forward_empty insts arch)

theorem buildDag_size : (buildDag insts arch).size = insts.length :=
  (buildDag_extends insts arch).size

end

theorem sublist_pair_range {n : Nat} (hab : a < b) (hb : b < n) : [a, b].Sublist (range n) := by
  have hsplit : range n = range b ++ range' b (n - b) := by
    have happend := range'_append_1 (s := 0) (m := b) (n := n - b)
    rw [Nat.zero_add, Nat.add_sub_cancel' hb.le] at happend
    rw [range_eq_range', range_eq_range', happend]
  rw [hsplit]
  have left : [a].Sublist (range b) := singleton_sublist.mpr (mem_range.mpr hab)
  exact left.append (singleton_sublist.mpr (mem_range'_between.mpr ⟨Nat.le_refl b, hb⟩))

theorem LoopInv.perm_range (h : LoopInv d rest st) (hlen : st.scheduledOrder.length = d.size) :
    (range d.size).Perm st.scheduledOrder := by
  have hnodup := (nodup_append.mp h.nodup).1
  have hsub : st.scheduledOrder.Subperm (range d.size) :=
    hnodup.subperm fun i hi => mem_range.mpr (h.bound i (mem_append_left _ hi))
  exact (hsub.perm_of_length_le (by rw [length_range]; exact hlen.ge)).symm

section

variable (insts : List (LirInst α)) (arch : Arch) (opts : SchedOptions)
include insts arch opts

theorem schedContext_dag : (schedContext insts arch opts).dag = buildDag insts arch := by
  unfold schedContext
  dsimp only

/-- The loop never stops short, and the check of its length never fails. -/
theorem schedulesAll : (scheduleLoop (schedContext insts arch opts) insts.length
    (initialState (schedContext insts arch opts))).scheduledOrder.length = insts.length := by
  have hdag := schedContext_dag insts arch opts
  have hloop := @scheduleLoop_complete _ _ (schedContext insts arch opts)
    (hdag ▸ buildDag_forward insts arch) _ (initialState_inv _) (initialState_covers _) (by
      rw [hdag, buildDag_size]
      exact Nat.le_add_left _ _)
  rwa [hdag, buildDag_size] at hloop

theorem blockScheduler_cases : (BlockScheduler.run insts arch opts).1 = range insts.length ∨
      ∃ st, LoopInv (buildDag insts arch) [] st ∧ st.scheduledOrder.length = insts.length ∧
        (BlockScheduler.run insts arch opts).1 = st.scheduledOrder := by
  have hd : (schedContext insts arch opts).dag.Forward := by
    rw [schedContext_dag]
    exact buildDag_forward insts arch
  have hinv : LoopInv (buildDag insts arch) [] (scheduleLoop (schedContext insts arch opts)
      insts.length (initialState (schedContext insts arch opts))) := by
    rw [← schedContext_dag insts arch opts]
    exact scheduleLoop_inv hd (initialState_inv (schedContext insts arch opts))
  unfold BlockScheduler.run
  dsimp only
  generalize scheduleLoop (schedContext insts arch opts) insts.length
    (initialState (schedContext insts arch opts)) = st at hinv ⊢
  split
  · exact Or.inl rfl
  · split
    · exact Or.inl rfl
    · split
      · exact Or.inl rfl
      · split
        · rename_i hlen
          exact Or.inr ⟨st, hinv, hlen, rfl⟩
        · exact Or.inl rfl

/-- The order of a block is a permutation of its positions in which every chain of edges of
its graph keeps its direction. -/
theorem blockScheduler_order : (range insts.length).Perm (BlockScheduler.run insts arch opts).1 ∧
      ∀ a b, (buildDag insts arch).Reach a b → a < b → b < insts.length →
        [a, b].Sublist (BlockScheduler.run insts arch opts).1 := by
  have hsize := buildDag_size insts arch
  obtain heq | ⟨st, hinv, hlen, heq⟩ := blockScheduler_cases insts arch opts
  · rw [heq]
    exact ⟨List.Perm.refl _, fun a b _ hab hb => sublist_pair_range hab hb⟩
  · rw [heq]
    have hperm := hinv.perm_range (hlen.trans hsize.symm)
    rw [hsize] at hperm
    refine ⟨hperm, fun a b hreach hab hb => ?_⟩
    exact hinv.respects.sublist hreach hab.ne (hperm.mem_iff.mp (mem_range.mpr hb))

end

end Brass.Codegen
