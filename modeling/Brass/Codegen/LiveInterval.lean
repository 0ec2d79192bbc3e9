import Brass.Codegen.Lir
import Brass.Util.PartitionPoint

/-!
# Live intervals

The live interval of a virtual register (`codegen/live_range.hpp`) is a list of segments of
instruction positions, both ends included, that are sorted, disjoint and never adjacent, and
the positions at which instructions name the register. `addRange` and `shortenStart` keep
the segments so (`Separated`).

Instructions stand at even positions; a position is a `uint32_t` whose largest value stands
for none.
-/

namespace Brass.Codegen

open Brass.Util List

/-- `UINT32_MAX` -/
def kNever : Nat := 4294967295

structure UsePosition where
  instId : Nat
  isDef : Bool
  requiresReg : Bool
  fixedReg : PReg := {}
  deriving DecidableEq

structure LiveRangeSegment where
  start : Nat
  stop : Nat
  deriving DecidableEq, Repr

def LiveRangeSegment.contains (s : LiveRangeSegment) (id : Nat) : Bool :=
  s.start ≤ id && id ≤ s.stop

structure LiveInterval where
  vreg : VReg
  startId : Nat := kNever
  endId : Nat := 0
  segments : List LiveRangeSegment := []
  usePositions : List UsePosition := []
  spansCall : Bool := false
  deriving DecidableEq

namespace LiveInterval

/-- The segments that touch `[s, e]` become one. -/
def mergeRange (segments : List LiveRangeSegment) (s e : Nat) : List LiveRangeSegment :=
  let lo := partitionPoint segments (fun seg => seg.stop + 1 < s)
  let rest := segments.drop lo
  let n := partitionPoint rest (fun seg => ¬ e + 1 < seg.start)
  let run := rest.take n
  segments.take lo ++ (match run.head?, run.getLast? with
    | some first, some last => ⟨min s first.start, max e last.stop⟩
    | _, _ => ⟨s, e⟩) :: rest.drop n

def addRange (iv : LiveInterval) (s e : Nat) : LiveInterval :=
  if s > e then iv
  else { iv with
    startId := min iv.startId s
    endId := max iv.endId e
    segments := mergeRange iv.segments s e }

/-- The first segment that holds the position starts there. -/
def cutAt (fromId : Nat) : List LiveRangeSegment → Option (List LiveRangeSegment)
  | [] => none
  | seg :: segs =>
    if seg.contains fromId then some (⟨fromId, seg.stop⟩ :: segs)
    else (cutAt fromId segs).map (seg :: ·)

def shortenStart (iv : LiveInterval) (fromId : Nat) : LiveInterval :=
  if iv.segments = [] then
    { iv with
      segments := [⟨fromId, fromId + 1⟩]
      startId := fromId
      endId := max iv.endId (fromId + 1) }
  else
    match cutAt fromId iv.segments with
    | none => iv.addRange fromId (fromId + 1)
    | some segs =>
      { iv with segments := segs, startId := segs.foldl (fun m seg => min m seg.start) kNever }

def addUsePos (iv : LiveInterval) (id : Nat) (isDef : Bool) (requiresReg : Bool := true)
    (fixed : PReg := {}) : LiveInterval :=
  { iv with
    usePositions := iv.usePositions ++ [⟨id, isDef, requiresReg, fixed⟩]
    startId := min iv.startId id
    endId := max iv.endId id }

def covers (iv : LiveInterval) (id : Nat) : Bool :=
  if id < iv.startId ∨ id > iv.endId then false
  else
    match (iv.segments.take (partitionPoint iv.segments (fun seg => ¬ id < seg.start))).getLast? with
    | none => false
    | some seg => seg.contains id

end LiveInterval

/-! ## Separated segments -/

/-- The segments are sorted, disjoint and never adjacent. -/
structure Separated (segs : List LiveRangeSegment) : Prop where
  proper : ∀ seg ∈ segs, seg.start ≤ seg.stop
  apart : segs.Pairwise (fun a b => a.stop + 1 < b.start)

variable {segs : List LiveRangeSegment} {seg : LiveRangeSegment} {s e : Nat}

theorem separated_nil : Separated [] := ⟨by simp, List.Pairwise.nil⟩

theorem separated_singleton (h : s ≤ e) : Separated [⟨s, e⟩] :=
  ⟨by simpa using h, pairwise_singleton _ _⟩

theorem separated_cons : Separated (seg :: segs) ↔
    seg.start ≤ seg.stop ∧ (∀ b ∈ segs, seg.stop + 1 < b.start) ∧ Separated segs := by
  constructor
  · intro h
    obtain ⟨ha, hp⟩ := pairwise_cons.mp h.apart
    exact ⟨h.proper _ mem_cons_self, ha, fun b hb => h.proper b (mem_cons_of_mem _ hb), hp⟩
  · rintro ⟨hle, ha, h⟩
    refine ⟨fun b hb => ?_, pairwise_cons.mpr ⟨ha, h.apart⟩⟩
    rcases mem_cons.mp hb with rfl | hb
    · exact hle
    · exact h.proper b hb

theorem Separated.of_append_right {pre : List LiveRangeSegment} (h : Separated (pre ++ segs)) :
    Separated segs :=
  ⟨fun b hb => h.proper b (mem_append_right _ hb), (pairwise_append.mp h.apart).2.1⟩

theorem Separated.of_append_left {post : List LiveRangeSegment} (h : Separated (segs ++ post)) :
    Separated segs :=
  ⟨fun b hb => h.proper b (mem_append_left _ hb), (pairwise_append.mp h.apart).1⟩

theorem Separated.mono_stop (h : Separated segs) (x : Nat) :
    segs.Pairwise (fun a b => decide (b.stop + 1 < x) = true → decide (a.stop + 1 < x) = true) := by
  refine h.apart.imp_of_mem (fun {a b} _ hb hab hlt => ?_)
  have := h.proper b hb
  simp only [decide_eq_true_eq] at hlt ⊢
  omega

theorem Separated.mono_start (h : Separated segs) (x : Nat) :
    segs.Pairwise (fun a b => decide (¬ x < b.start) = true → decide (¬ x < a.start) = true) := by
  refine h.apart.imp_of_mem (fun {a b} ha _ hab hlt => ?_)
  have := h.proper a ha
  simp only [decide_eq_true_eq] at hlt ⊢
  omega

theorem Separated.mergeRange (h : Separated segs) (hse : s ≤ e) :
    Separated (LiveInterval.mergeRange segs s e) := by
  unfold LiveInterval.mergeRange
  dsimp only
  have hrest : Separated (segs.drop (partitionPoint segs (fun seg => seg.stop + 1 < s))) :=
    (take_append_drop _ segs ▸ h).of_append_right
  have hpre : ∀ a ∈ segs.take (partitionPoint segs (fun seg => seg.stop + 1 < s)),
      a.stop + 1 < s := by
    intro a ha
    rw [take_partitionPoint (h.mono_stop s)] at ha
    simpa using mem_takeWhile_imp ha
  have hpre' := (take_append_drop (partitionPoint segs (fun seg => seg.stop + 1 < s)) segs
    ▸ h.apart : List.Pairwise _ (_ ++ _))
  obtain ⟨hpp, -, hcross⟩ := pairwise_append.mp hpre'
  have hps : ∀ a ∈ segs.take (partitionPoint segs (fun seg => seg.stop + 1 < s)),
      a.start ≤ a.stop := fun a ha => h.proper a (mem_of_mem_take ha)
  generalize segs.take (partitionPoint segs (fun seg => seg.stop + 1 < s)) = pre at *
  generalize segs.drop (partitionPoint segs (fun seg => seg.stop + 1 < s)) = rest at *
  have hpost : ∀ c ∈ rest.drop (partitionPoint rest (fun seg => ¬ e + 1 < seg.start)),
      e + 1 < c.start := by
    intro c hc
    rw [drop_partitionPoint (hrest.mono_start (e + 1))] at hc
    simpa using not_of_mem_dropWhile (hrest.mono_start (e + 1)) hc
  have hsplit := take_append_drop (partitionPoint rest (fun seg => ¬ e + 1 < seg.start)) rest
  generalize rest.take (partitionPoint rest (fun seg => ¬ e + 1 < seg.start)) = run at *
  generalize rest.drop (partitionPoint rest (fun seg => ¬ e + 1 < seg.start)) = post at *
  subst hsplit
  have hrun := (pairwise_append.mp hrest.apart).2.2
  -- The new segment: what is before it ends before, what is after starts after.
  have hnew : ∀ new : LiveRangeSegment, new.start ≤ new.stop →
      (∀ a ∈ pre, a.stop + 1 < new.start) → (∀ c ∈ post, new.stop + 1 < c.start) →
      Separated (pre ++ new :: post) := by
    intro new hle hbefore hafter
    refine ⟨fun b hb => ?_, pairwise_append.mpr ⟨hpp, pairwise_cons.mpr
      ⟨hafter, hrest.of_append_right.apart⟩, fun a ha b hb => ?_⟩⟩
    · rcases mem_append.mp hb with hb | hb
      · exact hps b hb
      · rcases mem_cons.mp hb with rfl | hb
        · exact hle
        · exact hrest.proper b (mem_append_right _ hb)
    · rcases mem_cons.mp hb with rfl | hb
      · exact hbefore a ha
      · exact hcross a ha b (mem_append_right _ hb)
  split
  · rename_i first last hfirst hlast
    have hf : first ∈ run := mem_of_head? hfirst
    have hl : last ∈ run := mem_of_getLast? hlast
    refine hnew _ ?_ (fun a ha => ?_) (fun c hc => ?_)
    · show min s first.start ≤ max e last.stop
      omega
    · have h₁ := hpre a ha
      have h₂ := hcross a ha first (mem_append_left _ hf)
      show a.stop + 1 < min s first.start
      omega
    · have h₁ := hpost c hc
      have h₂ := hrun last hl c hc
      show max e last.stop + 1 < c.start
      omega
  · exact hnew _ hse hpre hpost

theorem LiveInterval.cutAt_separated {fromId : Nat} {segs' : List LiveRangeSegment}
    (h : Separated segs) (hcut : LiveInterval.cutAt fromId segs = some segs') :
    Separated segs' ∧ ∀ b ∈ segs', ∃ a ∈ segs, a.start ≤ b.start := by
  induction segs generalizing segs' with
  | nil => cases hcut
  | cons seg segs ih =>
    obtain ⟨hle, hafter, hsegs⟩ := separated_cons.mp h
    rw [LiveInterval.cutAt] at hcut
    split at hcut
    · rename_i hin
      cases hcut
      simp only [LiveRangeSegment.contains, Bool.and_eq_true, decide_eq_true_eq] at hin
      refine ⟨separated_cons.mpr ⟨hin.2, hafter, hsegs⟩, fun b hb => ?_⟩
      rcases mem_cons.mp hb with rfl | hb
      · exact ⟨seg, mem_cons_self, hin.1⟩
      · exact ⟨b, mem_cons_of_mem _ hb, Nat.le_refl _⟩
    · obtain ⟨cut, hcut', rfl⟩ := Option.map_eq_some_iff.mp hcut
      obtain ⟨hsep, hstart⟩ := ih hsegs hcut'
      refine ⟨separated_cons.mpr ⟨hle, fun b hb => ?_, hsep⟩, fun b hb => ?_⟩
      · obtain ⟨a, ha, hab⟩ := hstart b hb
        have := hafter a ha
        omega
      · rcases mem_cons.mp hb with rfl | hb
        · exact ⟨b, mem_cons_self, Nat.le_refl _⟩
        · obtain ⟨a, ha, hab⟩ := hstart b hb
          exact ⟨a, mem_cons_of_mem _ ha, hab⟩

namespace LiveInterval

variable {iv : LiveInterval}

theorem addRange_separated (h : Separated iv.segments) : Separated (iv.addRange s e).segments := by
  unfold addRange
  split
  · exact h
  · exact h.mergeRange (by omega)

theorem shortenStart_separated (h : Separated iv.segments) (fromId : Nat) :
    Separated (iv.shortenStart fromId).segments := by
  unfold shortenStart
  split
  · exact separated_singleton (by omega)
  · split
    · exact addRange_separated h
    · rename_i segs hcut
      exact (cutAt_separated h hcut).1

end LiveInterval

end Brass.Codegen
