import Mathlib.Data.List.Perm.Subperm
import Mathlib.Tactic.Ring

/-!
# The chunks of a parallel loop

`ParallelRuntime::parallel_for` cuts the index range `[0, trip_count)` into chunks of
`grain_size` indices, all in 64-bit arithmetic, and deals them to the workers' queues. Rounding
`trip_count / grain_size` up adds the two first, so that a sum above `2^64` leaves no chunk at all.
-/

namespace Brass.Runtime

open BitVec

/-- A range `[start, end)` of indices handed to the kernel. -/
structure ParallelChunk where
  start : BitVec 64
  stop : BitVec 64
  deriving DecidableEq

namespace ParallelChunk

def Nonempty (r : ParallelChunk) : Prop := r.start.toNat < r.stop.toNat

def Has (r : ParallelChunk) (i : Nat) : Prop := r.start.toNat ≤ i ∧ i < r.stop.toNat

def Apart (r s : ParallelChunk) : Prop :=
  r.stop.toNat ≤ s.start.toNat ∨ s.stop.toNat ≤ r.start.toNat

theorem Apart.symm {r s : ParallelChunk} (h : Apart r s) : Apart s r := Or.symm h

end ParallelChunk

/-- Ranges that are non-empty, disjoint and inside `[0, trip)`. -/
structure Separate (trip : BitVec 64) (ranges : List ParallelChunk) : Prop where
  nonempty : ∀ r ∈ ranges, r.Nonempty
  inside : ∀ r ∈ ranges, r.stop.toNat ≤ trip.toNat
  apart : ranges.Pairwise ParallelChunk.Apart

/-- Ranges that are non-empty, disjoint and cover `[0, trip)`. -/
structure Partition (trip : BitVec 64) (ranges : List ParallelChunk) : Prop
    extends Separate trip ranges where
  cover : ∀ i < trip.toNat, ∃ r ∈ ranges, r.Has i

theorem Separate.of_subperm {trip : BitVec 64} {rs ss : List ParallelChunk} (h : Separate trip ss)
    (hsub : rs.Subperm ss) : Separate trip rs := by
  obtain ⟨ts, hperm, hts⟩ := hsub
  refine ⟨fun r hr => h.nonempty r (hts.subset (hperm.symm.subset hr)),
    fun r hr => h.inside r (hts.subset (hperm.symm.subset hr)), ?_⟩
  exact (hperm.pairwise_iff fun h => ParallelChunk.Apart.symm h).1 (h.apart.sublist hts)

theorem Partition.of_perm {trip : BitVec 64} {rs ss : List ParallelChunk} (h : Partition trip ss)
    (hperm : rs.Perm ss) : Partition trip rs where
  toSeparate := h.toSeparate.of_subperm hperm.subperm
  cover i hi := by
    obtain ⟨r, hr, hhas⟩ := h.cover i hi
    exact ⟨r, hperm.symm.subset hr, hhas⟩

theorem partition_nil {trip : BitVec 64} : Partition trip [] ↔ trip = 0 := by
  constructor
  · intro h
    by_contra hne
    obtain ⟨r, hr, -⟩ := h.cover 0 (by
      have : trip.toNat ≠ 0 := fun h0 => hne (eq_of_toNat_eq h0)
      omega)
    cases hr
  · rintro rfl
    exact ⟨⟨by simp, by simp, .nil⟩, fun i hi => by simp at hi⟩

theorem partition_single {trip : BitVec 64} (h : trip ≠ 0) : Partition trip [⟨0, trip⟩] := by
  have hpos : 0 < trip.toNat := by
    have : trip.toNat ≠ 0 := fun h0 => h (eq_of_toNat_eq h0)
    omega
  refine ⟨⟨?_, ?_, List.pairwise_singleton _ _⟩, fun i hi => ⟨_, List.mem_singleton.2 rfl, ?_⟩⟩
  · intro r hr
    obtain rfl := List.mem_singleton.1 hr
    exact hpos
  · intro r hr
    obtain rfl := List.mem_singleton.1 hr
    exact Nat.le_refl _
  · exact ⟨Nat.zero_le _, hi⟩

/-- The grain the loop is cut by: a grain of 0 asks for four chunks a worker, the product taken
in 32 bits; a product of 0 makes the division trap. -/
def effectiveGrain (numWorkers : BitVec 32) (tripCount grainSize : BitVec 64) :
    Option (BitVec 64) :=
  let cap (grain : BitVec 64) := if tripCount < grain then tripCount else grain
  if grainSize = 0 then
    if numWorkers * 4 = 0 then none
    else
      let share := tripCount / (numWorkers * 4).zeroExtend 64
      some (cap (if share < 1 then 1 else share))
  else some (cap grainSize)

def numChunks (tripCount grain : BitVec 64) : BitVec 64 := (tripCount + grain - 1) / grain

def chunk (tripCount grain c : BitVec 64) : ParallelChunk :=
  let start := c * grain
  ⟨start, if tripCount < start + grain then tripCount else start + grain⟩

def chunks (tripCount grain : BitVec 64) : List ParallelChunk :=
  (List.range (numChunks tripCount grain).toNat).map fun c =>
    chunk tripCount grain (BitVec.ofNat 64 c)

section Grain

variable {n : BitVec 32} {trip grain g : BitVec 64}

theorem effectiveGrain_pos (htrip : trip ≠ 0) (h : effectiveGrain n trip grain = some g) :
    0 < g.toNat := by
  have hpos : 0 < trip.toNat := by
    have : trip.toNat ≠ 0 := fun h0 => htrip (eq_of_toNat_eq h0)
    omega
  have hcap : ∀ x : BitVec 64, 0 < x.toNat → 0 < (if trip < x then trip else x).toNat := by
    intro x hx
    split <;> assumption
  unfold effectiveGrain at h
  dsimp only at h
  split at h
  · split at h
    · cases h
    · obtain rfl := Option.some.inj h
      apply hcap
      split
      · decide
      · rename_i hshare
        rw [BitVec.not_lt, BitVec.le_def] at hshare
        exact hshare
  · obtain rfl := Option.some.inj h
    apply hcap
    have : grain.toNat ≠ 0 := fun h0 => ‹¬ grain = 0› (eq_of_toNat_eq h0)
    omega

end Grain

section Chunks

variable {trip g : BitVec 64}

/-- The sum that rounds up stays below `2^64`. -/
def Fits (trip g : BitVec 64) : Prop := trip.toNat + g.toNat ≤ 2 ^ 64

instance : Decidable (Fits trip g) := inferInstanceAs (Decidable (_ ≤ _))

theorem numChunks_toNat (h : Fits trip g) (hg : 0 < g.toNat) :
    (numChunks trip g).toNat = (trip.toNat + g.toNat - 1) / g.toNat := by
  unfold Fits at h
  have hsum : (trip + g - 1).toNat = trip.toNat + g.toNat - 1 := by
    rw [toNat_sub, toNat_add, show (1 : BitVec 64).toNat = 1 from rfl]
    omega
  rw [numChunks, toNat_udiv, hsum]

theorem numChunks_of_not_fits (h : ¬ Fits trip g) : numChunks trip g = 0 := by
  unfold Fits at h
  have hsum : (trip + g - 1).toNat = trip.toNat + g.toNat - 1 - 2 ^ 64 := by
    rw [toNat_sub, toNat_add, show (1 : BitVec 64).toNat = 1 from rfl]
    omega
  apply eq_of_toNat_eq
  rw [numChunks, toNat_udiv, hsum, Nat.div_eq_of_lt (by omega)]
  rfl

theorem chunks_of_not_fits (h : ¬ Fits trip g) : chunks trip g = [] := by
  rw [chunks, numChunks_of_not_fits h]
  rfl

theorem lt_numChunks_iff (h : Fits trip g) (hg : 0 < g.toNat) {c : Nat} :
    c < (numChunks trip g).toNat ↔ c * g.toNat < trip.toNat := by
  rw [numChunks_toNat h hg, Nat.lt_iff_add_one_le, Nat.le_div_iff_mul_le hg, Nat.add_mul]
  omega

theorem chunk_toNat (h : Fits trip g) (hg : 0 < g.toNat) {c : Nat}
    (hc : c < (numChunks trip g).toNat) :
    (chunk trip g (BitVec.ofNat 64 c)).start.toNat = c * g.toNat ∧
      (chunk trip g (BitVec.ofNat 64 c)).stop.toNat = min ((c + 1) * g.toNat) trip.toNat := by
  have hlt := (lt_numChunks_iff h hg).1 hc
  unfold Fits at h
  have hcbound : c < 2 ^ 64 := Nat.lt_of_lt_of_le hc (Nat.le_of_lt (numChunks trip g).isLt)
  have hstart : (BitVec.ofNat 64 c * g).toNat = c * g.toNat := by
    rw [BitVec.toNat_mul, BitVec.toNat_ofNat, Nat.mod_eq_of_lt hcbound]
    exact Nat.mod_eq_of_lt (by omega)
  have hstop : (BitVec.ofNat 64 c * g + g).toNat = (c + 1) * g.toNat := by
    rw [BitVec.toNat_add, hstart, Nat.add_mul, Nat.one_mul]
    exact Nat.mod_eq_of_lt (by omega)
  refine ⟨hstart, ?_⟩
  unfold chunk
  dsimp only
  split
  · rename_i hcap
    rw [lt_def, hstop] at hcap
    exact (Nat.min_eq_right (Nat.le_of_lt hcap)).symm
  · rename_i hcap
    rw [BitVec.not_lt, BitVec.le_def, hstop] at hcap
    rw [hstop]
    exact (Nat.min_eq_left hcap).symm

theorem mem_chunks {r : ParallelChunk} : r ∈ chunks trip g ↔
      ∃ c < (numChunks trip g).toNat, chunk trip g (BitVec.ofNat 64 c) = r := by
  simp only [chunks, List.mem_map, List.mem_range]

/-- Where the sum fits, the chunks are a partition of the index range. -/
theorem chunks_partition (h : Fits trip g) (hg : 0 < g.toNat) : Partition trip (chunks trip g) := by
  refine ⟨⟨?_, ?_, ?_⟩, ?_⟩
  · intro r hr
    obtain ⟨c, hc, rfl⟩ := mem_chunks.1 hr
    obtain ⟨hstart, hstop⟩ := chunk_toNat h hg hc
    have hlt := (lt_numChunks_iff h hg).1 hc
    rw [ParallelChunk.Nonempty, hstart, hstop, Nat.add_mul]
    omega
  · intro r hr
    obtain ⟨c, hc, rfl⟩ := mem_chunks.1 hr
    rw [(chunk_toNat h hg hc).2]
    exact Nat.min_le_right _ _
  · rw [chunks, List.pairwise_map]
    refine List.Pairwise.imp_of_mem ?_ List.pairwise_lt_range
    intro c d hc hd hlt
    left
    rw [(chunk_toNat h hg (List.mem_range.1 hc)).2, (chunk_toNat h hg (List.mem_range.1 hd)).1]
    exact Nat.le_trans (Nat.min_le_left _ _) (Nat.mul_le_mul_right _ hlt)
  · intro i hi
    have hc : i / g.toNat < (numChunks trip g).toNat :=
      (lt_numChunks_iff h hg).2 (Nat.lt_of_le_of_lt (Nat.div_mul_le_self _ _) hi)
    refine ⟨_, mem_chunks.2 ⟨_, hc, rfl⟩, ?_⟩
    obtain ⟨hstart, hstop⟩ := chunk_toNat h hg hc
    rw [ParallelChunk.Has, hstart, hstop]
    have hmod := Nat.div_add_mod i g.toNat
    have hrest := Nat.mod_lt i hg
    rw [Nat.mul_comm] at hmod
    rw [Nat.add_mul]
    omega

theorem chunks_partition_iff (htrip : trip ≠ 0) (hg : 0 < g.toNat) :
    Partition trip (chunks trip g) ↔ Fits trip g := by
  constructor
  · intro h
    by_contra hfits
    rw [chunks_of_not_fits hfits, partition_nil] at h
    exact htrip h
  · intro h
    exact chunks_partition h hg

end Chunks

end Brass.Runtime
