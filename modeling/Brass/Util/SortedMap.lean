import Mathlib.Data.List.Perm.Basic
import Mathlib.Tactic.Ring

/-!
# Ordered maps

A map from keys of a linear order to values, kept as the list of its entries by increasing
key. The operations are those of an ordered container: `find`, `emplace` (which leaves an
entry that is there), `erase`, the first entry at or past a key (`lowerBound`) and the last
entry before one (`before`). Each is described by the entries it returns or leaves.
-/

namespace Brass.Util.SortedMap

open List

variable {κ β : Type} [LinearOrder κ] {m : List (κ × β)} {k : κ} {v : β} {e : κ × β}

def Sorted (m : List (κ × β)) : Prop := m.Pairwise fun a b => a.1 < b.1

def find (m : List (κ × β)) (k : κ) : Option β :=
  (m.find? fun e => e.1 = k).map Prod.snd

def erase (m : List (κ × β)) (k : κ) : List (κ × β) :=
  m.filter fun e => e.1 ≠ k

def emplace (m : List (κ × β)) (k : κ) (v : β) : List (κ × β) :=
  if m.any fun e => e.1 = k then m
  else (m.filter fun e => e.1 < k) ++ (k, v) :: m.filter fun e => k < e.1

def lowerBound (m : List (κ × β)) (k : κ) : Option (κ × β) :=
  m.find? fun e => k ≤ e.1

def before (m : List (κ × β)) (k : κ) : Option (κ × β) :=
  (m.filter fun e => e.1 < k).getLast?

theorem Sorted.eq_of_key_eq (hm : Sorted m) {a b : κ × β} (ha : a ∈ m) (hb : b ∈ m)
    (h : a.1 = b.1) : a = b := by
  have hkeys : m.Pairwise fun x y => x.1 = y.1 → x = y :=
    hm.imp fun hlt heq => absurd heq hlt.ne
  have hflip : m.Pairwise (flip fun x y => x.1 = y.1 → x = y) :=
    hkeys.imp fun hxy heq => (hxy heq.symm).symm
  exact hkeys.forall_of_forall_of_flip (fun _ _ _ => rfl) hflip ha hb h

theorem Sorted.nodup (hm : Sorted m) : m.Nodup :=
  hm.imp fun hlt heq => hlt.ne (congrArg Prod.fst heq)

/-! ## Entries -/

theorem mem_erase : e ∈ erase m k ↔ e ∈ m ∧ e.1 ≠ k := by
  simp [erase]

theorem mem_emplace (hk : ∀ e ∈ m, e.1 ≠ k) : e ∈ emplace m k v ↔ e = (k, v) ∨ e ∈ m := by
  have hany : ¬ (m.any fun e => decide (e.1 = k)) = true := by
    simpa using fun b hab => hk (k, b) hab rfl
  rw [emplace, if_neg hany]
  simp only [mem_append, mem_cons, mem_filter, decide_eq_true_eq]
  constructor
  · rintro (⟨h, _⟩ | h | ⟨h, _⟩)
    · exact .inr h
    · exact .inl h
    · exact .inr h
  · rintro (h | h)
    · exact .inr (.inl h)
    · rcases lt_or_gt_of_ne (hk e h) with hlt | hgt
      · exact .inl ⟨h, hlt⟩
      · exact .inr (.inr ⟨h, hgt⟩)

theorem Sorted.erase (hm : Sorted m) : Sorted (erase m k) :=
  List.Pairwise.filter _ hm

theorem Sorted.emplace (hm : Sorted m) : Sorted (emplace m k v) := by
  unfold SortedMap.emplace
  split
  · exact hm
  · refine pairwise_append.mpr ⟨List.Pairwise.filter _ hm, ?_, ?_⟩
    · refine pairwise_cons.mpr ⟨?_, List.Pairwise.filter _ hm⟩
      intro a ha
      simpa using (mem_filter.mp ha).2
    · intro a ha b hb
      have hlt : a.1 < k := by simpa using (mem_filter.mp ha).2
      rcases mem_cons.mp hb with rfl | hb
      · exact hlt
      · exact hlt.trans (by simpa using (mem_filter.mp hb).2)

theorem find_eq_some (h : find m k = some v) : (k, v) ∈ m := by
  obtain ⟨e, he, rfl⟩ := Option.map_eq_some_iff.mp h
  have hkey : e.1 = k := by simpa using find?_some he
  rw [← hkey]
  exact mem_of_find?_eq_some he

theorem lowerBound_eq_none (h : lowerBound m k = none) (he : e ∈ m) : e.1 < k := by
  simpa using find?_eq_none.mp h e he

theorem lowerBound_eq_some (hm : Sorted m) (h : lowerBound m k = some e) :
    e ∈ m ∧ k ≤ e.1 ∧ ∀ a ∈ m, k ≤ a.1 → e.1 ≤ a.1 := by
  obtain ⟨hke, as, bs, rfl, hbefore⟩ := find?_eq_some_iff_append.mp h
  refine ⟨by simp, by simpa using hke, ?_⟩
  intro a ha hka
  rcases mem_append.mp ha with ha | ha
  · exact absurd hka (by simpa using hbefore a ha)
  · rcases mem_cons.mp ha with rfl | ha
    · exact le_refl _
    · have hcons := (pairwise_append.mp hm).2.1
      exact ((pairwise_cons.mp hcons).1 a ha).le

theorem before_eq_none (h : before m k = none) (he : e ∈ m) : k ≤ e.1 := by
  have hnil := getLast?_eq_none_iff.mp h
  by_contra hlt
  have hmem : e ∈ m.filter fun e => e.1 < k :=
    mem_filter.mpr ⟨he, by simpa using hlt⟩
  rw [hnil] at hmem
  exact not_mem_nil hmem

theorem before_eq_some (hm : Sorted m) (h : before m k = some e) :
    e ∈ m ∧ e.1 < k ∧ ∀ a ∈ m, a.1 < k → a.1 ≤ e.1 := by
  have hsorted : (m.filter fun e => e.1 < k).Pairwise fun a b => a.1 < b.1 :=
    List.Pairwise.filter _ hm
  have hmem := mem_filter.mp (mem_of_getLast? h)
  refine ⟨hmem.1, by simpa using hmem.2, ?_⟩
  intro a ha hak
  have ha' : a ∈ m.filter fun e => e.1 < k := mem_filter.mpr ⟨ha, by simpa using hak⟩
  obtain ⟨init, hinit⟩ := getLast?_eq_some_iff.mp h
  rw [hinit] at ha' hsorted
  rcases mem_append.mp ha' with ha' | ha'
  · exact ((pairwise_append.mp hsorted).2.2 a ha' e (by simp)).le
  · rw [mem_singleton.mp ha']

/-! ## Sums over the values -/

theorem emplace_perm (hm : Sorted m) (hk : ∀ e ∈ m, e.1 ≠ k) :
    (emplace m k v).Perm ((k, v) :: m) := by
  refine (perm_ext_iff_of_nodup hm.emplace.nodup ?_).mpr ?_
  · exact nodup_cons.mpr ⟨fun h => hk _ h rfl, hm.nodup⟩
  · intro e
    rw [mem_emplace hk, mem_cons]

theorem perm_erase (hm : Sorted m) (he : (k, v) ∈ m) : m.Perm ((k, v) :: erase m k) := by
  refine (perm_ext_iff_of_nodup hm.nodup ?_).mpr ?_
  · exact nodup_cons.mpr ⟨fun h => (mem_erase.mp h).2 rfl, hm.erase.nodup⟩
  · intro e
    rw [mem_cons, mem_erase]
    constructor
    · intro h
      by_cases hkey : e.1 = k
      · exact .inl (hm.eq_of_key_eq h he hkey)
      · exact .inr ⟨h, hkey⟩
    · rintro (rfl | h)
      · exact he
      · exact h.1

end Brass.Util.SortedMap
