import Mathlib.Data.List.Basic

/-!
# What a loop over a list keeps and brings about

A loop is a left fold. `List.foldlRecOn` gives what every step keeps; here is what some step
brings about and the others do not lose, and when meeting a member twice makes no difference.
-/

namespace Brass.Util

open List

variable {α β : Type} {step : β → α → β} {P : β → Prop} {l : List α}

/-- What every step of a walk keeps, the walk keeps, and what one step brings about is there
in the end. -/
theorem foldl_brings {G : β → Prop} {init : β}
    (hinit : G init) (hgood : ∀ b a, a ∈ l → G b → G (step b a))
    (hkeep : ∀ b a, a ∈ l → G b → P b → P (step b a))
    (hbring : P init ∨ ∃ a ∈ l, ∀ b, G b → P (step b a)) :
    G (l.foldl step init) ∧ P (l.foldl step init) := by
  induction l generalizing init with
  | nil => exact ⟨hinit, hbring.elim id (by simp)⟩
  | cons a l ih =>
    rw [foldl_cons]
    refine ih (hgood init a mem_cons_self hinit) (fun b c hc => hgood b c (mem_cons_of_mem _ hc))
      (fun b c hc => hkeep b c (mem_cons_of_mem _ hc)) ?_
    rcases hbring with hp | ⟨c, hc, hstep⟩
    · exact Or.inl (hkeep init a mem_cons_self hinit hp)
    · rcases mem_cons.mp hc with rfl | hc
      · exact Or.inl (hstep init hinit)
      · exact Or.inr ⟨c, hc, hstep⟩

/-- What a step over the members establishes for one of them and no step loses holds after
all. -/
theorem foldl_of_mem {a : α} (ha : a ∈ l) (hat : ∀ b, P (step b a))
    (hkeep : ∀ b x, P b → P (step b x)) (b : β) : P (l.foldl step b) := by
  obtain ⟨pre, post, rfl⟩ := append_of_mem ha
  rw [foldl_append, foldl_cons]
  exact foldlRecOn post step (hat _) (fun b hb x _ => hkeep b x hb)

/-- A walk over a sorted list meets equal members side by side: where meeting one again changes
nothing, it ends as a walk that meets each once. -/
theorem foldl_eq_of_sorted (key : α → Nat) {d : List α}
    (hl : l.Pairwise fun a c => key a < key c ∨ a = c ∧ ∀ b, step (step b a) a = step b a)
    (hd : d.Pairwise fun a c => key a < key c) (hmem : ∀ a, a ∈ l ↔ a ∈ d) (init : β) :
    l.foldl step init = d.foldl step init := by
  induction l generalizing d init with
  | nil =>
    have hnil : d = [] := eq_nil_iff_forall_not_mem.2 fun a ha => by simpa using (hmem a).2 ha
    rw [hnil]
  | cons a l ih =>
    obtain ⟨ha, hl⟩ := pairwise_cons.1 hl
    cases d with
    | nil => exact absurd ((hmem a).1 mem_cons_self) not_mem_nil
    | cons c d =>
      obtain ⟨hc, hd'⟩ := pairwise_cons.1 hd
      obtain rfl : a = c := by
        rcases mem_cons.1 ((hmem a).1 mem_cons_self) with h | h
        · exact h
        · rcases mem_cons.1 ((hmem c).2 mem_cons_self) with h' | h'
          · exact h'.symm
          · rcases ha c h' with hlt | ⟨heq, -⟩
            · exact absurd (hc a h) (by omega)
            · exact heq
      by_cases hal : a ∈ l
      · -- The head stands at the head of the rest as well.
        have hidem : ∀ b, step (step b a) a = step b a := by
          rcases ha a hal with hlt | ⟨-, hidem⟩
          · exact absurd hlt (Nat.lt_irrefl _)
          · exact hidem
        have hrest : l.foldl step (step init a) = l.foldl step init := by
          cases l with
          | nil => exact absurd hal not_mem_nil
          | cons x l =>
            obtain rfl : a = x := by
              rcases mem_cons.1 hal with h | h
              · exact h
              · rcases ha x mem_cons_self, (pairwise_cons.1 hl).1 a h with
                  ⟨h₁ | h₁, h₂ | h₂⟩
                · omega
                · exact h₂.1.symm
                · exact h₁.1
                · exact h₁.1
            rw [foldl_cons, foldl_cons, hidem]
        rw [foldl_cons, hrest]
        refine ih hl hd (fun x => ⟨fun hx => (hmem x).1 (mem_cons_of_mem _ hx), fun hx => ?_⟩) _
        rcases mem_cons.1 ((hmem x).2 hx) with rfl | hx
        · exact hal
        · exact hx
      · rw [foldl_cons, foldl_cons]
        refine ih hl hd' (fun x => ⟨fun hx => ?_, fun hx => ?_⟩) _
        · rcases mem_cons.1 ((hmem x).1 (mem_cons_of_mem _ hx)) with rfl | h
          · exact absurd hx hal
          · exact h
        · rcases mem_cons.1 ((hmem x).2 (mem_cons_of_mem _ hx)) with rfl | h
          · exact absurd (hc x hx) (Nat.lt_irrefl _)
          · exact h

end Brass.Util
