import Mathlib.Algebra.Order.BigOperators.Group.List
import Mathlib.Tactic.Ring

/-!
# Rounds until nothing changes, and levels raised along the edges of a graph

`untilStable` repeats a round as long as it reports a change. `raiseAlong` takes nodes from a
worklist and raises what each leads to, at least, to its own level; a node that was raised goes
back on the list. `drain` is any loop whose visits ask for further visits.
-/

namespace Brass.Util

open List

section Rounds

variable {σ : Type} {round : σ → Option (σ × Bool)} {I : σ → Prop} {s t : σ}

def untilStable (round : σ → Option (σ × Bool)) : Nat → σ → Option σ
  | 0, _ => none
  | n + 1, s =>
    match round s with
    | none => none
    | some (t, true) => untilStable round n t
    | some (t, false) => some t

theorem untilStable_spec (hround : ∀ s t changed, I s → round s = some (t, changed) → I t)
    {n : Nat} (hs : I s) (h : untilStable round n s = some t) :
    ∃ last, I last ∧ round last = some (t, false) := by
  induction n generalizing s with
  | zero => cases h
  | succ n ih =>
    unfold untilStable at h
    split at h
    · cases h
    · exact ih (hround _ _ _ hs ‹_›) h
    · cases h
      exact ⟨s, hs, ‹_›⟩

/-- A round over a list that reports no change has changed nothing that `R` looks at, and each
member has found in place what it asks for. -/
theorem foldl_quiet {α : Type} {step : σ × Bool → α → σ × Bool} {R : σ → σ → Prop}
    {P : σ → α → Prop} {l : List α} (hrefl : ∀ s, R s s) (htrans : ∀ a b c, R a b → R b c → R a c)
    (hP : ∀ s t a, R s t → P s a → P t a) (hI : ∀ acc, ∀ a ∈ l, I acc.1 → I (step acc a).1)
    (hstep : ∀ acc, ∀ a ∈ l, I acc.1 → (step acc a).2 = false →
      acc.2 = false ∧ R acc.1 (step acc a).1 ∧ P (step acc a).1 a)
    {acc : σ × Bool} (hacc : I acc.1) (h : (l.foldl step acc).2 = false) :
    acc.2 = false ∧ R acc.1 (l.foldl step acc).1 ∧ ∀ a ∈ l, P (l.foldl step acc).1 a := by
  induction l generalizing acc with
  | nil => exact ⟨h, hrefl _, fun a ha => (not_mem_nil ha).elim⟩
  | cons a l ih =>
    obtain ⟨hquiet, hR, hall⟩ := ih (fun acc b hb => hI acc b (mem_cons_of_mem _ hb))
      (fun acc b hb => hstep acc b (mem_cons_of_mem _ hb))
      (hI acc a mem_cons_self hacc) h
    obtain ⟨hbefore, hRa, hPa⟩ := hstep acc a mem_cons_self hacc hquiet
    refine ⟨hbefore, htrans _ _ _ hRa hR, fun b hb => ?_⟩
    rcases mem_cons.1 hb with rfl | hb
    · exact hP _ _ _ hR hPa
    · exact hall b hb

end Rounds

section Levels

variable {ν L : Type} [DecidableEq ν] [LinearOrder L] {next : ν → List ν}

/-- Raise a node to a level; a node that rises goes on the worklist. -/
def raise (level : L) (acc : (ν → L) × List ν) (v : ν) : (ν → L) × List ν :=
  if acc.1 v < level then (Function.update acc.1 v level, acc.2 ++ [v]) else acc

def raiseAlong (next : ν → List ν) : Nat → (ν → L) → List ν → Option (ν → L)
  | _, st, [] => some st
  | 0, _, _ :: _ => none
  | n + 1, st, u :: todo =>
    let acc := (next u).foldl (raise (st u)) (st, todo)
    raiseAlong next n acc.1 acc.2

/-- What is still to be done is on the worklist. -/
def Pending (next : ν → List ν) (st : ν → L) (todo : List ν) : Prop :=
  ∀ u v, v ∈ next u → u ∈ todo ∨ st u ≤ st v

variable {level : L} {st st' : ν → L} {todo todo' : List ν} {acc : (ν → L) × List ν} {u v w : ν}

theorem le_raise (level : L) (acc : (ν → L) × List ν) (v w : ν) :
    acc.1 w ≤ (raise level acc v).1 w := by
  unfold raise
  split
  · rename_i hlt
    by_cases hw : w = v
    · subst hw
      dsimp only
      rw [Function.update_self]
      exact hlt.le
    · dsimp only
      rw [Function.update_of_ne hw]
  · exact le_refl _

theorem level_le_raise (level : L) (acc : (ν → L) × List ν) (v : ν) :
    level ≤ (raise level acc v).1 v := by
  unfold raise
  split
  · dsimp only
    rw [Function.update_self]
  · exact not_lt.1 ‹_›

theorem mem_raise (level : L) (acc : (ν → L) × List ν) (v : ν) (hw : w ∈ acc.2) :
    w ∈ (raise level acc v).2 := by
  unfold raise
  split
  · exact mem_append_left _ hw
  · exact hw

theorem mem_of_raise (level : L) (acc : (ν → L) × List ν) (v w : ν) :
    w ∈ (raise level acc v).2 ∨ (raise level acc v).1 w = acc.1 w := by
  unfold raise
  split
  · by_cases hw : w = v
    · exact .inl (hw ▸ mem_append_right _ mem_cons_self)
    · exact .inr (Function.update_of_ne hw _ _)
  · exact .inr rfl

/-- What raising the targets of a node does: nothing falls, each of them gets the level, and a node
either is on the list or has its old level. -/
theorem foldl_raise_spec (vs : List ν) (level : L) (acc : (ν → L) × List ν) :
    (∀ w, acc.1 w ≤ (vs.foldl (raise level) acc).1 w) ∧
    (∀ w ∈ vs, level ≤ (vs.foldl (raise level) acc).1 w) ∧
    (∀ w ∈ acc.2, w ∈ (vs.foldl (raise level) acc).2) ∧
    (∀ w, w ∈ (vs.foldl (raise level) acc).2 ∨ (vs.foldl (raise level) acc).1 w = acc.1 w) := by
  induction vs generalizing acc with
  | nil => exact ⟨fun _ => le_refl _, fun _ h => (not_mem_nil h).elim, fun _ => id,
      fun _ => .inr rfl⟩
  | cons v vs ih =>
    obtain ⟨hle, hlevel, hmem, hrose⟩ := ih (raise level acc v)
    refine ⟨fun w => (le_raise level acc v w).trans (hle w), fun w hw => ?_,
      fun w hw => hmem w (mem_raise level acc v hw), fun w => ?_⟩
    · rcases mem_cons.1 hw with rfl | hw
      · exact (level_le_raise level acc w).trans (hle w)
      · exact hlevel w hw
    · rcases hrose w with h | h
      · exact .inl h
      · rcases mem_of_raise level acc v w with h' | h'
        · exact .inl (hmem w h')
        · exact .inr (h.trans h')

theorem Pending.step (h : Pending next st (u :: todo)) :
    Pending next ((next u).foldl (raise (st u)) (st, todo)).1
      ((next u).foldl (raise (st u)) (st, todo)).2 := by
  obtain ⟨hle, hlevel, hmem, hrose⟩ := foldl_raise_spec (next u) (st u) (st, todo)
  intro a b hb
  rcases hrose a with ha | ha
  · exact .inl ha
  rcases h a b hb with ha' | ha'
  · rcases mem_cons.1 ha' with rfl | ha'
    · exact .inr (ha ▸ hlevel b hb)
    · exact .inl (hmem a ha')
  · exact .inr (ha ▸ ha'.trans (hle b))

/-- When the worklist is empty no node lies above one that it leads to, and none has fallen. -/
theorem raiseAlong_spec {n : Nat} (hp : Pending next st todo)
    (h : raiseAlong next n st todo = some st') :
    (∀ w, st w ≤ st' w) ∧ ∀ u v, v ∈ next u → st' u ≤ st' v := by
  induction n generalizing st todo with
  | zero =>
    cases todo with
    | nil =>
      cases h
      exact ⟨fun _ => le_refl _, fun u v hv => (hp u v hv).resolve_left not_mem_nil⟩
    | cons u todo => cases h
  | succ n ih =>
    cases todo with
    | nil =>
      cases h
      exact ⟨fun _ => le_refl _, fun u v hv => (hp u v hv).resolve_left not_mem_nil⟩
    | cons u todo =>
      obtain ⟨hle, hclosed⟩ := ih hp.step h
      have hraised := (foldl_raise_spec (next u) (st u) (st, todo)).1
      exact ⟨fun w => (hraised w).trans (hle w), hclosed⟩

/-- A property of the nodes above the bottom that edges keep holds of the nodes that were raised. -/
theorem raiseAlong_induct {bottom : L} (hbot : ∀ l : L, bottom ≤ l) {P : ν → Prop} {n : Nat}
    (hst : ∀ w, st w ≠ bottom → P w) (hnext : ∀ u v, P u → v ∈ next u → P v)
    (h : raiseAlong next n st todo = some st') (w : ν) (hw : st' w ≠ bottom) : P w := by
  have hraise : ∀ (l : L) (acc : (ν → L) × List ν) (v : ν), (l ≠ bottom → P v) →
      (∀ w, acc.1 w ≠ bottom → P w) → ∀ w, (raise l acc v).1 w ≠ bottom → P w := by
    intro l acc v hv hacc w
    unfold raise
    split
    · rename_i hlt
      by_cases hwv : w = v
      · intro _
        rw [hwv]
        exact hv (((hbot _).trans_lt hlt).ne')
      · dsimp only
        rw [Function.update_of_ne hwv]
        exact hacc w
    · exact hacc w
  have hfold : ∀ (vs : List ν) (l : L) (acc : (ν → L) × List ν), (∀ v ∈ vs, l ≠ bottom → P v) →
      (∀ w, acc.1 w ≠ bottom → P w) → ∀ w, (vs.foldl (raise l) acc).1 w ≠ bottom → P w := by
    intro vs l
    induction vs with
    | nil => exact fun acc _ hacc => hacc
    | cons v vs ih =>
      intro acc hvs hacc
      exact ih _ (fun x hx => hvs x (mem_cons_of_mem _ hx))
        (hraise l acc v (hvs v mem_cons_self) hacc)
  induction n generalizing st todo with
  | zero =>
    cases todo with
    | nil =>
      cases h
      exact hst w hw
    | cons u todo => cases h
  | succ n ih =>
    cases todo with
    | nil =>
      cases h
      exact hst w hw
    | cons u todo =>
      refine ih (fun w hw => ?_) h
      exact hfold (next u) (st u) (st, todo) (fun v hv hne => hnext u v (hst u hne) hv) hst w hw

variable {rank : L → Nat} {top : Nat} {nodes : List ν}

end Levels

section Visits

variable {ν σ : Type} {visit : σ → ν → σ × List ν} {s t u : σ} {todo : List ν}

/-- A visit may change the state and ask for further visits; the last one asked for comes first. -/
def drain (visit : σ → ν → σ × List ν) : Nat → σ → List ν → Option σ
  | _, s, [] => some s
  | 0, _, _ :: _ => none
  | n + 1, s, v :: todo => drain visit n (visit s v).1 ((visit s v).2.reverse ++ todo)

/-- The same with the visits in any order. -/
inductive Drains (visit : σ → ν → σ × List ν) : σ → List ν → σ → Prop
  | done {s : σ} : Drains visit s [] s
  | visit {s t : σ} {v : ν} {todo rest : List ν} : todo.Perm (v :: rest) →
      Drains visit (visit s v).1 ((visit s v).2 ++ rest) t → Drains visit s todo t

theorem Drains.of_perm {todo' : List ν} (hperm : todo'.Perm todo) (h : Drains visit s todo t) :
    Drains visit s todo' t := by
  cases h with
  | done =>
    obtain rfl := hperm.eq_nil
    exact .done
  | visit hv hrest => exact .visit (hperm.trans hv) hrest

theorem drains_of_drain {n : Nat} (h : drain visit n s todo = some t) : Drains visit s todo t := by
  induction n generalizing s todo with
  | zero =>
    cases todo with
    | nil =>
      cases h
      exact .done
    | cons v todo => cases h
  | succ n ih =>
    cases todo with
    | nil =>
      cases h
      exact .done
    | cons v todo =>
      exact .visit (.refl _) ((ih h).of_perm ((reverse_perm _).symm.append_right _))

/-- What each visit keeps holds at the end, with nothing left to visit. -/
theorem Drains.invariant {I : σ → List ν → Prop}
    (hperm : ∀ s todo todo', todo.Perm todo' → I s todo → I s todo')
    (hvisit : ∀ s v todo, I s (v :: todo) → I (visit s v).1 ((visit s v).2 ++ todo))
    (h : Drains visit s todo t) (hs : I s todo) : I t [] := by
  induction h with
  | done => exact hs
  | visit hv _ ih => exact ih (hvisit _ _ _ (hperm _ _ _ hv hs))

/-- The visits end when each pays for those it asks for. -/
theorem drain_isSome {I : σ → Prop} {P : ν → Prop} {c : σ → Nat}
    (hvisit : ∀ s v, I s → P v → I (visit s v).1 ∧ (∀ w ∈ (visit s v).2, P w) ∧
      (visit s v).2.length + c (visit s v).1 ≤ c s)
    {n : Nat} (hs : I s) (htodo : ∀ v ∈ todo, P v) (hn : todo.length + c s ≤ n) :
    ∃ t, drain visit n s todo = some t := by
  induction n generalizing s todo with
  | zero =>
    cases todo with
    | nil => exact ⟨s, rfl⟩
    | cons v todo => exact absurd hn (by rw [length_cons]; omega)
  | succ n ih =>
    cases todo with
    | nil => exact ⟨s, rfl⟩
    | cons v todo =>
      obtain ⟨hI, hmore, hpay⟩ := hvisit s v hs (htodo v mem_cons_self)
      refine ih hI (fun w hw => ?_) ?_
      · rcases mem_append.1 hw with hw | hw
        · exact hmore w (mem_reverse.1 hw)
        · exact htodo w (mem_cons_of_mem _ hw)
      · rw [length_cons] at hn
        rw [length_append, length_reverse]
        omega

theorem drain_mono {n m : Nat} (hle : n ≤ m) (h : drain visit n s todo = some t) :
    drain visit m s todo = some t := by
  induction n generalizing m s todo with
  | zero =>
    cases todo with
    | nil =>
      cases m with
      | zero => exact h
      | succ m => exact h
    | cons v todo => cases h
  | succ n ih =>
    cases m with
    | zero => exact absurd hle (Nat.not_succ_le_zero n)
    | succ m =>
      cases todo with
      | nil => exact h
      | cons v todo =>
        rw [drain] at h ⊢
        exact ih (by omega) h

/-- With enough visits allowed the result is always the same one. -/
theorem drain_ends (visit : σ → ν → σ × List ν) {s : σ} {todo : List ν} {I : σ → Prop}
    {P : ν → Prop} {c : σ → Nat}
    (hvisit : ∀ s v, I s → P v → I (visit s v).1 ∧ (∀ w ∈ (visit s v).2, P w) ∧
      (visit s v).2.length + c (visit s v).1 ≤ c s)
    (hs : I s) (htodo : ∀ v ∈ todo, P v) :
    ∃ n t, ∀ m, n ≤ m → drain visit m s todo = some t := by
  obtain ⟨t, ht⟩ := drain_isSome hvisit hs htodo le_rfl
  exact ⟨_, t, fun m hm => drain_mono hm ht⟩

variable {nodes : List ν} {w : ν → Nat} {marked marked' : ν → Bool} {v : ν}

/-- What the marked nodes may still ask for. -/
def remaining (nodes : List ν) (w : ν → Nat) (marked : ν → Bool) : Nat :=
  (nodes.map fun v => if marked v then w v else 0).sum

theorem remaining_congr (h : ∀ u ∈ nodes, marked' u = marked u) :
    remaining nodes w marked' = remaining nodes w marked := by
  unfold remaining
  rw [map_congr_left fun u hu => by rw [h u hu]]

theorem remaining_drop (w : ν → Nat) (marked marked' : ν → Bool) (hnodup : nodes.Nodup) (hv : v ∈ nodes) (hm : marked v = true)
    (hm' : marked' v = false) (hne : ∀ u, u ≠ v → marked' u = marked u) :
    w v + remaining nodes w marked' = remaining nodes w marked := by
  obtain ⟨pre, post, rfl⟩ := append_of_mem hv
  obtain ⟨hpre, hpost, hsep⟩ := nodup_append.1 hnodup
  have hbefore : remaining pre w marked' = remaining pre w marked :=
    remaining_congr fun u hu => hne u (hsep u hu v mem_cons_self)
  have hafter : remaining post w marked' = remaining post w marked :=
    remaining_congr fun u hu => hne u fun heq => (nodup_cons.1 hpost).1 (heq ▸ hu)
  unfold remaining at hbefore hafter ⊢
  simp only [map_append, map_cons, sum_append, sum_cons, hm, hm', hbefore,
    hafter, if_true, Bool.false_eq_true, if_false]
  omega

end Visits

end Brass.Util
