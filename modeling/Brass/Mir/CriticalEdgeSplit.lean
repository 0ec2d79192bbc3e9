import Brass.Mir.CriticalEdge
import Mathlib.Data.Finset.Card

/-!
# A function with some of its edges split

`Split f σ g` describes what any number of splits makes of a function `f`: the edge from `b` to
`d` now leads to `σ b d`, which is `d` itself or a block that forwards to `d`. The blocks of `f`
keep their numbers of distinct successors and predecessors, a split block standing in for the
other end, so that an edge still whole is critical exactly when it was in `f`.
-/

namespace Brass.Mir.CriticalEdge

open List

variable {τ : Type}

section Unique

variable {xs acc : List Nat} {x : Nat}

theorem mem_pushNew {y : Nat} : y ∈ pushNew xs x ↔ y ∈ xs ∨ y = x := by
  unfold pushNew
  split
  · constructor
    · exact .inl
    · rintro (h | rfl)
      · exact h
      · assumption
  · rw [mem_append, mem_singleton]

theorem nodup_pushNew (h : xs.Nodup) : (pushNew xs x).Nodup := by
  unfold pushNew
  split
  · exact h
  · exact nodup_append_comm.1 (nodup_cons.2 ⟨‹_›, h⟩)

theorem mem_foldl_pushNew : x ∈ xs.foldl pushNew acc ↔ x ∈ acc ∨ x ∈ xs := by
  induction xs generalizing acc with
  | nil => simp
  | cons y ys ih =>
    rw [foldl_cons, ih, mem_pushNew, mem_cons, or_assoc]

theorem nodup_foldl_pushNew (h : acc.Nodup) : (xs.foldl pushNew acc).Nodup := by
  induction xs generalizing acc with
  | nil => exact h
  | cons y ys ih => exact ih (nodup_pushNew h)

@[simp] theorem mem_unique : x ∈ unique xs ↔ x ∈ xs := by
  rw [unique, mem_foldl_pushNew]
  exact ⟨fun h => h.resolve_left not_mem_nil, .inr⟩

theorem nodup_unique : (unique xs).Nodup := nodup_foldl_pushNew .nil

theorem length_unique : (unique xs).length = xs.toFinset.card := by
  rw [← toFinset_card_of_nodup nodup_unique]
  congr 1
  ext y
  rw [mem_toFinset, mem_toFinset, mem_unique]

end Unique

namespace Terminator

variable {t : Terminator} {σ : Nat → Nat} {d new : Nat}

theorem mem_successors : d ∈ t.successors ↔ ∃ u ∈ t.targets, u.block = d := by
  rw [← mem_map]
  cases t with
  | switch t cases =>
    rw [successors, mem_foldl_pushNew, mem_singleton, targets, map_cons, mem_cons, map_map]
    rfl
  | invoke t u =>
    rw [successors, mem_pushNew, mem_singleton, targets, map_cons, mem_cons,
      map_singleton, mem_singleton]
  | _ => rfl

def retarget (σ : Nat → Nat) : Terminator → Terminator
  | .br t => .br (go t)
  | .brIf t u => .brIf (go t) (go u)
  | .switch t cases => .switch (go t) (cases.map fun c => (c.1, go c.2))
  | .invoke t u => .invoke (go t) (go u)
  | .exit => .exit
where
  go (t : BranchTarget) : BranchTarget := { t with block := σ t.block }

theorem targets_retarget :
    (t.retarget σ).targets = t.targets.map fun u => { u with block := σ u.block } := by
  cases t with
  | switch t cases =>
    simp only [retarget, targets, map_cons, map_map, retarget.go]
    rfl
  | _ => rfl

theorem mem_successors_retarget : d ∈ (t.retarget σ).successors ↔ ∃ x ∈ t.successors, σ x = d := by
  simp only [mem_successors, targets_retarget, mem_map]
  constructor
  · rintro ⟨_, ⟨u, hu, rfl⟩, rfl⟩
    exact ⟨u.block, ⟨u, hu, rfl⟩, rfl⟩
  · rintro ⟨_, ⟨u, hu, rfl⟩, rfl⟩
    exact ⟨_, ⟨u, hu, rfl⟩, rfl⟩

theorem toFinset_successors_retarget :
    (t.retarget σ).successors.toFinset = t.successors.toFinset.image σ := by
  ext x
  simp only [mem_toFinset, mem_successors_retarget, Finset.mem_image]

theorem retarget_id (h : ∀ x ∈ t.successors, σ x = x) : t.retarget σ = t := by
  have hgo : ∀ u ∈ t.targets, retarget.go σ u = u := fun u hu => by
    rw [retarget.go, h _ (mem_successors.2 ⟨u, hu, rfl⟩)]
  cases t with
  | switch t cases =>
    rw [retarget, hgo _ (.head _)]
    congr 1
    conv_rhs => rw [← map_id cases]
    refine map_congr_left fun c hc => ?_
    rw [hgo _ (.tail _ (mem_map_of_mem hc))]
    rfl
  | br t => rw [retarget, hgo _ (.head _)]
  | brIf t u => rw [retarget, hgo _ (.head _), hgo _ (.tail _ (.head _))]
  | invoke t u => rw [retarget, hgo _ (.head _), hgo _ (.tail _ (.head _))]
  | exit => rfl

theorem redirect_retarget (hbr : ∀ u, t ≠ .br u) (h : ∀ x ∈ t.successors, σ x = d ↔ x = d) :
    (t.retarget σ).redirect d new = t.retarget (Function.update σ d new) := by
  have hgo : ∀ u ∈ t.targets,
      redirect.go d new (retarget.go σ u) = retarget.go (Function.update σ d new) u := by
    intro u hu
    have hiff := h _ (mem_successors.2 ⟨u, hu, rfl⟩)
    unfold redirect.go retarget.go
    dsimp only
    by_cases hx : u.block = d
    · rw [if_pos (hiff.2 hx), hx, Function.update_self]
    · rw [if_neg (mt hiff.1 hx), Function.update_of_ne hx]
  cases t with
  | switch t cases =>
    simp only [retarget, redirect, hgo _ (.head _), map_map, switch.injEq, true_and]
    refine map_congr_left fun c hc => ?_
    exact congrArg (c.1, ·) (hgo _ (.tail _ (mem_map_of_mem hc)))
  | br u => exact absurd rfl (hbr u)
  | brIf t u => rw [retarget, redirect, hgo _ (.head _), hgo _ (.tail _ (.head _)), retarget]
  | invoke t u => rw [retarget, redirect, hgo _ (.head _), hgo _ (.tail _ (.head _)), retarget]
  | exit => rfl

theorem not_br (h : 1 < (unique t.successors).length) (u : BranchTarget) : t ≠ .br u := by
  rintro rfl
  exact absurd h (by simp [unique, successors, pushNew])

end Terminator

namespace Function

variable {f : Function τ} {b : Nat}

def preds (f : Function τ) (b : Nat) : List Nat :=
  f.blocks.filter fun p => b ∈ (f.block p).successors

def withPredecessors (f : Function τ) (preds : Nat → List Nat) : Function τ :=
  { f with block := fun b => if b ∈ f.blocks then { f.block b with predecessors := preds b }
      else f.block b }

theorem mem_preds {p : Nat} : p ∈ f.preds b ↔ p ∈ f.blocks ∧ b ∈ (f.block p).successors := by
  rw [preds, mem_filter, decide_eq_true_eq]

theorem successors_withPredecessors {preds : Nat → List Nat} :
    ((f.withPredecessors preds).block b).successors = (f.block b).successors := by
  unfold withPredecessors BasicBlock.successors
  dsimp only
  split <;> rfl

theorem addPredecessor_withPredecessors {preds : Nat → List Nat} {p succ : Nat}
    (hsucc : succ ∈ f.blocks) :
    (f.withPredecessors preds).addPredecessor p succ =
      f.withPredecessors (Function.update preds succ (pushNew (preds succ) p)) := by
  unfold addPredecessor withPredecessors
  congr 1
  funext x
  dsimp only
  by_cases hx : x = succ
  · subst hx
    rw [Function.update_self, Function.update_self, if_pos hsucc, if_pos hsucc]
  · rw [Function.update_of_ne hx, Function.update_of_ne hx]

theorem foldl_addPredecessor {p : Nat} {succs : List Nat} {preds : Nat → List Nat}
    (hsuccs : ∀ s ∈ succs, s ∈ f.blocks) (hnew : ∀ s, p ∉ preds s) (seen : List Nat) :
    succs.foldl (fun g succ => g.addPredecessor p succ)
        (f.withPredecessors fun b => preds b ++ if b ∈ seen then [p] else []) =
      f.withPredecessors fun b => preds b ++ if b ∈ seen ∨ b ∈ succs then [p] else [] := by
  induction succs generalizing seen with
  | nil => simp
  | cons s succs ih =>
    have hstep : Function.update (fun b => preds b ++ if b ∈ seen then [p] else []) s
        (pushNew (preds s ++ if s ∈ seen then [p] else []) p) =
          fun b => preds b ++ if b ∈ s :: seen then [p] else [] := by
      funext b
      by_cases hb : b = s
      · subst hb
        rw [Function.update_self, if_pos (mem_cons_self)]
        unfold pushNew
        by_cases hseen : b ∈ seen
        · rw [if_pos hseen, if_pos (mem_append_right _ (mem_singleton.2 rfl))]
        · rw [if_neg hseen, append_nil, if_neg (hnew b)]
      · rw [Function.update_of_ne hb]
        simp only [mem_cons, hb, false_or]
    rw [foldl_cons, addPredecessor_withPredecessors (hsuccs s mem_cons_self), hstep,
      ih fun x hx => hsuccs x (mem_cons_of_mem _ hx)]
    congr 1
    funext b
    simp only [mem_cons, or_assoc, or_left_comm]

theorem blocks_rebuild : f.rebuildCfgPredecessors.blocks = f.blocks := by
  have hinner : ∀ (p : Nat) (succs : List Nat) (g : Function τ),
      (succs.foldl (fun g succ => g.addPredecessor p succ) g).blocks = g.blocks := by
    intro p succs
    induction succs with
    | nil => exact fun _ => rfl
    | cons s succs ih => exact fun g => ih _
  have houter : ∀ (bs : List Nat) (g : Function τ),
      (bs.foldl (fun g b => (g.block b).successors.foldl
        (fun g succ => g.addPredecessor b succ) g) g).blocks = g.blocks := by
    intro bs
    induction bs with
    | nil => exact fun _ => rfl
    | cons b bs ih => exact fun g => (ih _).trans (hinner b _ g)
  exact houter _ _

theorem rebuildCfgPredecessors_eq (hnodup : f.blocks.Nodup)
    (hclosed : ∀ b ∈ f.blocks, ∀ s ∈ (f.block b).successors, s ∈ f.blocks) :
    f.rebuildCfgPredecessors = f.withPredecessors f.preds := by
  have hrun : ∀ (todo done : List Nat), done ++ todo = f.blocks →
      todo.foldl (fun g b => (g.block b).successors.foldl (fun g succ => g.addPredecessor b succ) g)
          (f.withPredecessors fun b => done.filter fun p => b ∈ (f.block p).successors) =
        f.withPredecessors f.preds := by
    intro todo
    induction todo with
    | nil =>
      intro done heq
      rw [append_nil] at heq
      rw [foldl_nil, heq]
      rfl
    | cons p todo ih =>
      intro done heq
      have hp : p ∈ f.blocks := heq ▸ mem_append_right _ mem_cons_self
      have hnew : p ∉ done := fun h => by
        rw [← heq] at hnodup
        exact (nodup_append.1 hnodup).2.2 p h p mem_cons_self rfl
      have hblock := @foldl_addPredecessor τ f p _
        (fun b => done.filter fun p => b ∈ (f.block p).successors) (hclosed p hp)
        (fun s h => hnew (mem_of_mem_filter h)) []
      rw [foldl_cons, successors_withPredecessors]
      simp only [not_mem_nil, if_false, append_nil, false_or] at hblock
      rw [hblock, ← ih (done ++ [p]) (by rw [append_assoc]; exact heq)]
      congr 2
      funext b
      rw [filter_append]
      congr 1
      by_cases hb : b ∈ (f.block p).successors
      · rw [if_pos hb, filter_singleton, decide_eq_true hb]
        rfl
      · rw [if_neg hb, filter_singleton, decide_eq_false hb]
        rfl
  have hclear : f.clearPredecessors =
      f.withPredecessors fun b => ([] : List Nat).filter fun p => b ∈ (f.block p).successors := rfl
  rw [rebuildCfgPredecessors, hclear]
  exact hrun f.blocks [] rfl

end Function

/-- `c` is a block added between `b` and `d`, over an edge that is critical in `f`. -/
structure Function.Forwards (f g : Function τ) (b d c : Nat) : Prop where
  mem : c ∈ g.blocks
  new : c ∉ f.blocks
  critical : f.IsCriticalEdge b d
  length : (g.block c).params.length = (f.block d).params.length
  fresh : ∀ v ∈ (g.block c).values, f.nextValueId ≤ v
  terminator : (g.block c).terminator = .br ⟨d, (g.block c).values⟩

def Function.UpToDate (f : Function τ) : Prop :=
  ∀ b ∈ f.blocks, (f.block b).predecessors = f.preds b

/-- `g` comes from `f` by splitting edges; `σ b d` is where the edge from `b` to `d` leads. -/
structure Split (f : Function τ) (σ : Nat → Nat → Nat) (g : Function τ) : Prop where
  wellFormed : g.WellFormed
  upToDate : g.UpToDate
  mem : ∀ b ∈ f.blocks, b ∈ g.blocks
  params : ∀ b ∈ f.blocks, (g.block b).params = (f.block b).params
  landingPad : ∀ b ∈ f.blocks, (g.block b).landingPad = (f.block b).landingPad
  terminator : ∀ b ∈ f.blocks, (g.block b).terminator = (f.block b).terminator.retarget (σ b)
  leads : ∀ b ∈ f.blocks, ∀ d ∈ (f.block b).successors, σ b d = d ∨ f.Forwards g b d (σ b d)
  added : ∀ c ∈ g.blocks, c ∉ f.blocks →
    ∃ b ∈ f.blocks, ∃ d ∈ (f.block b).successors, σ b d = c
  apart : ∀ b ∈ f.blocks, ∀ d ∈ (f.block b).successors, ∀ b' ∈ f.blocks,
    ∀ d' ∈ (f.block b').successors, σ b d ∉ f.blocks → σ b d = σ b' d' → b = b' ∧ d = d'
  nextValueId : f.nextValueId ≤ g.nextValueId

section Count

variable {f g : Function τ} {σ : Nat → Nat → Nat} {a b c d : Nat}

theorem Function.WellFormed.closed_successors (hf : f.WellFormed) :
    ∀ b ∈ f.blocks, ∀ s ∈ (f.block b).successors, s ∈ f.blocks := by
  intro b hb s hs
  obtain ⟨u, hu, rfl⟩ := Terminator.mem_successors.1 hs
  exact hf.closed b hb u hu

theorem Function.WellFormed.nodup_preds (hf : f.WellFormed) : (f.preds b).Nodup :=
  hf.nodup.filter _

namespace Split

theorem mem_successors (h : Split f σ g) (hb : b ∈ f.blocks) {x : Nat} :
    x ∈ (g.block b).successors ↔ ∃ d ∈ (f.block b).successors, σ b d = x := by
  rw [BasicBlock.successors, h.terminator b hb, Terminator.mem_successors_retarget]
  rfl

theorem successors_new (h : Split f σ g) (hf : f.WellFormed) (hc : c ∈ g.blocks) (hnew : c ∉ f.blocks) :
    ∃ b ∈ f.blocks, ∃ d ∈ (f.block b).successors, σ b d = c ∧ (g.block c).successors = [d] := by
  obtain ⟨b, hb, d, hd, rfl⟩ := h.added c hc hnew
  refine ⟨b, hb, d, hd, rfl, ?_⟩
  rcases h.leads b hb d hd with heq | hfwd
  · exact absurd (hf.closed_successors b hb d hd) (heq ▸ hnew)
  · rw [BasicBlock.successors, hfwd.terminator]
    rfl

theorem injOn (h : Split f σ g) (hb : b ∈ f.blocks) :
    Set.InjOn (σ b) ↑(f.block b).successors.toFinset := by
  intro d hd d' hd' heq
  rw [Finset.mem_coe, mem_toFinset] at hd hd'
  by_cases hnew : σ b d ∈ f.blocks
  · have hself : ∀ x ∈ (f.block b).successors, σ b x ∈ f.blocks → σ b x = x := fun x hx hmem =>
      (h.leads b hb x hx).resolve_right fun hfwd => hfwd.new hmem
    rw [← hself d hd hnew, heq, hself d' hd' (heq ▸ hnew)]
  · exact (h.apart b hb d hd b hb d' hd' hnew heq).2

theorem card_successors (h : Split f σ g) (hb : b ∈ f.blocks) :
    (unique (g.block b).successors).length = (unique (f.block b).successors).length := by
  rw [length_unique, length_unique, BasicBlock.successors, h.terminator b hb,
    Terminator.toFinset_successors_retarget]
  exact Finset.card_image_of_injOn (h.injOn hb)

section

variable (h : Split f σ g) (hf : f.WellFormed)
include h hf

/-- The predecessors of a block of `f`: where its edge was split, the split block stands for the
block it starts from. -/
theorem preds_eq_image (hd : d ∈ f.blocks) : (g.preds d).toFinset =
      (f.preds d).toFinset.image fun p => if σ p d = d then p else σ p d := by
  ext q
  rw [mem_toFinset, Function.mem_preds, Finset.mem_image]
  constructor
  · rintro ⟨hq, hdq⟩
    by_cases hqf : q ∈ f.blocks
    · obtain ⟨x, hx, hxd⟩ := (h.mem_successors hqf).1 hdq
      rcases h.leads q hqf x hx with heq | hfwd
      · obtain rfl := heq.symm.trans hxd
        exact ⟨q, mem_toFinset.2 (Function.mem_preds.2 ⟨hqf, hx⟩), if_pos heq⟩
      · exact absurd (hxd ▸ hd) hfwd.new
    · obtain ⟨b, hb, x, hx, rfl, hsucc⟩ := h.successors_new hf hq hqf
      rw [hsucc, mem_singleton] at hdq
      subst hdq
      refine ⟨b, mem_toFinset.2 (Function.mem_preds.2 ⟨hb, hx⟩), if_neg fun heq => ?_⟩
      exact hqf (heq.symm ▸ hd)
  · rintro ⟨p, hp, rfl⟩
    obtain ⟨hp, hdp⟩ := Function.mem_preds.1 (mem_toFinset.1 hp)
    split
    · rename_i heq
      exact ⟨h.mem p hp, (h.mem_successors hp).2 ⟨d, hdp, heq⟩⟩
    · rename_i hne
      have hfwd := (h.leads p hp d hdp).resolve_left hne
      refine ⟨hfwd.mem, ?_⟩
      rw [BasicBlock.successors, hfwd.terminator]
      exact mem_singleton.2 rfl

theorem card_preds (hd : d ∈ f.blocks) : (g.preds d).toFinset.card = (f.preds d).toFinset.card := by
  rw [h.preds_eq_image hf hd]
  refine Finset.card_image_of_injOn fun p hp q hq heq => ?_
  rw [Finset.mem_coe, mem_toFinset, Function.mem_preds] at hp hq
  have hnew : ∀ x, x ∈ f.blocks ∧ d ∈ (f.block x).successors → σ x d ≠ d → σ x d ∉ f.blocks :=
    fun x hx hne => ((h.leads x hx.1 d hx.2).resolve_left hne).new
  split at heq <;> split at heq
  · exact heq
  · exact absurd (heq ▸ hp.1) (hnew q hq ‹_›)
  · exact absurd (heq ▸ hq.1) (hnew p hp ‹_›)
  · exact (h.apart p hp.1 d hp.2 q hq.1 d hq.2 (hnew p hp ‹_›) heq).1

theorem critical_iff (hup : f.UpToDate) (hb : b ∈ f.blocks)
    (hd : d ∈ (f.block b).successors) (hσ : σ b d = d) :
    g.IsCriticalEdge b d ↔ f.IsCriticalEdge b d := by
  have hdf := hf.closed_successors b hb d hd
  have hdg : d ∈ (g.block b).successors := (h.mem_successors hb).2 ⟨d, hd, hσ⟩
  have hpreds : (unique (g.block d).predecessors).length =
      (unique (f.block d).predecessors).length := by
    rw [length_unique, length_unique, h.upToDate d (h.mem d hdf), hup d hdf, h.card_preds hf hdf]
  unfold Function.IsCriticalEdge
  rw [h.landingPad d hdf, h.card_successors hb, mem_unique, mem_unique, hpreds]
  simp only [hd, hdg]

theorem of_critical (hup : f.UpToDate) (ha : a ∈ g.blocks) (hcrit : g.IsCriticalEdge a d) :
    a ∈ f.blocks ∧ d ∈ (f.block a).successors ∧ σ a d = d ∧ f.IsCriticalEdge a d := by
  obtain ⟨-, hsuccs, hmem, hpreds⟩ := id hcrit
  have haf : a ∈ f.blocks := by
    by_contra hnew
    obtain ⟨b, -, x, -, -, hsucc⟩ := h.successors_new hf ha hnew
    rw [hsucc] at hsuccs
    exact absurd hsuccs (by simp [unique, pushNew])
  rw [mem_unique] at hmem
  obtain ⟨x, hx, hxd⟩ := (h.mem_successors haf).1 hmem
  rcases h.leads a haf x hx with heq | hfwd
  · obtain rfl := heq.symm.trans hxd
    exact ⟨haf, hx, heq, (h.critical_iff hf hup haf hx heq).1 hcrit⟩
  · -- the split block is reached from `a` alone
    rw [length_unique, h.upToDate d (hxd ▸ hfwd.mem)] at hpreds
    have hsub : (g.preds d).toFinset ⊆ {a} := by
      intro q hq
      obtain ⟨hq, hdq⟩ := Function.mem_preds.1 (mem_toFinset.1 hq)
      rw [Finset.mem_singleton]
      by_cases hqf : q ∈ f.blocks
      · obtain ⟨y, hy, hyd⟩ := (h.mem_successors hqf).1 hdq
        exact (h.apart a haf x hx q hqf y hy hfwd.new (hxd.trans hyd.symm)).1.symm
      · obtain ⟨b, hb, y, hy, -, hsucc⟩ := h.successors_new hf hq hqf
        rw [hsucc, mem_singleton] at hdq
        exact absurd (hf.closed_successors b hb y hy) (hdq ▸ hxd ▸ hfwd.new)
    have hle := Finset.card_le_card hsub
    rw [Finset.card_singleton] at hle
    omega

end

end Split

end Count

end Brass.Mir.CriticalEdge
