import Brass.Util.Search

/-!
# Walking a tree with a stack

A walk keeps a stack of nodes, each with the children it has not come to yet. Entering and
leaving a node change a state. `Walks` is the same walk by recursion, and `walk_of_walks` says
that the stack computes it. With a clock as the state the walk numbers the nodes, and the
interval of a node holds the intervals of the nodes under it and no others (`Stamped`).
-/

namespace Brass.Util.TreeWalk

open List

variable {α σ : Type} {children : α → List α} {u v w x y : α} {vs : List α}

def walk (children : α → List α) (enter leave : σ → α → σ) :
    Nat → List (α × List α) → σ → Option σ
  | 0, _, _ => none
  | _ + 1, [], s => some s
  | fuel + 1, (u, []) :: stack, s => walk children enter leave fuel stack (leave s u)
  | fuel + 1, (u, v :: rest) :: stack, s =>
    walk children enter leave fuel ((v, children v) :: (u, rest) :: stack) (enter s v)

/-- The walk of the tree under `root`. -/
def walkFrom (children : α → List α) (enter leave : σ → α → σ) (fuel : Nat) (root : α) (s : σ) :
    Option σ :=
  walk children enter leave fuel [(root, children root)] (enter s root)

/-- The trees under some nodes are walked one after the other. -/
inductive Walks (children : α → List α) (enter leave : σ → α → σ) : List α → σ → σ → Prop
  | nil (s : σ) : Walks children enter leave [] s s
  | cons {v : α} {vs : List α} {s t r : σ} :
      Walks children enter leave (children v) (enter s v) t →
      Walks children enter leave vs (leave t v) r → Walks children enter leave (v :: vs) s r

/-- What is under a node, itself included. -/
abbrev Under (children : α → List α) : α → α → Prop := Search.Reaches children

structure IsTree (children : α → List α) (rank : α → Nat) : Prop where
  rank_lt : ∀ u, ∀ v ∈ children u, rank v < rank u
  nodup : ∀ u, (children u).Nodup
  parent_unique : ∀ u w v, v ∈ children u → v ∈ children w → u = w

variable {rank : α → Nat}

/-! ## The stack -/

section Stack

variable {enter leave : σ → α → σ} {s r : σ}

theorem walk_of_walks (h : Walks children enter leave vs s r) :
    ∃ k, ∀ fuel u stack, walk children enter leave (k + fuel) ((u, vs) :: stack) s =
      walk children enter leave fuel ((u, []) :: stack) r := by
  induction h with
  | nil s => exact ⟨0, fun fuel u stack => by rw [Nat.zero_add]⟩
  | @cons v vs s t r _ _ ih₁ ih₂ =>
    obtain ⟨k₁, h₁⟩ := ih₁
    obtain ⟨k₂, h₂⟩ := ih₂
    refine ⟨k₁ + (k₂ + 1) + 1, fun fuel u stack => ?_⟩
    calc walk children enter leave (k₁ + (k₂ + 1) + 1 + fuel) ((u, v :: vs) :: stack) s
        = walk children enter leave (k₁ + (k₂ + fuel + 1))
            ((v, children v) :: (u, vs) :: stack) (enter s v) := by
          rw [show k₁ + (k₂ + 1) + 1 + fuel = k₁ + (k₂ + fuel + 1) + 1 by omega]
          rfl
      _ = walk children enter leave (k₂ + fuel + 1) ((v, []) :: (u, vs) :: stack) t := h₁ _ _ _
      _ = walk children enter leave (k₂ + fuel) ((u, vs) :: stack) (leave t v) := rfl
      _ = walk children enter leave fuel ((u, []) :: stack) r := h₂ _ _ _

theorem exists_walks (hrank : ∀ u, ∀ v ∈ children u, rank v < rank u) (vs : List α) (s : σ) :
    ∃ r, Walks children enter leave vs s r := by
  have hbound : ∀ n, ∀ vs : List α, (∀ v ∈ vs, rank v < n) → ∀ s,
      ∃ r, Walks children enter leave vs s r := by
    intro n
    induction n with
    | zero =>
      intro vs hvs s
      cases vs with
      | nil => exact ⟨s, .nil s⟩
      | cons v vs => exact absurd (hvs v mem_cons_self) (by omega)
    | succ n ihn =>
      intro vs
      induction vs with
      | nil => exact fun _ s => ⟨s, .nil s⟩
      | cons v vs ih =>
        intro hvs s
        have hv := hvs v mem_cons_self
        obtain ⟨t, ht⟩ := ihn (children v) (fun w hw => by
          have := hrank v w hw
          omega) (enter s v)
        obtain ⟨r, hr⟩ := ih (fun w hw => hvs w (mem_cons_of_mem _ hw)) (leave t v)
        exact ⟨r, ht.cons hr⟩
  obtain ⟨n, hn⟩ : ∃ n, ∀ v ∈ vs, rank v < n := by
    induction vs with
    | nil => exact ⟨0, fun v hv => absurd hv not_mem_nil⟩
    | cons v vs ih =>
      obtain ⟨n, hn⟩ := ih
      refine ⟨max n (rank v + 1), fun w hw => ?_⟩
      rcases mem_cons.mp hw with rfl | hw
      · omega
      · have := hn w hw
        omega
  exact hbound n vs hn s

/-- The walk ends, and the stack computes what the recursion does. -/
theorem walkFrom_spec (hrank : ∀ u, ∀ v ∈ children u, rank v < rank u) (root : α) (s : σ) :
    ∃ r, Walks children enter leave [root] s r ∧
      ∃ n, ∀ fuel, n ≤ fuel → walkFrom children enter leave fuel root s = some r := by
  obtain ⟨t, ht⟩ := @exists_walks _ _ children _ enter leave hrank (children root) (enter s root)
  obtain ⟨k, hk⟩ := walk_of_walks ht
  refine ⟨leave t root, ht.cons (.nil _), k + 2, fun fuel hfuel => ?_⟩
  obtain ⟨extra, rfl⟩ := Nat.exists_eq_add_of_le hfuel
  rw [show k + 2 + extra = k + (extra + 2) by omega, walkFrom, hk]
  rfl

end Stack

/-! ## Trees -/

theorem IsTree.rank_le (h : IsTree children rank) (huv : Under children u v) : rank v ≤ rank u := by
  induction huv with
  | refl => exact Nat.le_refl _
  | tail _ hstep ih => exact Nat.le_trans (Nat.le_of_lt (h.rank_lt _ _ hstep)) ih

theorem IsTree.not_under_child (h : IsTree children rank) (hv : v ∈ children u) :
    ¬ Under children v u := fun huv => by
  have := h.rank_le huv
  have := h.rank_lt u v hv
  omega

theorem under_iff_child : Under children u v ↔ u = v ∨ ∃ c ∈ children u, Under children c v := by
  constructor
  · intro h
    rcases Relation.ReflTransGen.cases_head h with rfl | ⟨c, hc, hcv⟩
    · exact .inl rfl
    · exact .inr ⟨c, hc, hcv⟩
  · rintro (rfl | ⟨c, hc, hcv⟩)
    · exact .refl
    · exact .head hc hcv

theorem IsTree.linear (h : IsTree children rank) (hux : Under children u x)
    (hvx : Under children v x) : Under children u v ∨ Under children v u := by
  induction hux with
  | refl => exact .inr hvx
  | @tail p x hup hx ih =>
    rcases Relation.ReflTransGen.cases_tail hvx with rfl | ⟨q, hvq, hqx⟩
    · exact .inl (hup.tail hx)
    · obtain rfl := h.parent_unique p q x hx hqx
      exact ih hvq

theorem IsTree.children_apart (h : IsTree children rank) (hv : v ∈ children u)
    (hw : w ∈ children u) (hne : v ≠ w) (hvx : Under children v x) : ¬ Under children w x := by
  have honce : ∀ v w, v ∈ children u → w ∈ children u → v ≠ w → ¬ Under children v w := by
    intro v w hv hw hne hvw
    rcases Relation.ReflTransGen.cases_tail hvw with rfl | ⟨p, hvp, hpw⟩
    · exact hne rfl
    · obtain rfl := h.parent_unique p u w hpw hw
      exact h.not_under_child hv hvp
  intro hwx
  rcases h.linear hvx hwx with hvw | hwv
  · exact honce v w hv hw hne hvw
  · exact honce w v hw hv hne.symm hwv

def UnderOne (children : α → List α) (vs : List α) (x : α) : Prop :=
  ∃ v ∈ vs, Under children v x

theorem underOne_cons : UnderOne children (v :: vs) x ↔
    x = v ∨ UnderOne children (children v) x ∨ UnderOne children vs x := by
  unfold UnderOne
  rw [exists_mem_cons_iff, under_iff_child, or_assoc, eq_comm]

theorem UnderOne.trans (h : UnderOne children vs x) (hxy : Under children x y) :
    UnderOne children vs y := by
  obtain ⟨v, hv, hvx⟩ := h
  exact ⟨v, hv, hvx.trans hxy⟩

/-! ## Invariants of a walk -/

section Invariants

variable {enter leave : σ → α → σ} {s r : σ}

theorem Walks.prod {τ : Type} {enter' leave' : τ → α → τ} {s' r' : τ}
    (h : Walks children enter leave vs s r) (h' : Walks children enter' leave' vs s' r') :
    Walks children (fun p v => (enter p.1 v, enter' p.2 v))
      (fun p v => (leave p.1 v, leave' p.2 v)) vs (s, s') (r, r') := by
  induction h generalizing s' r' with
  | nil s =>
    cases h'
    exact .nil _
  | cons _ _ ih₁ ih₂ =>
    cases h' with
    | cons h₁ h₂ => exact .cons (ih₁ h₁) (ih₂ h₂)

/-- `v` is right under the head of the path, or a root. -/
def EnteredAt (children : α → List α) (roots path : List α) (v : α) : Prop :=
  match path with
  | [] => v ∈ roots
  | u :: _ => v ∈ children u

/-- An invariant may speak of the nodes on the way down to where the walk is, the innermost
first, and of the nodes that have been entered. A node is entered once, right under the head of
the path. -/
theorem Walks.visits (htree : IsTree children rank) {P : List α → (α → Prop) → σ → Prop}
    {roots : List α}
    (henter : ∀ path visited s v, P path visited s → ¬ visited v → EnteredAt children roots path v →
      P (v :: path) (fun x => x = v ∨ visited x) (enter s v))
    (hleave : ∀ path visited s v, P (v :: path) visited s → P path visited (leave s v))
    (h : Walks children enter leave vs s r) {path : List α} {visited : α → Prop}
    (hnodup : vs.Nodup)
    (hvs : ∀ v ∈ vs, ∀ w ∈ vs, v ≠ w → ∀ x, Under children v x → ¬ Under children w x)
    (hpath : ∀ v ∈ vs, EnteredAt children roots path v)
    (hnew : ∀ x, UnderOne children vs x → ¬ visited x) (hP : P path visited s) :
    P path (fun x => UnderOne children vs x ∨ visited x) r := by
  induction h generalizing path visited with
  | nil s =>
    have heq : (fun x => UnderOne children [] x ∨ visited x) = visited := by
      funext x
      exact propext ⟨fun hx => hx.resolve_left fun ⟨_, hv, _⟩ => not_mem_nil hv, .inr⟩
    rw [heq]
    exact hP
  | @cons v vs s t r _ _ ih₁ ih₂ =>
    obtain ⟨hv, hnodup⟩ := nodup_cons.mp hnodup
    have hself : ¬ UnderOne children (children v) v :=
      fun ⟨c, hc, hcv⟩ => htree.not_under_child hc hcv
    have hP₁ := henter path visited s v hP (hnew v ⟨v, mem_cons_self, .refl⟩)
      (hpath v mem_cons_self)
    have hP₂ := @ih₁ (v :: path) _ (htree.nodup v) (fun c hc d hd hne x => htree.children_apart hc hd hne)
      (fun c hc => hc) (by
        rintro x hx (rfl | hvis)
        · exact hself hx
        · exact hnew x (underOne_cons.mpr (.inr (.inl hx))) hvis) hP₁
    have hP₃ := ih₂ hnodup
      (fun w hw w' hw' => hvs w (mem_cons_of_mem _ hw) w' (mem_cons_of_mem _ hw'))
      (fun w hw => hpath w (mem_cons_of_mem _ hw)) (by
        rintro x ⟨w, hw, hwx⟩ hx
        have hapart := hvs v mem_cons_self w (mem_cons_of_mem _ hw) (fun heq => hv (heq ▸ hw)) x
        rcases hx with ⟨c, hc, hcx⟩ | rfl | hvis
        · exact hapart (.head hc hcx) hwx
        · exact hapart .refl hwx
        · exact hnew x ⟨w, mem_cons_of_mem _ hw, hwx⟩ hvis) (hleave _ _ _ _ hP₂)
    have heq : (fun x => UnderOne children (v :: vs) x ∨ visited x) =
        fun x => UnderOne children vs x ∨ UnderOne children (children v) x ∨ x = v ∨ visited x := by
      funext x
      rw [underOne_cons]
      apply propext
      tauto
    rw [heq]
    exact hP₃

end Invariants

/-! ## Numbering the nodes -/

variable [DecidableEq α]

/-- A clock, and the times at which the nodes were entered and left. -/
structure Stamps (α : Type) where
  timer : Nat
  dfsIn : α → Nat
  dfsOut : α → Nat

namespace Stamps

def init : Stamps α := { timer := 0, dfsIn := fun _ => 0, dfsOut := fun _ => 0 }

def enter (s : Stamps α) (v : α) : Stamps α :=
  { s with timer := s.timer + 1, dfsIn := Function.update s.dfsIn v (s.timer + 1) }

def leave (s : Stamps α) (v : α) : Stamps α :=
  { s with timer := s.timer + 1, dfsOut := Function.update s.dfsOut v (s.timer + 1) }

def Holds (s : Stamps α) (u v : α) : Prop := s.dfsIn u ≤ s.dfsIn v ∧ s.dfsOut v ≤ s.dfsOut u

variable (s : Stamps α)

@[simp] theorem enter_timer (v : α) : (s.enter v).timer = s.timer + 1 := rfl
@[simp] theorem enter_dfsOut (v : α) : (s.enter v).dfsOut = s.dfsOut := rfl
@[simp] theorem leave_timer (v : α) : (s.leave v).timer = s.timer + 1 := rfl
@[simp] theorem leave_dfsIn (v : α) : (s.leave v).dfsIn = s.dfsIn := rfl

@[simp] theorem enter_dfsIn_self (v : α) : (s.enter v).dfsIn v = s.timer + 1 :=
  Function.update_self ..

@[simp] theorem leave_dfsOut_self (v : α) : (s.leave v).dfsOut v = s.timer + 1 :=
  Function.update_self ..

theorem enter_dfsIn_of_ne (h : u ≠ v) : (s.enter v).dfsIn u = s.dfsIn u :=
  Function.update_of_ne h ..

theorem leave_dfsOut_of_ne (h : u ≠ v) : (s.leave v).dfsOut u = s.dfsOut u :=
  Function.update_of_ne h ..

end Stamps

/-- What a walk from one clock to another leaves behind. -/
structure Stamped (children : α → List α) (vs : List α) (s r : Stamps α) : Prop where
  timer : s.timer ≤ r.timer
  outside : ∀ x, ¬ UnderOne children vs x → r.dfsIn x = s.dfsIn x ∧ r.dfsOut x = s.dfsOut x
  inside : ∀ x, UnderOne children vs x →
    s.timer < r.dfsIn x ∧ r.dfsIn x < r.dfsOut x ∧ r.dfsOut x ≤ r.timer
  nested : ∀ x y, UnderOne children vs x → UnderOne children vs y →
    (r.Holds x y ↔ Under children x y)

omit [DecidableEq α] in
theorem Stamped.nil (s : Stamps α) : Stamped children [] s s where
  timer := Nat.le_refl _
  outside := fun _ _ => ⟨rfl, rfl⟩
  inside := fun _ ⟨_, hv, _⟩ => absurd hv not_mem_nil
  nested := fun _ _ ⟨_, hv, _⟩ => absurd hv not_mem_nil

/-- The tree under `v`, and then the trees under `vs`, which are apart from it. -/
theorem Stamped.cons {s t r : Stamps α} (htree : IsTree children rank)
    (h₁ : Stamped children (children v) (s.enter v) t)
    (h₂ : Stamped children vs (t.leave v) r)
    (hapart : ∀ x, Under children v x → ¬ UnderOne children vs x) :
    Stamped children (v :: vs) s r := by
  have hself : ¬ UnderOne children (children v) v :=
    fun ⟨c, hc, hcv⟩ => htree.not_under_child hc hcv
  have hchild : ∀ x, UnderOne children (children v) x → Under children v x :=
    fun x ⟨c, hc, hcx⟩ => .head hc hcx
  have hne : ∀ x, UnderOne children (children v) x → x ≠ v := by
    rintro x hx rfl
    exact hself hx
  have hne' : ∀ x, UnderOne children vs x → x ≠ v := by
    rintro x hx rfl
    exact hapart x .refl hx
  have htimer₁ := h₁.timer
  have htimer₂ := h₂.timer
  rw [Stamps.enter_timer] at htimer₁
  rw [Stamps.leave_timer] at htimer₂
  have hv : r.dfsIn v = s.timer + 1 ∧ r.dfsOut v = t.timer + 1 := by
    obtain ⟨hin, hout⟩ := h₂.outside v (hapart v .refl)
    obtain ⟨hin₁, -⟩ := h₁.outside v hself
    rw [hin, hout, Stamps.leave_dfsIn, hin₁, Stamps.enter_dfsIn_self, Stamps.leave_dfsOut_self]
    exact ⟨rfl, rfl⟩
  have hunder : ∀ x, UnderOne children (children v) x →
      r.dfsIn x = t.dfsIn x ∧ r.dfsOut x = t.dfsOut x := by
    intro x hx
    obtain ⟨hin, hout⟩ := h₂.outside x (hapart x (hchild x hx))
    rw [hin, hout, Stamps.leave_dfsIn, Stamps.leave_dfsOut_of_ne _ (hne x hx)]
    exact ⟨rfl, rfl⟩
  have hin₁ : ∀ x, UnderOne children (children v) x →
      s.timer + 1 < r.dfsIn x ∧ r.dfsIn x < r.dfsOut x ∧ r.dfsOut x ≤ t.timer := by
    intro x hx
    rw [(hunder x hx).1, (hunder x hx).2]
    exact h₁.inside x hx
  have hin₂ : ∀ x, UnderOne children vs x →
      t.timer + 1 < r.dfsIn x ∧ r.dfsIn x < r.dfsOut x ∧ r.dfsOut x ≤ r.timer := h₂.inside
  refine ⟨by omega, fun x hx => ?_, fun x hx => ?_, fun x y hx hy => ?_⟩
  · obtain ⟨hxv, hxc, hxs⟩ : x ≠ v ∧ ¬ UnderOne children (children v) x ∧
        ¬ UnderOne children vs x := by
      simpa only [underOne_cons, not_or] using hx
    obtain ⟨hin, hout⟩ := h₂.outside x hxs
    obtain ⟨hin', hout'⟩ := h₁.outside x hxc
    rw [hin, hout, Stamps.leave_dfsIn, Stamps.leave_dfsOut_of_ne _ hxv, hin', hout',
      Stamps.enter_dfsIn_of_ne _ hxv, Stamps.enter_dfsOut]
    exact ⟨rfl, rfl⟩
  · rcases underOne_cons.mp hx with rfl | hx | hx
    · omega
    · have := hin₁ x hx
      omega
    · have := hin₂ x hx
      omega
  · -- Two nodes are in one of the two parts each, or the root `v` of the first part.
    unfold Stamps.Holds
    rcases underOne_cons.mp hx with rfl | hxc | hxs <;>
      rcases underOne_cons.mp hy with rfl | hyc | hys
    · exact iff_of_true ⟨Nat.le_refl _, Nat.le_refl _⟩ .refl
    · have := hin₁ y hyc
      exact iff_of_true (by omega) (hchild y hyc)
    · have := hin₂ y hys
      exact iff_of_false (by omega) fun hxy => hapart y hxy hys
    · have := hin₁ x hxc
      exact iff_of_false (by omega) fun hxy => hself (hxc.trans hxy)
    · rw [(hunder x hxc).1, (hunder x hxc).2, (hunder y hyc).1, (hunder y hyc).2]
      exact h₁.nested x y hxc hyc
    · have := hin₁ x hxc
      have := hin₂ y hys
      exact iff_of_false (by omega) fun hxy => hapart y ((hchild x hxc).trans hxy) hys
    · have := hin₂ x hxs
      exact iff_of_false (by omega) fun hxy => hapart y .refl (hxs.trans hxy)
    · have := hin₂ x hxs
      have := hin₁ y hyc
      exact iff_of_false (by omega) fun hxy => hapart y (hchild y hyc) (hxs.trans hxy)
    · exact h₂.nested x y hxs hys

theorem Walks.stamped {s r : Stamps α} (htree : IsTree children rank)
    (h : Walks children Stamps.enter Stamps.leave vs s r) (hnodup : vs.Nodup)
    (hvs : ∀ v ∈ vs, ∀ w ∈ vs, v ≠ w → ∀ x, Under children v x → ¬ Under children w x) :
    Stamped children vs s r := by
  induction h with
  | nil s => exact .nil s
  | @cons v vs s t r _ _ ih₁ ih₂ =>
    obtain ⟨hv, hnodup⟩ := nodup_cons.mp hnodup
    refine .cons htree (ih₁ (htree.nodup v) fun c hc d hd hne x => ?_) (ih₂ hnodup ?_) ?_
    · exact htree.children_apart hc hd hne
    · exact fun w hw w' hw' => hvs w (mem_cons_of_mem _ hw) w' (mem_cons_of_mem _ hw')
    · rintro x hx ⟨w, hw, hwx⟩
      refine hvs v mem_cons_self w (mem_cons_of_mem _ hw) ?_ x hx hwx
      rintro rfl
      exact hv hw

theorem stamps_spec (htree : IsTree children rank) (root : α) :
    ∃ r : Stamps α, (∃ n, ∀ fuel, n ≤ fuel →
        walkFrom children Stamps.enter Stamps.leave fuel root .init = some r) ∧
      ∀ x y, Under children root x → Under children root y →
        (r.Holds x y ↔ Under children x y) := by
  obtain ⟨r, hr, hfuel⟩ := @walkFrom_spec _ _ children _ Stamps.enter Stamps.leave htree.rank_lt
    root (.init : Stamps α)
  have hstamped := hr.stamped htree (nodup_singleton root) (by
    intro v hv w hw hne
    exact absurd ((mem_singleton.mp hv).trans (mem_singleton.mp hw).symm) hne)
  exact ⟨r, hfuel, fun x y hx hy => hstamped.nested x y ⟨root, mem_cons_self, hx⟩
    ⟨root, mem_cons_self, hy⟩⟩

end Brass.Util.TreeWalk
