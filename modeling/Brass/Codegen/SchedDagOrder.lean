import Mathlib.Data.List.Basic
import Brass.Codegen.SchedDag

/-!
# Orders the scheduling graph enforces

The rules add few edges: a pair of instructions that has to keep its order is joined by a
chain of them. `Reach` is the order a graph enforces, and every step of the construction only
adds to it. For registers and flags the chain runs through the last definition tracked; for
the barriers it runs through the neighbours an earlier edge already orders.
-/

namespace Brass.Codegen

open Relation List

variable {α : Type}
variable {d d' : SchedDag α} {dst i j u : Nat} {t : RegTrack} {done : List RegEvent} {e : RegEvent}

namespace SchedDag

variable {a b src : Nat}

def HasEdge (d : SchedDag α) (a b : Nat) : Prop := ∃ e ∈ d.edges, e.src = a ∧ e.dst = b

/-- `b` never runs before `a`. -/
def Reach (d : SchedDag α) : Nat → Nat → Prop := ReflTransGen d.HasEdge

/-- Edges lead to later positions of the block. -/
def Forward (d : SchedDag α) : Prop := ∀ e ∈ d.edges, e.src < e.dst ∧ e.dst < d.size

/-- The same block with more edges. -/
structure Extends (d d' : SchedDag α) : Prop where
  insts : d'.insts = d.insts
  arch : d'.arch = d.arch
  edge : ∀ {a b}, d.HasEdge a b → d'.HasEdge a b
  forward : d.Forward → d'.Forward

theorem Extends.refl (d : SchedDag α) : Extends d d := ⟨rfl, rfl, id, id⟩

theorem Extends.trans {d₁ d₂ d₃ : SchedDag α} (h₁ : Extends d₁ d₂) (h₂ : Extends d₂ d₃) :
    Extends d₁ d₃ :=
  ⟨h₂.insts.trans h₁.insts, h₂.arch.trans h₁.arch, fun h => h₂.edge (h₁.edge h),
    fun h => h₂.forward (h₁.forward h)⟩

theorem Extends.size (h : Extends d d') : d'.size = d.size := by
  rw [SchedDag.size, SchedDag.size, h.insts]

theorem Extends.node (h : Extends d d') (test : LirInst α → Bool) : d'.node test = d.node test := by
  funext i
  rw [SchedDag.node, SchedDag.node, h.insts]

theorem Extends.reach (h : Extends d d') (hab : d.Reach a b) : d'.Reach a b := by
  induction hab with
  | refl => exact ReflTransGen.refl
  | tail _ edge ih => exact ReflTransGen.tail ih (h.edge edge)

theorem Forward.lt (hd : d.Forward) (h : d.HasEdge a b) : a < b ∧ b < d.size := by
  obtain ⟨e, he, rfl, rfl⟩ := h
  exact hd e he

theorem mem_succs {e : SchedEdge} : e ∈ d.succs i ↔ e ∈ d.edges ∧ e.src = i := by
  rw [succs, mem_filter, beq_iff_eq]

theorem mem_preds {e : SchedEdge} : e ∈ d.preds i ↔ e ∈ d.edges ∧ e.dst = i := by
  rw [preds, mem_filter, beq_iff_eq]

/-! ## Adding an edge -/

/-- The three outcomes: nothing to add, an edge strengthened, an edge appended. -/
theorem addEdge_cases (d : SchedDag α) (src dst : Nat) (kind : EdgeKind) (latency : Nat) :
    ((d.size ≤ src ∨ d.size ≤ dst ∨ src = dst) ∧ d.addEdge src dst kind latency = d) ∨
    (d.HasEdge src dst ∧ ∃ f : SchedEdge → SchedEdge, (∀ e, (f e).src = e.src ∧ (f e).dst = e.dst) ∧
      d.addEdge src dst kind latency = { d with edges := d.edges.map f }) ∨
    (src < d.size ∧ dst < d.size ∧ src ≠ dst ∧ d.addEdge src dst kind latency =
        { d with edges := d.edges ++ [⟨src, dst, kind, latency⟩] }) := by
  unfold addEdge
  by_cases hout : d.size ≤ src ∨ d.size ≤ dst ∨ src = dst
  · left
    exact ⟨hout, if_pos hout⟩
  · right
    rw [if_neg hout]
    by_cases hany : d.edges.any (fun e => e.src == src && e.dst == dst) = true
    · left
      rw [if_pos hany]
      obtain ⟨e, he, hends⟩ := any_eq_true.mp hany
      rw [Bool.and_eq_true, beq_iff_eq, beq_iff_eq] at hends
      refine ⟨⟨e, he, hends⟩, _, fun e => ?_, rfl⟩
      split
      · exact ⟨rfl, rfl⟩
      · exact ⟨rfl, rfl⟩
    · right
      rw [if_neg hany]
      push Not at hout
      exact ⟨hout.1, hout.2.1, hout.2.2, rfl⟩

theorem hasEdge_map {f : SchedEdge → SchedEdge} (hf : ∀ e, (f e).src = e.src ∧ (f e).dst = e.dst)
    (h : d.HasEdge a b) :
    HasEdge { d with edges := d.edges.map f } a b := by
  obtain ⟨e, he, hsrc, hdst⟩ := h
  exact ⟨f e, mem_map_of_mem he, (hf e).1.trans hsrc, (hf e).2.trans hdst⟩

theorem addEdge_extends (d : SchedDag α) (hle : src ≤ dst) (kind : EdgeKind) (latency : Nat) :
    Extends d (d.addEdge src dst kind latency) := by
  obtain ⟨_, heq⟩ | ⟨_, f, hf, heq⟩ | ⟨_, hdst, hne, heq⟩ := addEdge_cases d src dst kind latency
  · rw [heq]
    exact Extends.refl d
  · rw [heq]
    refine ⟨rfl, rfl, hasEdge_map hf, fun hd e he => ?_⟩
    obtain ⟨e₀, he₀, rfl⟩ := mem_map.mp he
    rw [(hf e₀).1, (hf e₀).2]
    exact hd e₀ he₀
  · rw [heq]
    refine ⟨rfl, rfl, ?_, fun hd e he => ?_⟩
    · rintro a b ⟨e, he, hab⟩
      exact ⟨e, mem_append_left _ he, hab⟩
    · rcases mem_append.mp he with he | he
      · exact hd e he
      · rw [mem_singleton.mp he]
        exact ⟨Nat.lt_of_le_of_ne hle hne, hdst⟩

theorem addEdge_hasEdge (d : SchedDag α) (hlt : src < dst) (hdst : dst < d.size)
    (kind : EdgeKind) (latency : Nat) : (d.addEdge src dst kind latency).HasEdge src dst := by
  obtain ⟨hout, _⟩ | ⟨hedge, f, hf, heq⟩ | ⟨_, _, _, heq⟩ := addEdge_cases d src dst kind latency
  · omega
  · rw [heq]
    exact hasEdge_map hf hedge
  · rw [heq]
    exact ⟨_, mem_append_right _ (mem_singleton.mpr rfl), rfl, rfl⟩

theorem addEdge_reach (d : SchedDag α) (hle : src ≤ dst) (hdst : dst < d.size) (kind : EdgeKind)
    (latency : Nat) : (d.addEdge src dst kind latency).Reach src dst := by
  rcases Nat.eq_or_lt_of_le hle with rfl | hlt
  · exact ReflTransGen.refl
  · exact ReflTransGen.single (addEdge_hasEdge d hlt hdst kind latency)

/-! ## Loops that add edges -/

theorem foldl_extends {β : Type*} (f : SchedDag α → β → SchedDag α) (xs : List β)
    (d : SchedDag α) (hf : ∀ d', Extends d d' → ∀ x ∈ xs, Extends d' (f d' x)) :
    Extends d (xs.foldl f d) := by
  induction xs generalizing d with
  | nil => exact Extends.refl d
  | cons x xs ih =>
      have hx := hf d (Extends.refl d) x mem_cons_self
      refine hx.trans (ih _ fun d' hd' y hy => ?_)
      exact hf d' (hx.trans hd') y (mem_cons_of_mem x hy)

theorem foldl_establishes {β : Type*} (f : SchedDag α → β → SchedDag α) (xs : List β)
    (d : SchedDag α) (hf : ∀ d', Extends d d' → ∀ x ∈ xs, Extends d' (f d' x))
    (P : SchedDag α → β → Prop)
    (hmono : ∀ {d₁ d₂ x}, Extends d₁ d₂ → P d₁ x → P d₂ x)
    (hstep : ∀ d', Extends d d' → ∀ x ∈ xs, P (f d' x) x) :
    ∀ x ∈ xs, P (xs.foldl f d) x := by
  induction xs generalizing d with
  | nil => simp
  | cons y xs ih =>
      have hy := hf d (Extends.refl d) y mem_cons_self
      have hf' : ∀ d', Extends (f d y) d' → ∀ x ∈ xs, Extends d' (f d' x) :=
        fun d' hd' x hx => hf d' (hy.trans hd') x (mem_cons_of_mem y hx)
      intro x hx
      rcases mem_cons.mp hx with rfl | hx
      · exact hmono (foldl_extends f xs (f d x) hf') (hstep d (Extends.refl d) x mem_cons_self)
      · exact ih (f d y) hf'
          (fun d' hd' z hz => hstep d' (hy.trans hd') z (mem_cons_of_mem y hz)) x hx

end SchedDag

open SchedDag

/-! ## Registers and flags -/

theorem addFrom_extends (d : SchedDag α) {src : Option Nat} (kind : EdgeKind)
    (latency : Nat → Nat) (hle : ∀ i, src = some i → i ≤ dst) :
    Extends d (addFrom d src dst kind latency) := by
  cases src with
  | none => exact Extends.refl d
  | some i => exact addEdge_extends d (hle i rfl) kind (latency i)

theorem addFrom_reach (d : SchedDag α) (kind : EdgeKind) (latency : Nat → Nat) (hle : i ≤ dst)
    (hdst : dst < d.size) : (addFrom d (some i) dst kind latency).Reach i dst :=
  addEdge_reach d hle hdst kind (latency i)

theorem mem_pushUse {key : RegKey} {uses : List Nat} :
    u ∈ pushUse key j uses ↔ u = j ∨ u ∈ uses := by
  cases key <;> simp [pushUse, or_comm]

/-- The tracking tables describe the events so far: what they name is one of them, and every
other one is ordered before what they name. -/
structure TrackInv (d : SchedDag α) (t : RegTrack) (done : List RegEvent) : Prop where
  lastDef : ∀ {k i}, t.lastDef k = some i → ∃ e ∈ done, e.key = k ∧ e.node = i
  lastUses : ∀ {k u}, u ∈ t.lastUses k → ∃ e ∈ done, e.key = k ∧ e.node = u
  defs : ∀ e ∈ done, e.isDef = true →
    ∃ i, t.lastDef e.key = some i ∧ d.Reach e.node i
  uses : ∀ e ∈ done, e.isDef = false → e.node ∈ t.lastUses e.key ∨
    ∃ i, t.lastDef e.key = some i ∧ d.Reach e.node i
  ordered : ∀ e₁ ∈ done, ∀ e₂ ∈ done, e₁.key = e₂.key → (e₁.isDef = true ∨ e₂.isDef = true) →
    e₁.node < e₂.node → d.Reach e₁.node e₂.node

/-- The events of one key come in the order of their nodes. -/
def Later (done : List RegEvent) (e : RegEvent) : Prop :=
  ∀ e₁ ∈ done, e₁.key = e.key → e₁.node ≤ e.node

theorem TrackInv.le_of_lastDef (h : TrackInv d t done) (hle : Later done e)
    (hi : t.lastDef e.key = some i) : i ≤ e.node := by
  obtain ⟨e₁, he₁, hkey, rfl⟩ := h.lastDef hi
  exact hle e₁ he₁ hkey

theorem TrackInv.le_of_lastUses (h : TrackInv d t done) (hle : Later done e)
    (hu : u ∈ t.lastUses e.key) : u ≤ e.node := by
  obtain ⟨e₁, he₁, hkey, rfl⟩ := h.lastUses hu
  exact hle e₁ he₁ hkey

theorem ordered_snoc {d d' : SchedDag α} {done : List RegEvent} {e : RegEvent}
    (hd : Extends d d') (hle : Later done e)
    (hold : ∀ e₁ ∈ done, ∀ e₂ ∈ done, e₁.key = e₂.key → (e₁.isDef = true ∨ e₂.isDef = true) →
      e₁.node < e₂.node → d.Reach e₁.node e₂.node)
    (hnew : ∀ e₁ ∈ done, e₁.key = e.key → (e₁.isDef = true ∨ e.isDef = true) →
      d'.Reach e₁.node e.node) :
    ∀ e₁ ∈ done ++ [e], ∀ e₂ ∈ done ++ [e], e₁.key = e₂.key →
      (e₁.isDef = true ∨ e₂.isDef = true) → e₁.node < e₂.node → d'.Reach e₁.node e₂.node := by
  intro e₁ h₁ e₂ h₂ hkey hdef hlt
  rcases mem_append.mp h₁ with old₁ | new₁
  · rcases mem_append.mp h₂ with old₂ | new₂
    · exact hd.reach (hold e₁ old₁ e₂ old₂ hkey hdef hlt)
    · rw [mem_singleton.mp new₂] at hkey hdef ⊢
      exact hnew e₁ old₁ hkey hdef
  · rw [mem_singleton.mp new₁] at hkey hlt
    rcases mem_append.mp h₂ with old₂ | new₂
    · have := hle e₂ old₂ hkey.symm
      omega
    · rw [mem_singleton.mp new₂] at hlt
      omega

theorem applyUse_extends (h : TrackInv d t done) (hle : Later done e) :
    Extends d (applyUse d t e.key e.node).1 :=
  addFrom_extends d _ _ fun _ hi => h.le_of_lastDef hle hi

theorem applyUse_inv (h : TrackInv d t done) (hle : Later done e) (hnode : e.node < d.size)
    (huse : e.isDef = false) :
    TrackInv (applyUse d t e.key e.node).1 (applyUse d t e.key e.node).2 (done ++ [e]) := by
  have hext := applyUse_extends h hle
  have huses : ∀ k u, u ∈ (applyUse d t e.key e.node).2.lastUses k ↔
      (k = e.key ∧ u = e.node) ∨ u ∈ t.lastUses k := by
    intro k u
    by_cases hk : k = e.key
    · simp only [applyUse, hk, if_true, mem_pushUse, true_and]
    · simp only [applyUse, hk, if_false, false_and, false_or]
  refine ⟨fun hi => ?_, fun {k u} hu => ?_, ?_, ?_, ?_⟩
  · obtain ⟨e₁, he₁, hends⟩ := h.lastDef hi
    exact ⟨e₁, mem_append_left _ he₁, hends⟩
  · rcases (huses k u).mp hu with ⟨rfl, rfl⟩ | hu
    · exact ⟨e, by simp, rfl, rfl⟩
    · obtain ⟨e₁, he₁, hends⟩ := h.lastUses hu
      exact ⟨e₁, mem_append_left _ he₁, hends⟩
  · intro e₁ he₁ hdef
    rcases mem_append.mp he₁ with he₁ | he₁
    · obtain ⟨i, hi, hreach⟩ := h.defs e₁ he₁ hdef
      exact ⟨i, hi, hext.reach hreach⟩
    · rw [mem_singleton.mp he₁, huse] at hdef
      exact absurd hdef (by simp)
  · intro e₁ he₁ huse₁
    rcases mem_append.mp he₁ with he₁ | he₁
    · rcases h.uses e₁ he₁ huse₁ with hu | ⟨i, hi, hreach⟩
      · exact .inl ((huses _ _).mpr (.inr hu))
      · exact .inr ⟨i, hi, hext.reach hreach⟩
    · obtain rfl := mem_singleton.mp he₁
      exact .inl ((huses _ _).mpr (.inl ⟨rfl, rfl⟩))
  · refine ordered_snoc hext hle h.ordered fun e₁ he₁ hkey hdef => ?_
    rw [huse] at hdef
    obtain ⟨i, hi, hreach⟩ := h.defs e₁ he₁ (hdef.resolve_right (by simp))
    rw [hkey] at hi
    have hlast : (applyUse d t e.key e.node).1.Reach i e.node := by
      simp only [applyUse, hi]
      exact addFrom_reach d _ _ (h.le_of_lastDef hle hi) hnode
    exact (hext.reach hreach).trans hlast

/-- The edges from the uses since the last definition. -/
def afterUses (d : SchedDag α) (t : RegTrack) (key : RegKey) (j : Nat) : SchedDag α :=
  (t.lastUses key).foldl (fun d u => if u ≠ j then d.addEdge u j .war 0 else d) d

theorem warEdge_extends (d : SchedDag α) (hle : u ≤ j) :
    Extends d (if u ≠ j then d.addEdge u j .war 0 else d) := by
  split
  · exact addEdge_extends d hle .war 0
  · exact Extends.refl d

theorem warEdge_reach (d : SchedDag α) (hle : u ≤ j) (hj : j < d.size) :
    (if u ≠ j then d.addEdge u j .war 0 else d).Reach u j := by
  split
  · exact addEdge_reach d hle hj .war 0
  · rename_i heq
    rw [not_not.mp heq]
    exact ReflTransGen.refl

theorem afterUses_extends (h : TrackInv d t done) (hle : Later done e) :
    Extends d (afterUses d t e.key e.node) :=
  foldl_extends _ _ d fun d' _ _ hu => warEdge_extends d' (h.le_of_lastUses hle hu)

theorem afterUses_reach (h : TrackInv d t done) (hle : Later done e) (hnode : e.node < d.size)
    (hu : u ∈ t.lastUses e.key) : (afterUses d t e.key e.node).Reach u e.node := by
  refine foldl_establishes _ (t.lastUses e.key) d
    (fun d' _ _ hu => warEdge_extends d' (h.le_of_lastUses hle hu))
    (fun d' u => d'.Reach u e.node) (fun hd hr => hd.reach hr) ?_ u hu
  intro d' hd' u hu
  exact warEdge_reach d' (h.le_of_lastUses hle hu) (hd'.size ▸ hnode)

theorem applyDef_extends (h : TrackInv d t done) (hle : Later done e) :
    Extends d (applyDef d t e.key e.node).1 :=
  (afterUses_extends h hle).trans (addFrom_extends _ _ _ fun _ hi => h.le_of_lastDef hle hi)

/-- Everything tracked under the key of a definition is ordered before it. -/
theorem applyDef_reach (h : TrackInv d t done) (hle : Later done e) (hnode : e.node < d.size)
    {e₁ : RegEvent} (he₁ : e₁ ∈ done) (hkey : e₁.key = e.key) :
    (applyDef d t e.key e.node).1.Reach e₁.node e.node := by
  have hext := applyDef_extends h hle
  have hmid : Extends (afterUses d t e.key e.node) (applyDef d t e.key e.node).1 :=
    addFrom_extends _ _ _ fun _ hi => h.le_of_lastDef hle hi
  have hlast : ∀ i, t.lastDef e.key = some i → (applyDef d t e.key e.node).1.Reach i e.node := by
    intro i hi
    have hsize : e.node < (afterUses d t e.key e.node).size :=
      (afterUses_extends h hle).size ▸ hnode
    simp only [applyDef, hi]
    exact addFrom_reach _ _ _ (h.le_of_lastDef hle hi) hsize
  have hdefs : (∃ i, t.lastDef e₁.key = some i ∧ d.Reach e₁.node i) →
      (applyDef d t e.key e.node).1.Reach e₁.node e.node := by
    rintro ⟨i, hi, hreach⟩
    exact (hext.reach hreach).trans (hlast i (hkey ▸ hi))
  cases hdef : e₁.isDef with
  | true => exact hdefs (h.defs e₁ he₁ hdef)
  | false =>
      rcases h.uses e₁ he₁ hdef with hu | hlater
      · exact hmid.reach (afterUses_reach h hle hnode (hkey ▸ hu))
      · exact hdefs hlater

theorem applyDef_inv (h : TrackInv d t done) (hle : Later done e) (hnode : e.node < d.size) :
    TrackInv (applyDef d t e.key e.node).1 (applyDef d t e.key e.node).2 (done ++ [e]) := by
  have hext := applyDef_extends h hle
  have hself : (applyDef d t e.key e.node).2.lastDef e.key = some e.node := if_pos rfl
  have hother : ∀ {k}, k ≠ e.key →
      (applyDef d t e.key e.node).2.lastDef k = t.lastDef k := fun hk => if_neg hk
  have huses : ∀ {k}, k ≠ e.key →
      (applyDef d t e.key e.node).2.lastUses k = t.lastUses k := fun hk => if_neg hk
  have hnone : (applyDef d t e.key e.node).2.lastUses e.key = [] := if_pos rfl
  -- an event under the key is ordered before the definition, the others are as they were
  have hreach : ∀ e₁ ∈ done ++ [e], e₁.key = e.key →
      ∃ i, (applyDef d t e.key e.node).2.lastDef e₁.key = some i ∧
        (applyDef d t e.key e.node).1.Reach e₁.node i := by
    intro e₁ he₁ hkey
    refine ⟨e.node, hkey ▸ hself, ?_⟩
    rcases mem_append.mp he₁ with he₁ | he₁
    · exact applyDef_reach h hle hnode he₁ hkey
    · rw [mem_singleton.mp he₁]
      exact ReflTransGen.refl
  have hmem : ∀ e₁ ∈ done ++ [e], e₁.key ≠ e.key → e₁ ∈ done := by
    intro e₁ he₁ hkey
    rcases mem_append.mp he₁ with he₁ | he₁
    · exact he₁
    · exact absurd (congrArg RegEvent.key (mem_singleton.mp he₁)) hkey
  refine ⟨fun {k i} hi => ?_, fun {k u} hu => ?_, ?_, ?_, ?_⟩
  · by_cases hk : k = e.key
    · subst hk
      exact ⟨e, by simp, rfl, Option.some.inj (hself.symm.trans hi)⟩
    · obtain ⟨e₁, he₁, hends⟩ := h.lastDef (hother hk ▸ hi)
      exact ⟨e₁, mem_append_left _ he₁, hends⟩
  · by_cases hk : k = e.key
    · rw [hk, hnone] at hu
      exact absurd hu not_mem_nil
    · obtain ⟨e₁, he₁, hends⟩ := h.lastUses (huses hk ▸ hu)
      exact ⟨e₁, mem_append_left _ he₁, hends⟩
  · intro e₁ he₁ hdef₁
    by_cases hk : e₁.key = e.key
    · exact hreach e₁ he₁ hk
    · obtain ⟨i, hi, hr⟩ := h.defs e₁ (hmem e₁ he₁ hk) hdef₁
      exact ⟨i, (hother hk).trans hi, hext.reach hr⟩
  · intro e₁ he₁ huse₁
    by_cases hk : e₁.key = e.key
    · exact .inr (hreach e₁ he₁ hk)
    · rcases h.uses e₁ (hmem e₁ he₁ hk) huse₁ with hu | ⟨i, hi, hr⟩
      · exact .inl (huses hk ▸ hu)
      · exact .inr ⟨i, (hother hk).trans hi, hext.reach hr⟩
  · exact ordered_snoc hext hle h.ordered fun e₁ he₁ hkey _ =>
      applyDef_reach h hle hnode he₁ hkey

theorem applyEvent_extends {st : SchedDag α × RegTrack} (h : TrackInv st.1 st.2 done)
    (hle : Later done e) :
    Extends st.1 (applyEvent st e).1 := by
  unfold applyEvent
  split
  · exact applyDef_extends h hle
  · exact applyUse_extends h hle

theorem applyEvent_inv {st : SchedDag α × RegTrack} (h : TrackInv st.1 st.2 done)
    (hle : Later done e) (hnode : e.node < st.1.size) :
    TrackInv (applyEvent st e).1 (applyEvent st e).2 (done ++ [e]) := by
  unfold applyEvent
  split
  · exact applyDef_inv h hle hnode
  · rename_i huse
    exact applyUse_inv h hle hnode (Bool.eq_false_iff.mpr huse)

theorem foldl_applyEvent {s : SchedDag α × RegTrack} {events : List RegEvent}
    (h : TrackInv s.1 s.2 done)
    (hsorted : (done ++ events).Pairwise fun e₁ e₂ => e₁.key = e₂.key → e₁.node ≤ e₂.node)
    (hnode : ∀ e ∈ events, e.node < s.1.size) :
    Extends s.1 (events.foldl applyEvent s).1 ∧
      TrackInv (events.foldl applyEvent s).1 (events.foldl applyEvent s).2 (done ++ events) := by
  induction events generalizing s done with
  | nil =>
      rw [append_nil]
      exact ⟨Extends.refl _, h⟩
  | cons e events ih =>
      have hle : Later done e := fun e₁ he₁ =>
        (pairwise_append.mp hsorted).2.2 e₁ he₁ e mem_cons_self
      have hext := applyEvent_extends h hle
      have hinv := applyEvent_inv h hle (hnode e mem_cons_self)
      rw [append_cons] at hsorted ⊢
      have hrest := ih hinv hsorted fun e₁ he₁ =>
        hext.size ▸ hnode e₁ (mem_cons_of_mem e he₁)
      exact ⟨hext.trans hrest.1, hrest.2⟩

theorem trackInv_empty (d : SchedDag α) : TrackInv d {} [] :=
  ⟨fun h => by simp at h, fun h => by simp at h, by simp, by simp, by simp⟩

theorem pairwise_zipIdx_flatMap (insts : List (LirInst α)) (k : Nat)
    (events : LirInst α → Nat → List RegEvent)
    (hevents : ∀ inst j, ∀ e ∈ events inst j, e.node = j) :
    ((insts.zipIdx k).flatMap fun p => events p.1 p.2).Pairwise fun e₁ e₂ => e₁.node ≤ e₂.node := by
  induction insts generalizing k with
  | nil => simp
  | cons inst insts ih =>
      rw [zipIdx_cons, flatMap_cons, pairwise_append]
      refine ⟨?_, ih (k + 1), fun e₁ he₁ e₂ he₂ => ?_⟩
      · exact pairwise_of_forall_mem_list fun e₁ he₁ e₂ he₂ => by
          rw [hevents _ _ e₁ he₁, hevents _ _ e₂ he₂]
      · obtain ⟨p, hp, he₂⟩ := mem_flatMap.mp he₂
        have := (mem_zipIdx hp).1
        rw [hevents _ _ e₁ he₁, hevents _ _ e₂ he₂]
        omega

theorem regEvents_spec {inst : LirInst α} : e ∈ regEvents inst j ↔ e.node = j ∧
      ((e.isDef = false ∧ e.key ∈ usesKeys inst) ∨ (e.isDef = true ∧ e.key ∈ defsKeys inst)) := by
  obtain ⟨node, key, isDef⟩ := e
  cases isDef <;> simp [regEvents, and_comm, eq_comm]

theorem flagEvents_spec {arch : Arch} {inst : LirInst α} :
    e ∈ flagEvents arch inst j ↔ e.node = j ∧ e.key = .flags ∧
      ((e.isDef = false ∧ lirReadsFlags inst = true) ∨
        (e.isDef = true ∧ lirWritesFlags inst arch = true)) := by
  obtain ⟨node, key, isDef⟩ := e
  cases isDef <;> cases hr : lirReadsFlags inst <;> cases hw : lirWritesFlags inst arch <;>
    simp [flagEvents, hr, hw]

theorem flags_not_mem_usesKeys (inst : LirInst α) : RegKey.flags ∉ usesKeys inst := by
  simp [usesKeys]

theorem flags_not_mem_defsKeys (inst : LirInst α) : RegKey.flags ∉ defsKeys inst := by
  simp [defsKeys]

theorem mem_blockEvents : e ∈ blockEvents d ↔ ∃ inst, d.insts[e.node]? = some inst ∧
      (e ∈ regEvents inst e.node ∨ e ∈ flagEvents d.arch inst e.node) := by
  simp only [blockEvents, mem_append, mem_flatMap, mem_zipIdx_iff_getElem?, Prod.exists]
  constructor
  · rintro (⟨inst, j, hj, he⟩ | ⟨inst, j, hj, he⟩)
    · obtain rfl := (regEvents_spec.mp he).1
      exact ⟨inst, hj, .inl he⟩
    · obtain rfl := (flagEvents_spec.mp he).1
      exact ⟨inst, hj, .inr he⟩
  · rintro ⟨inst, hj, he | he⟩
    · exact .inl ⟨inst, _, hj, he⟩
    · exact .inr ⟨inst, _, hj, he⟩

theorem blockEvents_sorted (d : SchedDag α) :
    (blockEvents d).Pairwise fun e₁ e₂ => e₁.key = e₂.key → e₁.node ≤ e₂.node := by
  refine pairwise_append.mpr ⟨?_, ?_, fun e₁ he₁ e₂ he₂ hkey => ?_⟩
  · refine List.Pairwise.imp ?_ (pairwise_zipIdx_flatMap d.insts 0 regEvents
      fun _ _ _ he => (regEvents_spec.mp he).1)
    exact fun h _ => h
  · refine List.Pairwise.imp ?_ (pairwise_zipIdx_flatMap d.insts 0 (flagEvents d.arch)
      fun _ _ _ he => (flagEvents_spec.mp he).1)
    exact fun h _ => h
  · -- a register event is never under the key of the flags
    obtain ⟨p₁, _, he₁⟩ := mem_flatMap.mp he₁
    obtain ⟨p₂, _, he₂⟩ := mem_flatMap.mp he₂
    rw [(flagEvents_spec.mp he₂).2.1] at hkey
    rcases (regEvents_spec.mp he₁).2 with ⟨_, hmem⟩ | ⟨_, hmem⟩
    · exact absurd (hkey ▸ hmem) (flags_not_mem_usesKeys p₁.1)
    · exact absurd (hkey ▸ hmem) (flags_not_mem_defsKeys p₁.1)

theorem blockEvents_node_lt (d : SchedDag α) : ∀ e ∈ blockEvents d, e.node < d.size := by
  intro e he
  obtain ⟨inst, hj, _⟩ := mem_blockEvents.mp he
  exact (List.getElem?_eq_some_iff.mp hj).1

theorem buildRegisterDependencies_extends (d : SchedDag α) :
    Extends d (buildRegisterDependencies d) :=
  (foldl_applyEvent (s := (d, {})) (trackInv_empty d) (blockEvents_sorted d)
    (blockEvents_node_lt d)).1

theorem buildRegisterDependencies_reach {e₁ e₂ : RegEvent} (h₁ : e₁ ∈ blockEvents d)
    (h₂ : e₂ ∈ blockEvents d) (hkey : e₁.key = e₂.key) (hdef : e₁.isDef = true ∨ e₂.isDef = true)
    (hlt : e₁.node < e₂.node) :
    (buildRegisterDependencies d).Reach e₁.node e₂.node :=
  (foldl_applyEvent (s := (d, {})) (trackInv_empty d) (blockEvents_sorted d)
    (blockEvents_node_lt d)).2.ordered e₁ h₁ e₂ h₂ hkey hdef hlt

end Brass.Codegen
