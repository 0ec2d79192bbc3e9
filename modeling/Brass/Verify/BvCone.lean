import Brass.Util.Search
import Brass.Verify.BvTable

/-!
# The cone of a node

The cone of a node are the nodes that its value depends on, in the order of their numbers.
`evaluateCone` computes the values of a cone only, in a vector that may hold anything
elsewhere; the values are those of `evalConcrete` (`evaluateCone_eq`).
-/

namespace Brass.Verify.Bv

open Brass.Util List

namespace BVContext

variable {ctx : BVContext} {id root : Nat} {vars : List U64}

/-! ## The cone -/

def operands (ctx : BVContext) (u : Nat) : List Nat :=
  [(ctx.node u).a, (ctx.node u).b, (ctx.node u).c].filter (· < ctx.nodes.length)

def computeCone (ctx : BVContext) (root : Nat) : List Nat :=
  if root ≥ ctx.nodes.length then []
  else (Search.breadthFirst ctx.operands ctx.nodes.length root).insertionSort (· ≤ ·)

/-- `out_vars`: the variables of a cone. -/
def coneVars (ctx : BVContext) (cone : List Nat) : List Nat :=
  (cone.filter (fun id => (ctx.node id).op = .var)).map (fun id => (ctx.node id).imm.toNat % 2 ^ 32)

/-- `node_vals` after the evaluation. -/
def evaluateCone (ctx : BVContext) (cone : List Nat) (varValues vals : List U64) : List U64 :=
  cone.foldl (fun vals id => vals.set id (evalNext ctx.nodes varValues vals (ctx.node id))) vals

/-- `v` is an operand of `u`, of an operand of it, and so on. -/
def Reaches (ctx : BVContext) : Nat → Nat → Prop := Search.Reaches ctx.operands

theorem Reaches.lt (h : ctx.Reaches root id) (hroot : root < ctx.nodes.length) :
    id < ctx.nodes.length := by
  cases h with
  | refl => exact hroot
  | tail _ hstep => simpa using (mem_filter.mp hstep).2

theorem reaches_universe (hroot : root < ctx.nodes.length) :
    ∀ u, Search.Reaches ctx.operands root u → u ∈ range ctx.nodes.length :=
  fun _ hu => mem_range.mpr (Reaches.lt hu hroot)

theorem mem_computeCone (hroot : root < ctx.nodes.length) :
    id ∈ ctx.computeCone root ↔ ctx.Reaches root id := by
  unfold computeCone
  rw [if_neg (by omega), mem_insertionSort]
  exact (Search.mem_breadthFirst_iff (reaches_universe hroot) (by simp)).2 id

theorem Reaches.operand (h : ctx.Reaches root id) {v : Nat} (hv : v < ctx.nodes.length)
    (hop : v = (ctx.node id).a ∨ v = (ctx.node id).b ∨ v = (ctx.node id).c) :
    ctx.Reaches root v := by
  refine Relation.ReflTransGen.tail h (mem_filter.mpr ⟨?_, by simpa using hv⟩)
  rcases hop with rfl | rfl | rfl <;> simp

/-! ## Evaluation -/

theorem evaluateCone_append (ctx : BVContext) (pre post : List Nat) (vals : List U64) :
    ctx.evaluateCone (pre ++ post) vars vals =
      ctx.evaluateCone post vars (ctx.evaluateCone pre vars vals) := foldl_append

theorem length_evaluateCone (ctx : BVContext) (cone : List Nat) (vals : List U64) :
    (ctx.evaluateCone cone vars vals).length = vals.length := by
  induction cone generalizing vals with
  | nil => rfl
  | cons id cone ih =>
    have := ih (vals.set id (evalNext ctx.nodes vars vals (ctx.node id)))
    rwa [length_set] at this

/-- The nodes of the part of the cone that is done have their values. -/
theorem Typed.evaluateCone_prefix (h : ctx.Typed) (hroot : root < ctx.nodes.length)
    {vals : List U64} (hlen : vals.length = ctx.nodes.length) (post : List Nat) :
    ∀ pre, pre ++ post = ctx.computeCone root →
      ∀ id ∈ pre, (ctx.evaluateCone pre vars vals).getD id 0 = ctx.val vars id := by
  intro pre
  induction pre using reverseRecOn generalizing post with
  | nil => exact fun _ id hid => absurd hid (by simp)
  | append_singleton pre u ih =>
    intro hcone id hid
    have hpre := ih (u :: post) (by simpa using hcone)
    have hmem : ∀ v, v ∈ pre ++ [u] ++ post ↔ ctx.Reaches root v := by
      intro v
      rw [hcone]
      exact mem_computeCone hroot
    have hu : ctx.Reaches root u := (hmem u).mp (by simp)
    have hul := hu.lt hroot
    -- The operands of `u` have smaller numbers, so they are done.
    have hdone : ∀ v < u, ctx.Reaches root v → v ∈ pre := by
      intro v hv hreach
      have hsort : (pre ++ [u] ++ post).Pairwise (· ≤ ·) := by
        rw [hcone, computeCone, if_neg (by omega)]
        exact pairwise_insertionSort _ _
      rw [append_assoc, pairwise_append] at hsort
      have hafter := (pairwise_cons.mp hsort.2.1).1
      have hv' := (hmem v).mpr hreach
      rw [append_assoc, mem_append] at hv'
      rcases hv' with hv' | hv'
      · exact hv'
      · rcases mem_cons.mp hv' with rfl | hv'
        · omega
        · have := hafter v hv'
          omega
    have hval : evalNext ctx.nodes vars (ctx.evaluateCone pre vars vals) (ctx.node u) =
        ctx.val vars u := by
      rw [h.val_node hul vars, evalNext_eq]
      unfold evalNode evalWith
      split
      · rfl
      · rfl
      · rename_i hv hc
        obtain ⟨ha, hb, hcc⟩ := h.before hul hc hv
        dsimp only
        rw [hpre _ (hdone _ ha (hu.operand (by omega) (Or.inl rfl))),
          hpre _ (hdone _ hb (hu.operand (by omega) (Or.inr (Or.inl rfl)))),
          hpre _ (hdone _ hcc (hu.operand (by omega) (Or.inr (Or.inr rfl))))]
    rw [evaluateCone_append]
    show ((ctx.evaluateCone pre vars vals).set u
      (evalNext ctx.nodes vars (ctx.evaluateCone pre vars vals) (ctx.node u))).getD id 0 = _
    rw [hval, getD_eq_getElem?_getD, getElem?_set, length_evaluateCone, hlen]
    by_cases hui : u = id
    · subst hui
      simp [hul]
    · rw [if_neg hui, ← getD_eq_getElem?_getD]
      refine hpre id ?_
      rcases mem_append.mp hid with hid | hid
      · exact hid
      · exact absurd (mem_singleton.mp hid).symm hui

theorem Typed.evaluateCone_eq (h : ctx.Typed) (hroot : root < ctx.nodes.length) {vals : List U64}
    (hlen : vals.length = ctx.nodes.length) (vars : List U64) :
    (ctx.evaluateCone (ctx.computeCone root) vars vals).getD root 0 = ctx.val vars root :=
  h.evaluateCone_prefix hroot hlen [] _ (append_nil _) root
    ((mem_computeCone hroot).mpr Relation.ReflTransGen.refl)

end BVContext

end Brass.Verify.Bv
