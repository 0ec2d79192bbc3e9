import Brass.Verify.BvContext

/-!
# Values of nodes

`val` is the value of a node under an assignment of the variables. In a well-formed table
it satisfies the equation `val_eq`: the operator of the node, applied to the values of its
operands. Interning new nodes changes no value (`Extends.val`).
-/

namespace Brass.Verify.Bv

open List

/-! ## A fold that appends -/

variable {more nodes : List BVNode} {n : BVNode} {id : Nat}

section FoldAppend

variable {α β : Type} (g : List β → α → β)

def foldAppend (xs : List α) (init : List β) : List β :=
  xs.foldl (fun acc x => acc ++ [g acc x]) init

theorem foldAppend_append (xs ys : List α) (init : List β) :
    foldAppend g (xs ++ ys) init = foldAppend g ys (foldAppend g xs init) := by
  simp [foldAppend]

theorem length_foldAppend (xs : List α) (init : List β) :
    (foldAppend g xs init).length = init.length + xs.length := by
  induction xs generalizing init with
  | nil => simp [foldAppend]
  | cons x xs ih =>
    have := ih (init ++ [g init x])
    simp only [foldAppend, foldl_cons, length_append, length_cons] at this ⊢
    simp only [length_nil] at this
    omega

theorem foldAppend_prefix (xs : List α) (init : List β) : init <+: foldAppend g xs init := by
  induction xs generalizing init with
  | nil => exact prefix_rfl
  | cons x xs ih => exact (prefix_append _ _).trans (ih (init ++ [g init x]))

theorem foldAppend_getElem? {xs : List α} {i : Nat} {x : α} (hx : xs[i]? = some x) :
    (foldAppend g xs [])[i]? = some (g ((foldAppend g xs []).take i) x) := by
  obtain ⟨hi, hxi⟩ := List.getElem?_eq_some_iff.mp hx
  have hsplit : xs = xs.take i ++ x :: xs.drop (i + 1) := by
    rw [← hxi, getElem_cons_drop, take_append_drop]
  have hlen : (foldAppend g (xs.take i) []).length = i := by
    rw [length_foldAppend, length_take]
    simp
    omega
  have hrun : foldAppend g xs [] = foldAppend g (xs.drop (i + 1))
      (foldAppend g (xs.take i) [] ++ [g (foldAppend g (xs.take i) []) x]) := by
    conv_lhs => rw [hsplit]
    rw [foldAppend_append]
    rfl
  obtain ⟨rest, hrest⟩ := foldAppend_prefix g (xs.drop (i + 1))
    (foldAppend g (xs.take i) [] ++ [g (foldAppend g (xs.take i) []) x])
  rw [← hrun] at hrest
  have htake : (foldAppend g xs []).take i = foldAppend g (xs.take i) [] := by
    rw [← hrest, append_assoc, take_append_of_le_length (by omega), take_of_length_le (by omega)]
  rw [htake, ← hrest, append_assoc, getElem?_append_right (by omega), hlen]
  simp

end FoldAppend

theorem evaluateAll_eq (nodes : List BVNode) (vars : List U64) :
    evaluateAll nodes vars = foldAppend (evalNext nodes vars) nodes [] := rfl

namespace BVContext

def val (ctx : BVContext) (vars : List U64) (id : Nat) : U64 := evalConcrete ctx.nodes id vars

/-- The value cut to `w` bits. -/
def bv (ctx : BVContext) (vars : List U64) (w id : Nat) : BitVec w := (ctx.val vars id).setWidth w

end BVContext

def BVNode.Before (n : BVNode) (id : Nat) : Prop :=
  n.op = .const ∨ n.op = .var ∨ (n.a < id ∧ n.b < id ∧ n.c < id)

/-- Operands come before the nodes that use them. -/
def Ordered (nodes : List BVNode) : Prop :=
  ∀ (id : Nat) (n : BVNode), nodes[id]? = some n → n.Before id

def evalWith (nodes : List BVNode) (vars : List U64) (v : Nat → U64) (n : BVNode) : U64 :=
  match n.op with
  | .var => vars.getD n.imm.toNat 0 &&& widthMask n.width
  | .const => n.imm &&& widthMask n.width
  | _ => evalNodeConcrete nodes n (v n.a) (v n.b) (v n.c)

theorem evalNext_eq (nodes : List BVNode) (vars vals : List U64) (n : BVNode) :
    evalNext nodes vars vals n = evalWith nodes vars (fun i => vals.getD i 0) n := rfl

theorem evalWith_congr {vars : List U64} {v v' : Nat → U64} (hn : n.Before id)
    (h : ∀ i < id, v i = v' i) :
    evalWith nodes vars v n = evalWith nodes vars v' n := by
  unfold evalWith
  split
  · rfl
  · rfl
  · rename_i hv hc
    rcases hn with hn | hn | ⟨ha, hb, hc'⟩
    · exact absurd hn hc
    · exact absurd hn hv
    · rw [h _ ha, h _ hb, h _ hc']

theorem evalConcrete_eq (ho : Ordered nodes) (hn : nodes[id]? = some n) (vars : List U64) :
    evalConcrete nodes id vars = evalWith nodes vars (fun i => evalConcrete nodes i vars) n := by
  have hget := foldAppend_getElem? (evalNext nodes vars) hn
  have hval : evalConcrete nodes id vars = evalNext nodes vars
      ((foldAppend (evalNext nodes vars) nodes []).take id) n := by
    unfold evalConcrete
    rw [evaluateAll_eq, getD_eq_getElem?_getD, hget]
    rfl
  rw [hval, evalNext_eq]
  refine evalWith_congr (ho id n hn) (fun i hi => ?_)
  unfold evalConcrete
  rw [evaluateAll_eq, getD_eq_getElem?_getD, getD_eq_getElem?_getD, getElem?_take_of_lt hi]

/-! ## Adding nodes -/

theorem widthAt_append {default : Nat} (h : id < nodes.length) :
    widthAt (nodes ++ more) id default = widthAt nodes id default := by
  unfold widthAt
  rw [getElem?_append_left h]

theorem evalWith_append {vars : List U64} {v : Nat → U64} (hn : n.Before nodes.length) :
    evalWith (nodes ++ more) vars v n = evalWith nodes vars v n := by
  unfold evalWith
  split
  · rfl
  · rfl
  · rename_i hv hc
    rcases hn with hn | hn | ⟨ha, hb, hc'⟩
    · exact absurd hn hc
    · exact absurd hn hv
    · unfold evalNodeConcrete
      rw [widthAt_append ha, widthAt_append hb, widthAt_append hc']

theorem BVNode.Before.mono {i j : Nat} (h : n.Before i) (hij : i ≤ j) : n.Before j := by
  rcases h with h | h | ⟨ha, hb, hc⟩
  · exact Or.inl h
  · exact Or.inr (Or.inl h)
  · exact Or.inr (Or.inr ⟨by omega, by omega, by omega⟩)

theorem evalConcrete_append (ho : Ordered (nodes ++ more)) (id : Nat) (hid : id < nodes.length)
    (vars : List U64) :
    evalConcrete (nodes ++ more) id vars = evalConcrete nodes id vars := by
  induction id using Nat.strongRecOn with
  | ind id ih =>
    have hn : nodes[id]? = some nodes[id] := getElem?_eq_getElem hid
    have hn' : (nodes ++ more)[id]? = some nodes[id] := by rw [getElem?_append_left hid, hn]
    have ho' : Ordered nodes := fun i n h => ho i n (by
      rw [List.getElem?_append_left (List.getElem?_eq_some_iff.mp h).1, h])
    have hbefore := ho' id _ hn
    rw [evalConcrete_eq ho hn', evalConcrete_eq ho' hn,
      evalWith_append (hbefore.mono (Nat.le_of_lt hid))]
    exact evalWith_congr hbefore (fun i hi => ih i hi (by omega))

end Brass.Verify.Bv
