import Brass.Verify.BvBlastNode
import Brass.Verify.BvSolve

/-!
# Blasting a cone

The literals of a variable are new SAT variables, so a model can give them any value
(`Reads`); those of every other node are determined by the literals of its operands
(`Values`). Together: an assignment of the variables under which no flag of a product is
missed extends to a model, and in it each node reads its concrete value
(`blastAll_model`).
-/

namespace Brass.Verify.Bv

open Brass.Util Brass.Util.Cnf Brass.Verify.Cdcl BVContext Solver

variable {D : Doubles} {s t u : Solver D} {β : Nat → Bool} {ctx : BVContext} {root : Nat}
  {bits : List (List Lit)} {k : Nat}

/-! ## New variables -/

variable {v : Nat → U64} {out : List Lit} {vars : List U64}

def freshBits (n w : Nat) : List Lit := (List.range w).map (fun i => ⟨n + i, false⟩)

theorem bitAt_freshBits {n w i : Nat} (hi : i < w) : bitAt (freshBits n w) i = ⟨n + i, false⟩ :=
  bitAt_map_range hi

theorem freshBits_succ (n w : Nat) : freshBits n (w + 1) = freshBits n w ++ [⟨n + w, false⟩] := by
  simp [freshBits, List.range_succ]

theorem conservative_newVar (s : Solver D) : s.Conservative s.newVar.2 := by
  refine ⟨⟨?_, fun c hc => by rwa [newVar_added]⟩, fun α hα => ⟨α, ?_, fun _ _ => rfl⟩⟩
  · rw [newVar_nVars]
    omega
  · rwa [newVar_added]

theorem runs_freshBits (hs : s.Gates) (w : Nat) : Runs (Circuit.build (fun _ => do
      let v ← Circuit.newVar
      pure ⟨v, false⟩) w) s
      (fun out t => out = freshBits s.nVars w ∧ t.added = s.added ∧ t.nVars = s.nVars + w) := by
  refine runs_loop (fun i out t =>
    out = freshBits s.nVars i ∧ t.added = s.added ∧ t.nVars = s.nVars + i) hs ⟨rfl, rfl, rfl⟩
    (fun i out t _ ht _ h => ?_)
  obtain ⟨hout, hadded, hvars⟩ := h
  have hnew : Runs (Circuit.newVar : Circuit D Nat) t
      (fun v u => v = t.nVars ∧ u.added = t.added ∧ u.nVars = t.nVars + 1) :=
    ⟨_, _, rfl, ht.newVar, conservative_newVar t, newVar_fst t, newVar_added t, newVar_nVars t⟩
  have hlit : Runs (do
      let v ← Circuit.newVar
      pure (⟨v, false⟩ : Lit)) t
      (fun l u => l = ⟨t.nVars, false⟩ ∧ u.added = t.added ∧ u.nVars = t.nVars + 1) :=
    runs_bind hnew (fun v u hu _ hv => runs_pure hu ⟨by rw [hv.1], hv.2⟩)
  refine runs_bind hlit (fun l u hu _ hl => runs_pure hu ⟨?_, hl.2.1.trans hadded, by omega⟩)
  rw [hout, hl.1, hvars, freshBits_succ]

theorem exists_bits (f : Nat → Bool) (w : Nat) : ∃ x : BitVec w, ∀ i < w, x.getLsbD i = f i := by
  induction w with
  | zero => exact ⟨0#0, fun i hi => absurd hi (by omega)⟩
  | succ w ih =>
    obtain ⟨x, hx⟩ := ih
    refine ⟨x.cons (f w), fun i hi => ?_⟩
    rw [BitVec.getLsbD_cons]
    split
    · rename_i h
      rw [h]
    · exact hx i (by omega)

/-! ## The values of the nodes -/

/-- What the literals of a node compute from the values of its operands. -/
def circuitVal (ctx : BVContext) (v : Nat → U64) (id : Nat) : U64 :=
  let n := ctx.node id
  match n.op with
  | .const => n.imm &&& widthMask n.width
  | _ => circuitOp n (ctx.width n.a) (ctx.width n.b) (v n.a) (v n.b) (v n.c)

/-- The nodes of the cone below `k` have literals, which read `v` under `β`. -/
structure Values (ctx : BVContext) (root : Nat) (β : Nat → Bool) (v : Nat → U64)
    (bits : List (List Lit)) (t : Solver D) (k : Nat) : Prop where
  length : bits.length = ctx.nodes.length
  operand : ∀ id < k, ctx.Reaches root id → Operand β t (bits.getD id []) (ctx.width id) (v id)
  val : ∀ id < k, ctx.Reaches root id → (ctx.node id).op ≠ .var → v id = circuitVal ctx v id

theorem Operand.mono {ls : List Lit} {w : Nat} {v : U64} (h : Operand β s ls w v)
    (hst : s.Conservative t) : Operand β t ls w v := ⟨h.fits, h.pos, h.le, h.word.mono hst⟩

theorem getD_set {i j : Nat} (hi : i < bits.length) :
    (bits.set i out).getD j [] = if i = j then out else bits.getD j [] := by
  rw [List.getD_eq_getElem?_getD, List.getElem?_set, List.getD_eq_getElem?_getD]
  by_cases h : i = j
  · subst h
    simp [hi]
  · simp [h]

theorem circuitVal_congr (h : ctx.Typed) {id : Nat} (hid : id < ctx.nodes.length)
    (hv : (ctx.node id).op ≠ .var) {v' : Nat → U64} (hagree : ∀ i < id, v' i = v i) :
    circuitVal ctx v' id = circuitVal ctx v id := by
  unfold circuitVal
  dsimp only
  split
  · rfl
  · rename_i hc
    obtain ⟨ha, hb, hcc⟩ := h.before hid hc hv
    rw [hagree _ ha, hagree _ hb, hagree _ hcc]

theorem Values.set (h : ctx.Typed) (hval : Values ctx root β v bits t k)
    (hk : k < ctx.nodes.length) (htu : t.Conservative u) {x : U64}
    (hout : Operand β u out (ctx.width k) x)
    (hx : (ctx.node k).op ≠ .var → x = circuitVal ctx v k) :
    Values ctx root β (Function.update v k x) (bits.set k out) u (k + 1) := by
  have hagree : ∀ i < k, Function.update v k x i = v i := fun i hi =>
    Function.update_of_ne (by omega) _ _
  refine ⟨by rw [List.length_set, hval.length], fun id hid hr => ?_, fun id hid hr hv => ?_⟩
  · rw [getD_set (by rw [hval.length]; exact hk)]
    by_cases hik : k = id
    · subst hik
      rw [if_pos rfl, Function.update_self]
      exact hout
    · rw [if_neg hik, hagree id (by omega)]
      exact (hval.operand id (by omega) hr).mono htu
  · rw [circuitVal_congr h (by omega) hv (fun i hi => hagree i (by omega))]
    by_cases hik : k = id
    · subst hik
      rw [Function.update_self]
      exact hx hv
    · rw [hagree id (by omega)]
      exact hval.val id (by omega) hr hv

theorem Values.skip (hval : Values ctx root β v bits t k) (hk : ¬ ctx.Reaches root k) :
    Values ctx root β v bits t (k + 1) := by
  refine ⟨hval.length, fun id hid hr => ?_, fun id hid hr hv => ?_⟩
  · by_cases hik : id = k
    · exact absurd (hik ▸ hr) hk
    · exact hval.operand id (by omega) hr
  · by_cases hik : id = k
    · exact absurd (hik ▸ hr) hk
    · exact hval.val id (by omega) hr hv

theorem fits_circuitOp {n : BVNode} {aw bw : Nat} {va vb vc : U64} (h0 : 0 < n.width)
    (h : n.width ≤ 64) : Fits n.width (circuitOp n aw bw va vb vc) := by
  have hbool : ∀ b, Fits n.width (ofBool b) := by
    intro b
    cases b
    · exact fits_zero
    · exact fits_one h0
  unfold circuitOp
  split
  · exact hbool _
  · exact hbool _
  · exact fits_evalOp h0 h

theorem runs_blastNode (h : ctx.Typed) (ht : t.Gates) (hval : Values ctx root β v bits t k)
    (hk : k < ctx.nodes.length) (hr : ctx.Reaches root k) (hv : (ctx.node k).op ≠ .var) :
    Runs (blastNode (ctx.node k) (bits.getD (ctx.node k).a []) (bits.getD (ctx.node k).b [])
      (bits.getD (ctx.node k).c [])) t
      (fun out u => Operand β u out (ctx.width k) (circuitVal ctx v k)) := by
  have h0 := h.pos k hk
  have hle := h.le k hk
  by_cases hc : (ctx.node k).op = .const
  · have hcv : circuitVal ctx v k = (ctx.node k).imm &&& widthMask (ctx.node k).width := by
      simp only [circuitVal, hc]
    rw [hcv]
    exact (runs_blastConst ht hc hle).mono
      (fun out u _ _ hout => ⟨fits_and_widthMask hle _, h0, hle, hout⟩)
  · obtain ⟨ha, hb, hcc⟩ := h.before hk hc hv
    have hcv : circuitVal ctx v k = circuitOp (ctx.node k) (ctx.width (ctx.node k).a)
        (ctx.width (ctx.node k).b) (v (ctx.node k).a) (v (ctx.node k).b) (v (ctx.node k).c) := by
      unfold circuitVal
      dsimp only
      split
      · contradiction
      · rfl
    rw [hcv]
    exact (runs_blastOp ht hc hv (h.sorted k hk) hle
      (hval.operand _ ha (hr.operand (by omega) (Or.inl rfl)))
      (hval.operand _ hb (hr.operand (by omega) (Or.inr (Or.inl rfl))))
      (hval.operand _ hcc (hr.operand (by omega) (Or.inr (Or.inr rfl))))).mono
      (fun out u _ _ hout => ⟨fits_circuitOp h0 hle, h0, hle, hout⟩)

/-! ## The literals of variables -/

/-- The literals of the variables below `k` have the bits of `vars`. -/
def Reads (ctx : BVContext) (root : Nat) (vars : List U64) (β : Nat → Bool)
    (bits : List (List Lit)) (k : Nat) : Prop :=
  ∀ id < k, ctx.Reaches root id → (ctx.node id).op = .var → ∀ i < ctx.width id,
    litTrue β (bitAt (bits.getD id []) i) = (vars.getD (ctx.node id).imm.toNat 0).getLsbD i

theorem Reads.congr {α : Nat → Bool} (h : Reads ctx root vars α bits k)
    (hval : Values ctx root α v bits t k) (hagree : ∀ i < t.nVars, β i = α i) :
    Reads ctx root vars β bits k := by
  intro id hid hr hv i hi
  rw [← h id hid hr hv i hi]
  exact litTrue_congr (hagree _ ((hval.operand id hid hr).word.bit i).range)

theorem Reads.set {vars : List U64} {out : List Lit} (h : Reads ctx root vars β bits k)
    (hk : k < bits.length)
    (hout : (ctx.node k).op = .var → ∀ i < ctx.width k,
      litTrue β (bitAt out i) = (vars.getD (ctx.node k).imm.toNat 0).getLsbD i) :
    Reads ctx root vars β (bits.set k out) (k + 1) := by
  intro id hid hr hv i hi
  rw [getD_set hk]
  by_cases hik : k = id
  · subst hik
    rw [if_pos rfl]
    exact hout hv i hi
  · rw [if_neg hik]
    exact h id (by omega) hr hv i hi

/-- What holds when the nodes below `k` are blasted. -/
structure Blasted (ctx : BVContext) (root : Nat) (k : Nat) (bits : List (List Lit))
    (t : Solver D) : Prop where
  values : ∀ β, ∃ v, Values ctx root β v bits t k
  model : ∀ vars, ∃ β, Models t.added β ∧ Reads ctx root vars β bits k

/-- A program that is right for every assignment is right for all of them at once. -/
theorem runs_forall {α ι : Type} [Nonempty ι] {p : Circuit D α} {Q : ι → α → Solver D → Prop}
    (h : ∀ i, Runs p s (Q i)) : Runs p s (fun a t => ∀ i, Q i a t) := by
  obtain ⟨a, t, hrun, ht, hst, -⟩ := h (Classical.arbitrary ι)
  refine ⟨a, t, hrun, ht, hst, fun i => ?_⟩
  obtain ⟨a', t', hrun', -, -, hq⟩ := h i
  rw [hrun] at hrun'
  cases hrun'
  exact hq

theorem Blasted.op (h : ctx.Typed) (ht : t.Gates) (hb : Blasted ctx root k bits t)
    (hk : k < ctx.nodes.length) (hr : ctx.Reaches root k) (hv : (ctx.node k).op ≠ .var) :
    Runs (blastNode (ctx.node k) (bits.getD (ctx.node k).a []) (bits.getD (ctx.node k).b [])
      (bits.getD (ctx.node k).c [])) t
      (fun out u => t.Conservative u → Blasted ctx root (k + 1) (bits.set k out) u) := by
  have hall : ∀ β, Runs (blastNode (ctx.node k) (bits.getD (ctx.node k).a [])
      (bits.getD (ctx.node k).b []) (bits.getD (ctx.node k).c [])) t
      (fun out u => ∃ v, Values ctx root β v bits t k ∧
        Operand β u out (ctx.width k) (circuitVal ctx v k)) := by
    intro β
    obtain ⟨v, hval⟩ := hb.values β
    exact (runs_blastNode h ht hval hk hr hv).mono (fun _ _ _ _ hout => ⟨v, hval, hout⟩)
  refine (runs_forall hall).mono (fun out u hu _ hout htu => ⟨fun β => ?_, fun vars => ?_⟩)
  · obtain ⟨v, hval, hop⟩ := hout β
    exact ⟨_, hval.set h hk htu hop (fun _ => rfl)⟩
  · obtain ⟨α, hα, hreads⟩ := hb.model vars
    obtain ⟨β, hβ, hagree⟩ := htu.extend α hα
    obtain ⟨v, hval⟩ := hb.values α
    refine ⟨β, hβ, (hreads.congr hval hagree).set (by rw [hval.length]; exact hk) ?_⟩
    exact fun hvar => absurd hvar hv

theorem Blasted.var (h : ctx.Typed) (ht : t.Gates) (hb : Blasted ctx root k bits t)
    (hk : k < ctx.nodes.length) (hv : (ctx.node k).op = .var) :
    Runs (blastNode (ctx.node k) (bits.getD (ctx.node k).a []) (bits.getD (ctx.node k).b [])
      (bits.getD (ctx.node k).c [])) t
      (fun out u => t.Conservative u → Blasted ctx root (k + 1) (bits.set k out) u) := by
  have hnode : ∀ ba bb bc : List Lit, blastNode (D := D) (ctx.node k) ba bb bc =
      Circuit.build (fun _ => do
        let v ← Circuit.newVar
        pure ⟨v, false⟩) (ctx.width k) := by
    intro ba bb bc
    unfold blastNode
    rw [hv]
    rfl
  rw [hnode]
  refine (runs_freshBits ht (ctx.width k)).mono (fun out u hu _ hout htu => ?_)
  obtain ⟨rfl, hadded, hvars⟩ := hout
  refine ⟨fun β => ?_, fun vars => ?_⟩
  · obtain ⟨v, hval⟩ := hb.values β
    obtain ⟨x, hx⟩ := exists_bits (fun i => β (t.nVars + i)) (ctx.width k)
    refine ⟨_, hval.set h hk htu (x := lift x) ⟨fits_lift (h.le k hk) x, h.pos k hk, h.le k hk, ?_⟩
      (fun hne => absurd hv hne)⟩
    rw [cut_lift (h.le k hk)]
    refine word_of_lt hu (by simp [freshBits]) (fun i hi => ?_)
    rw [bitAt_freshBits hi]
    exact ⟨by show t.nVars + i < u.nVars; omega, fun _ => by rw [litTrue_pos, hx i hi]⟩
  · obtain ⟨α, hα, hreads⟩ := hb.model vars
    obtain ⟨v, hval⟩ := hb.values α
    have hagree : ∀ i < t.nVars, (fun i => if i < t.nVars then α i else
        (vars.getD (ctx.node k).imm.toNat 0).getLsbD (i - t.nVars)) i = α i :=
      fun i hi => if_pos hi
    refine ⟨_, ?_, (hreads.congr hval hagree).set (by rw [hval.length]; exact hk)
      (fun _ i hi => ?_)⟩
    · rw [hadded]
      exact ht.inv.models_congr hα hagree
    · rw [bitAt_freshBits hi, litTrue_pos, if_neg (by omega), Nat.add_sub_cancel_left]

theorem runs_blastAll (h : ctx.Typed) (hroot : root < ctx.nodes.length) (hs : s.Gates)
    (hmodel : ∃ α, Models s.added α) :
    Runs (blastAll ctx root) s (Blasted ctx root ctx.nodes.length) := by
  have hreach : ∀ id, id ∈ Search.depthFirst ctx.operands ctx.nodes.length root ↔
      ctx.Reaches root id := (Search.mem_depthFirst_iff (reaches_universe hroot) (by simp)).2
  refine runs_loop (Blasted ctx root) hs ⟨fun β => ⟨fun _ => 0, ?_⟩, fun vars => ?_⟩
    (fun k bits t hk ht _ hb => ?_)
  · exact ⟨by simp, fun id hid => absurd hid (by omega), fun id hid => absurd hid (by omega)⟩
  · obtain ⟨α, hα⟩ := hmodel
    exact ⟨α, hα, fun id hid => absurd hid (by omega)⟩
  · unfold blastStep
    split
    · rename_i hmem
      have hr := (hreach k).mp hmem
      have hnode : Runs (blastNode (ctx.node k) (bits.getD (ctx.node k).a [])
          (bits.getD (ctx.node k).b []) (bits.getD (ctx.node k).c [])) t
          (fun out u => t.Conservative u → Blasted ctx root (k + 1) (bits.set k out) u) := by
        by_cases hv : (ctx.node k).op = .var
        · exact hb.var h ht hk hv
        · exact hb.op h ht hk hr hv
      exact runs_bind hnode (fun out u hu htu hout => runs_pure hu (hout htu))
    · rename_i hmem
      have hr : ¬ ctx.Reaches root k := fun hr => hmem ((hreach k).mpr hr)
      refine runs_pure ht ⟨fun β => ?_, fun vars => ?_⟩
      · obtain ⟨v, hval⟩ := hb.values β
        exact ⟨v, hval.skip hr⟩
      · obtain ⟨β, hβ, hreads⟩ := hb.model vars
        refine ⟨β, hβ, fun id hid hr' hv i hi => ?_⟩
        have hne : id ≠ k := fun hk' => hr (hk' ▸ hr')
        exact hreads id (by omega) hr' hv i hi

/-! ## Concrete values -/

/-- No flag of a product in the cone is missed by the concrete evaluation under `vars`. -/
def NoMissedOverflow (ctx : BVContext) (root : Nat) (vars : List U64) : Prop :=
  ∀ id, ctx.Reaches root id → missesOverflow (ctx.node id).op (ctx.width (ctx.node id).a)
    (ctx.val vars (ctx.node id).a) (ctx.val vars (ctx.node id).b) = false

/-- The nodes of a cone whose variables read `vars` have their concrete values. -/
theorem Values.concrete (h : ctx.Typed) (hroot : root < ctx.nodes.length)
    (hval : Values ctx root β v bits t ctx.nodes.length) (hβ : t.Model β)
    (hreads : Reads ctx root vars β bits ctx.nodes.length)
    (hmiss : NoMissedOverflow ctx root vars) (id : Nat) (hr : ctx.Reaches root id) :
    v id = ctx.val vars id := by
  induction id using Nat.strongRecOn with
  | ind id ih =>
    have hid := hr.lt hroot
    have hop := hval.operand id hid hr
    by_cases hv : (ctx.node id).op = .var
    · refine hop.fits.ext (h.fits hid vars) (BitVec.eq_of_getLsbD_eq fun i hi => ?_)
      rw [← (hop.word.bit i).value hβ, hreads id hid hr hv i hi, h.val_node hid vars,
        evalNode_var hv]
      rw [show (ctx.node id).width = ctx.width id from rfl, cut_and_widthMask (h.le id hid),
        getLsbD_cut, decide_eq_true hi, Bool.true_and]
    · rw [hval.val id hid hr hv]
      by_cases hc : (ctx.node id).op = .const
      · rw [h.val_node hid vars, evalNode_const hc]
        simp only [circuitVal, hc]
      · obtain ⟨ha, hb, hcc⟩ := h.before hid hc hv
        have hra := hr.operand (v := (ctx.node id).a) (by omega) (Or.inl rfl)
        have hrb := hr.operand (v := (ctx.node id).b) (by omega) (Or.inr (Or.inl rfl))
        have hrc := hr.operand (v := (ctx.node id).c) (by omega) (Or.inr (Or.inr rfl))
        rw [h.val_op hid hc hv vars]
        unfold circuitVal
        dsimp only
        split
        · contradiction
        · rw [ih _ ha hra, ih _ hb hrb, ih _ hcc hrc]
          by_cases ho : isOverflow (ctx.node id).op = true
          · have hp : isPred (ctx.node id).op = true := by
              cases hop : (ctx.node id).op <;> rw [hop] at ho <;>
                first | exact absurd ho (by decide) | rfl
            have hw := (h.sorted id hid).pred hp
            have hfb : Fits (ctx.width (ctx.node id).b) (ctx.val vars (ctx.node id).b) :=
              h.fits (by omega) vars
            rw [hw.2] at hfb
            exact circuitOp_eq (h.pos _ (by omega)) (h.le _ (by omega)) (h.fits (by omega) vars) hfb
              (hmiss id hr)
          · cases hop : (ctx.node id).op <;> rw [hop] at ho <;>
              first | exact absurd rfl ho | simp only [circuitOp, hop]

end Brass.Verify.Bv
