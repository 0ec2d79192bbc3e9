import Brass.Verify.BvBlastAll
import Brass.Verify.BvSound

/-!
# Answers of the bit-vector solver

An assignment that makes the node non-zero gives a model of the blasted clauses, and no
clause that the solver adds afterwards rules that model out: conjuncts are true under it,
and a difference of bits that was refuted is false. So `Unsat` is right, as long as the
assignment meets no product whose overflow the concrete evaluation and the circuit judge
differently (`solveNonzero_answers`).
-/

namespace Brass.Verify.Cdcl.Solver

open Brass.Util.Cnf

variable {D : Doubles} {s t : Solver D}

theorem Grows.refl (s : Solver D) : s.Grows s := ⟨Nat.le_refl _, fun _ h => h⟩

theorem Grows.trans {u : Solver D} (h : s.Grows t) (h' : t.Grows u) : s.Grows u :=
  ⟨Nat.le_trans h.nVars h'.nVars, fun c hc => h'.added c (h.added c hc)⟩

theorem addClause_false {lits : List Lit} (h : s.addClause lits = some (false, t)) :
    t.ok = false := by
  have hunit : ∀ {u : Solver D} {l : Lit}, u.addUnit l = some (false, t) → t.ok = false := by
    intro u l hu
    unfold addUnit at hu
    split at hu
    · cases hu
      rfl
    · cases hu
    · split at hu <;> cases hu
      rfl
  have hsimple : ∀ {u : Solver D} {ls : List Lit}, u.addSimplified ls = some (false, t) →
      t.ok = false := by
    intro u ls hu
    unfold addSimplified at hu
    split at hu
    · cases hu
      rfl
    · exact hunit hu
    · cases hu
  unfold addClause at h
  dsimp only at h
  split at h
  · rename_i hok
    cases h
    exact hok
  · split at h
    · cases h
    · split at h
      · cases h
      · exact hsimple h

end Brass.Verify.Cdcl.Solver

namespace Brass.Verify.Bv

open Brass.Util Brass.Util.Cnf Brass.Verify.Cdcl BVContext Solver

variable {D : Doubles} {s t u : Solver D} {β : Nat → Bool} {ctx : BVContext} {root : Nat}
  {bits : List (List Lit)} {α γ : Type}

/-! ## Programs that add clauses -/

/-- The program returns, in a solver that is in order and has all clauses of before. -/
def Returns (p : Circuit D α) (s : Solver D) (Q : α → Solver D → Prop) : Prop :=
  ∃ a t, p s = some (a, t) ∧ t.Gates ∧ s.Grows t ∧ Q a t

theorem Runs.returns {p : Circuit D α} {Q : α → Solver D → Prop} (h : Runs p s Q) :
    Returns p s (fun a t => s.Conservative t ∧ Q a t) := by
  obtain ⟨a, t, hrun, ht, hst, hq⟩ := h
  exact ⟨a, t, hrun, ht, hst.toGrows, hst, hq⟩

theorem returns_pure {a : α} {Q : α → Solver D → Prop} (hs : s.Gates) (h : Q a s) :
    Returns (pure a) s Q := ⟨a, s, rfl, hs, Grows.refl s, h⟩

theorem returns_bind {p : Circuit D α} {f : α → Circuit D γ} {P : α → Solver D → Prop}
    {Q : γ → Solver D → Prop} (hp : Returns p s P)
    (hf : ∀ a t, t.Gates → s.Grows t → P a t → Returns (f a) t Q) :
    Returns (p >>= f) s Q := by
  obtain ⟨a, t, hrun, ht, hst, ha⟩ := hp
  obtain ⟨b, u, hrun', hu, htu, hb⟩ := hf a t ht hst ha
  refine ⟨b, u, ?_, hu, hst.trans htu, hb⟩
  show (p s).bind (fun r => f r.1 r.2) = some (b, u)
  rw [hrun]
  exact hrun'

theorem Returns.mono {p : Circuit D α} {P Q : α → Solver D → Prop} (h : Returns p s P)
    (hPQ : ∀ a t, t.Gates → s.Grows t → P a t → Q a t) : Returns p s Q := by
  obtain ⟨a, t, hrun, ht, hst, ha⟩ := h
  exact ⟨a, t, hrun, ht, hst, hPQ a t ht hst ha⟩

/-- A model that satisfies the new clause stays one, and the clause is accepted. -/
theorem returns_addClause (hs : s.Gates) {l : Lit} (hl : l.var < s.nVars) :
    Returns (Circuit.addClause [l]) s (fun ok t => t.nVars = s.nVars ∧
      ∀ β, Models s.added β → litTrue β l = true → ok = true ∧ Models t.added β) := by
  have hrange : ∀ k ∈ [l], k.var < s.nVars := by simpa using hl
  obtain ⟨⟨ok, t⟩, hrun, ht, hadded, hvars⟩ := hs.addClause hrange
  have hgrows : s.Grows t := ⟨Nat.le_of_eq hvars.symm, fun c hc => by
    rw [show t.added = [l] :: s.added from hadded]
    exact List.mem_cons_of_mem _ hc⟩
  refine ⟨ok, t, hrun, ht, hgrows, hvars, fun β hβ htrue => ?_⟩
  have hmodel : Models t.added β := by
    intro c hc
    rw [show t.added = [l] :: s.added from hadded] at hc
    rcases List.mem_cons.mp hc with rfl | hc
    · exact satisfies_singleton.mpr htrue
    · exact hβ c hc
  refine ⟨?_, hmodel⟩
  cases ok with
  | true => rfl
  | false => exact absurd hmodel (ht.inv.2 (addClause_false hrun) β)

theorem returns_solveAssuming (hs : s.Gates) {a : Lit} (ha : a.var < s.nVars) (m : Nat) :
    Returns (Circuit.solveAssuming a m) s (fun st t => t.nVars = s.nVars ∧ t.added = s.added ∧
      (st = .unsat → ∀ β, Models s.added β → litTrue β a = false)) := by
  obtain ⟨⟨st, t⟩, hrun, ht, hkept, -, hans⟩ := hs.solveAssuming ha m
  have hvars : t.nVars = s.nVars := hkept.nVars
  have hadded : t.added = s.added := hkept.added
  refine ⟨st, t, hrun, ht, ⟨Nat.le_of_eq hvars.symm, fun c hc => hadded ▸ hc⟩, hvars, hadded, ?_⟩
  rintro rfl β hβ
  cases hlit : litTrue β a with
  | false => rfl
  | true => exact absurd ⟨hβ, hlit⟩ (hans β)

/-! ## The parts of the solver -/

theorem returns_assertLits (ls : List Lit) : ∀ {s : Solver D}, s.Gates →
    (∀ l ∈ ls, l.var < s.nVars) →
    Returns (assertLits ls) s (fun ok t => t.nVars = s.nVars ∧
      ∀ β, Models s.added β → (∀ l ∈ ls, litTrue β l = true) → ok = true ∧ Models t.added β) := by
  induction ls with
  | nil => exact fun hs _ => returns_pure hs ⟨rfl, fun β hβ _ => ⟨rfl, hβ⟩⟩
  | cons l ls ih =>
    intro s hs hrange
    refine returns_bind (returns_addClause hs (hrange l List.mem_cons_self))
      (fun ok t ht _ hok => ?_)
    obtain ⟨hvars, hmodel⟩ := hok
    split
    · refine (ih ht (fun q hq => hvars ▸ hrange q (List.mem_cons_of_mem _ hq))).mono
        (fun ok' u _ _ hu => ⟨hu.1.trans hvars, fun β hβ hall => ?_⟩)
      have ht' := (hmodel β hβ (hall l List.mem_cons_self)).2
      exact hu.2 β ht' (fun q hq => hall q (List.mem_cons_of_mem _ hq))
    · rename_i hfalse
      refine returns_pure ht ⟨hvars, fun β hβ hall => ?_⟩
      exact absurd (hmodel β hβ (hall l List.mem_cons_self)).1 hfalse

/-- A model of the clauses before extends to one of the clauses after. -/
def Carries (s t : Solver D) (P : (Nat → Bool) → Prop) : Prop :=
  ∀ β, Models s.added β → ∃ β', Models t.added β' ∧ (∀ v < s.nVars, β' v = β v) ∧ P β

theorem returns_refuteBits (m : Nat) (ps : List (Lit × Lit)) : ∀ {s : Solver D}, s.Gates →
    (∀ p ∈ ps, p.1.var < s.nVars ∧ p.2.var < s.nVars) →
    Returns (refuteBits m ps) s (fun r t => Carries s t (fun β =>
      r = true → t.nVars ≤ 2 ^ 29 → ∀ p ∈ ps, litTrue β p.1 = litTrue β p.2)) := by
  induction ps with
  | nil => exact fun hs _ => returns_pure hs (fun β hβ => ⟨β, hβ, fun _ _ => rfl, by simp⟩)
  | cons p ps ih =>
    intro s hs hrange
    obtain ⟨h₁, h₂⟩ := hrange p List.mem_cons_self
    obtain ⟨⟨diff, t⟩, hrun, hbuilt⟩ := hs.mkXor h₁ h₂
    obtain ⟨ht, hst, hdiff, hval⟩ := hbuilt
    dsimp only at ht hst hdiff hval
    have hxor : Returns (Circuit.mkXor p.1 p.2) s (fun d u => d = diff ∧ u = t) :=
      ⟨diff, t, hrun, ht, hst.toGrows, rfl, rfl⟩
    refine returns_bind hxor (fun d u _ _ hd => ?_)
    obtain ⟨rfl, rfl⟩ := hd
    refine returns_bind (returns_solveAssuming ht hdiff m) (fun st v hv htv hst' => ?_)
    obtain ⟨hvars, hadded, hunsat⟩ := hst'
    split
    · rename_i hst'
      refine returns_bind (returns_addClause hv (l := d.neg) (by rw [hvars]; exact hdiff))
        (fun ok w hw hvw hok => ?_)
      obtain ⟨hvarsw, hmodel⟩ := hok
      have hcarry : ∀ β, Models s.added β → ∃ β', Models w.added β' ∧
          (∀ i < s.nVars, β' i = β i) ∧ ok = true ∧
          (u.nVars ≤ 2 ^ 29 → litTrue β p.1 = litTrue β p.2) := by
        intro β hβ
        obtain ⟨β', hβ', hagree⟩ := hst.extend β hβ
        have hfalse := hunsat hst' β' hβ'
        have hneg : litTrue β' d.neg = true := by rw [litTrue_neg, hfalse]; rfl
        obtain ⟨hok, hβw⟩ := hmodel β' (by rw [hadded]; exact hβ') hneg
        refine ⟨β', hβw, hagree, hok, fun hle => ?_⟩
        have hxor := hval β' ⟨hle, hβ'⟩
        rw [hfalse] at hxor
        rw [← litTrue_congr (hagree _ h₁), ← litTrue_congr (hagree _ h₂)]
        simpa using hxor.symm
      have hle : s.nVars ≤ w.nVars := by
        have := hst.nVars
        omega
      split
      · refine (ih hw (fun q hq => ?_)).mono (fun r z _ hwz hz β hβ => ?_)
        · have := hrange q (List.mem_cons_of_mem _ hq)
          omega
        · obtain ⟨β', hβ', hagree, -, hp⟩ := hcarry β hβ
          obtain ⟨β'', hβ'', hagree', hps⟩ := hz β' hβ'
          refine ⟨β'', hβ'', fun i hi => ?_, fun hr hzle q hq => ?_⟩
          · rw [hagree' i (by omega), hagree i hi]
          · rcases List.mem_cons.mp hq with rfl | hq
            · have := hwz.nVars
              exact hp (by omega)
            · have hq' := hrange q (List.mem_cons_of_mem _ hq)
              have := hps hr hzle q hq
              rwa [litTrue_congr (hagree _ hq'.1), litTrue_congr (hagree _ hq'.2)] at this
      · rename_i hnok
        refine returns_pure hw (fun β hβ => ?_)
        obtain ⟨_, _, _, hok, _⟩ := hcarry β hβ
        exact absurd hok hnok
    · refine returns_pure hv (fun β hβ => ?_)
      obtain ⟨β', hβ', hagree⟩ := hst.extend β hβ
      exact ⟨β', by rw [hadded]; exact hβ', hagree, fun hr => absurd hr (by decide)⟩

/-- The last stage: no model that makes the node non-zero survives an `Unsat`. -/
theorem returns_solveBlasted (hs : s.Gates) {w : Nat} {x : (Nat → Bool) → BitVec w}
    (hword : ∀ β, Word β s (bits.getD root []) (x β)) (m : Nat) (strict : Bool) :
    Returns (solveBlasted ctx root bits m strict) s (fun r t =>
      (r = .unsat → t.nVars ≤ 2 ^ 29 → ∀ β, Models s.added β →
        (∀ β', (∀ v < s.nVars, β' v = β v) → Models s.added β' → (x β').toNat ≠ 0) → False) ∧
      ∀ model, r = .sat model → evalConcrete ctx.nodes root model ≠ 0) := by
  have hlen : ∀ β, (bits.getD root []).length = w := fun β => (hword β).length
  have hor := runs_forall (fun β => runs_nonzero hs (hword β) w)
  unfold solveBlasted
  dsimp only
  rw [hlen (fun _ => false)]
  refine returns_bind hor.returns (fun l t ht hst hl => ?_)
  obtain ⟨hcons, hl⟩ := hl
  have hrange : l.var < t.nVars := (hl (fun _ => false)).range
  -- The literal of the node is true in the models considered.
  have htrue : ∀ β, Models s.added β → t.nVars ≤ 2 ^ 29 →
      (∀ β', (∀ v < s.nVars, β' v = β v) → Models s.added β' → (x β').toNat ≠ 0) →
      ∃ β', Models t.added β' ∧ litTrue β' l = true := by
    intro β hβ hle hnz
    obtain ⟨β', hβ', hagree⟩ := hcons.extend β hβ
    refine ⟨β', hβ', ?_⟩
    rw [(hl β').value ⟨hle, hβ'⟩, decide_eq_true_eq, Nat.mod_eq_of_lt (x β').isLt]
    exact hnz β' hagree (fun c hc => hβ' c (hcons.added c hc))
  refine returns_bind (returns_addClause ht hrange) (fun ok u hu htu hok => ?_)
  obtain ⟨hvars, hmodel⟩ := hok
  split
  · rename_i hfalse
    refine returns_pure hu ⟨fun _ hle β hβ hnz => ?_, fun model hr => absurd hr (by simp)⟩
    obtain ⟨β', hβ', hl'⟩ := htrue β hβ (by omega) hnz
    exact absurd ((hmodel β' hβ' hl').1.symm.trans hfalse) (by decide)
  · have hpos : trueLit.var < u.nVars := hu.pos
    refine returns_bind (returns_solveAssuming hu hpos m) (fun st v hv huv hst' => ?_)
    obtain ⟨hvars', -, hunsat⟩ := hst'
    cases st with
    | unsat =>
      refine returns_pure hv ⟨fun _ hle β hβ hnz => ?_, fun model hr => absurd hr (by simp)⟩
      obtain ⟨β', hβ', hl'⟩ := htrue β hβ (by omega) hnz
      have hfalse := hunsat rfl β' (hmodel β' hβ' hl').2
      have hzero := hu.inv.zero_false (hmodel β' hβ' hl').2
      rw [trueLit, litTrue_negated, hzero] at hfalse
      cases hfalse
    | unknown =>
      exact returns_pure hv ⟨fun hr => absurd hr (by simp), fun _ hr => absurd hr (by simp)⟩
    | sat =>
      have hget : Returns (get : Circuit D (Solver D)) v (fun _ w => w = v) :=
        ⟨v, v, rfl, hv, Grows.refl v, rfl⟩
      refine returns_bind hget (fun z w hw _ _ => ?_)
      split
      · rename_i hne
        refine returns_pure hw ⟨fun hr => absurd hr (by simp), fun model hr => ?_⟩
        cases hr
        exact hne
      · split <;>
          exact returns_pure hw ⟨fun hr => absurd hr (by simp), fun _ hr => absurd hr (by simp)⟩

/-! ## Conjuncts -/

section Conjuncts

variable {vars : List U64} {id : Nat}

/-- A conjunct of a node that is not zero. -/
structure Holds (ctx : BVContext) (root : Nat) (vars : List U64) (u : Nat) : Prop where
  reach : ctx.Reaches root u
  width : ctx.width u = 1
  val : ctx.val vars u ≠ 0

theorem Holds.lt (h : Holds ctx root vars id) (hroot : root < ctx.nodes.length) :
    id < ctx.nodes.length := h.reach.lt hroot

theorem Holds.and (h : ctx.Typed) (hroot : root < ctx.nodes.length)
    (hid : Holds ctx root vars id) (hop : (ctx.node id).op = .and) :
    Holds ctx root vars (ctx.node id).a ∧ Holds ctx root vars (ctx.node id).b := by
  have hlt := hid.lt hroot
  have hc : (ctx.node id).op ≠ .const := by rw [hop]; decide
  have hv : (ctx.node id).op ≠ .var := by rw [hop]; decide
  obtain ⟨ha, hb, -⟩ := h.before hlt hc hv
  obtain ⟨hwa, hwb⟩ := (h.sorted id hlt).arith (by rw [hop]; rfl)
  have hw : (ctx.node id).width = 1 := hid.width
  have hval := hid.val
  rw [h.val_op hlt hc hv vars] at hval
  simp only [evalOp, hop] at hval
  refine ⟨⟨hid.reach.operand (by omega) (.inl rfl), hwa.trans hw, fun h0 => hval ?_⟩,
    ⟨hid.reach.operand (by omega) (.inr (.inl rfl)), hwb.trans hw, fun h0 => hval ?_⟩⟩
  · rw [h0]
    simp
  · rw [h0]
    simp

theorem holds_conjuncts (h : ctx.Typed) (hroot : root < ctx.nodes.length) :
    ∀ (fuel id : Nat), Holds ctx root vars id →
      ∀ u ∈ conjuncts ctx fuel id, Holds ctx root vars u := by
  intro fuel
  induction fuel with
  | zero =>
    intro id hid u hu
    obtain rfl := List.mem_singleton.mp hu
    exact hid
  | succ fuel ih =>
    intro id hid u hu
    rw [conjuncts] at hu
    split at hu
    · rename_i hand
      obtain ⟨ha, hb⟩ := hid.and h hroot hand.1
      rcases List.mem_append.mp hu with hu | hu
      · exact ih _ hb u hu
      · exact ih _ ha u hu
    · obtain rfl := List.mem_singleton.mp hu
      exact hid

theorem isNegation_iff : isNegation ctx id = true ↔
    (ctx.node id).op = .not ∧ (ctx.node id).width = 1 := by
  simp [isNegation]

theorem Holds.negation (h : ctx.Typed) (hroot : root < ctx.nodes.length)
    (hid : Holds ctx root vars id) (hneg : isNegation ctx id = true) :
    ctx.val vars (ctx.node id).a = 0 ∧ (ctx.node id).a < id := by
  obtain ⟨hop, hw⟩ := isNegation_iff.mp hneg
  have hlt := hid.lt hroot
  have hc : (ctx.node id).op ≠ .const := by rw [hop]; decide
  have hv : (ctx.node id).op ≠ .var := by rw [hop]; decide
  obtain ⟨ha, -, -⟩ := h.before hlt hc hv
  have hwa : ctx.width (ctx.node id).a = 1 := by
    have := h.sorted id hlt
    unfold BVNode.Sorted at this
    rw [hop] at this
    exact this.trans hw
  have hfits := h.fits (show (ctx.node id).a < ctx.nodes.length by omega) vars
  rw [hwa] at hfits
  have hlt2 : (ctx.val vars (ctx.node id).a).toNat < 2 := hfits
  refine ⟨?_, ha⟩
  by_contra hne
  have hne' : (ctx.val vars (ctx.node id).a).toNat ≠ 0 := fun h0 => hne (BitVec.eq_of_toNat_eq h0)
  have hone : ctx.val vars (ctx.node id).a = 1#64 := BitVec.eq_of_toNat_eq (by
    show _ = 1
    omega)
  have hval := hid.val
  rw [h.val_op hlt hc hv vars] at hval
  simp only [evalOp, hop, hone, hw] at hval
  exact hval (by decide)

theorem not_contradicts (h : ctx.Typed) (hroot : root < ctx.nodes.length)
    (hholds : Holds ctx root vars root) : contradicts ctx root = false := by
  have hall := holds_conjuncts h hroot (root + 1) root hholds
  rw [Bool.eq_false_iff]
  intro hcon
  unfold contradicts at hcon
  rw [Bool.or_eq_true, List.any_eq_true, List.any_eq_true] at hcon
  rcases hcon with ⟨u, hu, hzero⟩ | ⟨u, hu, hneg⟩
  · obtain ⟨hop, himm⟩ := of_decide_eq_true hzero
    refine (hall u hu).val ?_
    rw [h.val_node ((hall u hu).lt hroot) vars, evalNode_const hop, himm]
    simp
  · have hu' := (List.mem_filter.mp hu).1
    obtain ⟨n, hn, rfl⟩ := List.mem_map.mp (of_decide_eq_true hneg)
    obtain ⟨hn, hnot⟩ := List.mem_filter.mp hn
    exact (hall _ hu').val ((hall n hn).negation h hroot hnot).1

/-- The inequality and the other conjuncts come from the list. -/
theorem splitInequality_spec (ctx : BVContext) (root : Nat) :
    (∀ e, (splitInequality ctx root).1 = some e → ∃ u ∈ conjuncts ctx (root + 1) root,
        isInequality ctx u = true ∧ e = (ctx.node u).a) ∧
      ∀ d ∈ (splitInequality ctx root).2, d ∈ conjuncts ctx (root + 1) root := by
  have hfold : ∀ (ls : List Nat) (st : Option Nat × List Nat) (all : List Nat),
      (∀ u ∈ ls, u ∈ all) →
      (∀ e, st.1 = some e → ∃ u ∈ all, isInequality ctx u = true ∧ e = (ctx.node u).a) →
      (∀ d ∈ st.2, d ∈ all) →
      let r := ls.foldl (fun (st : Option Nat × List Nat) u =>
        if st.1 = none ∧ isInequality ctx u = true then (some (ctx.node u).a, st.2)
        else (st.1, st.2 ++ [u])) st
      (∀ e, r.1 = some e → ∃ u ∈ all, isInequality ctx u = true ∧ e = (ctx.node u).a) ∧
        ∀ d ∈ r.2, d ∈ all := by
    intro ls
    induction ls with
    | nil => exact fun st all _ h₁ h₂ => ⟨h₁, h₂⟩
    | cons x ls ih =>
      intro st all hls h₁ h₂
      have hx := hls x List.mem_cons_self
      have hrest : ∀ u ∈ ls, u ∈ all := fun u hu => hls u (List.mem_cons_of_mem _ hu)
      rw [List.foldl_cons]
      split
      · rename_i hineq
        refine ih _ all hrest (fun e he => ?_) h₂
        cases he
        exact ⟨x, hx, hineq.2, rfl⟩
      · refine ih _ all hrest h₁ (fun d hd => ?_)
        rcases List.mem_append.mp hd with hd | hd
        · exact h₂ d hd
        · exact List.mem_singleton.mp hd ▸ hx
  exact hfold _ _ _ (fun _ hu => hu) (fun e he => by cases he) (fun d hd => by cases hd)

end Conjuncts

/-! ## The shortcut -/

/-- The literals of the cone read the concrete values. -/
structure Reading (ctx : BVContext) (root : Nat) (vars : List U64) (bits : List (List Lit))
    (β : Nat → Bool) : Prop where
  bit : ∀ id, ctx.Reaches root id → ∀ i,
    litTrue β (bitAt (bits.getD id []) i) = (cut (ctx.width id) (ctx.val vars id)).getLsbD i

/-- The literals of the cone: as many as the width says, all of existing variables. -/
structure InRange (ctx : BVContext) (root : Nat) (bits : List (List Lit)) (s : Solver D) :
    Prop where
  length : ∀ id, ctx.Reaches root id → (bits.getD id []).length = ctx.width id
  range : ∀ id, ctx.Reaches root id → ∀ i, (bitAt (bits.getD id []) i).var < s.nVars

theorem InRange.reading {vars : List U64} {α : Nat → Bool} (h : InRange ctx root bits s)
    (hr : Reading ctx root vars bits α) (hagree : ∀ v < s.nVars, β v = α v) :
    Reading ctx root vars bits β := by
  refine ⟨fun id hid i => ?_⟩
  rw [litTrue_congr (hagree _ (h.range id hid i))]
  exact hr.bit id hid i

theorem reaches_conjuncts (h : ctx.Typed) (hroot : root < ctx.nodes.length) :
    ∀ (fuel id : Nat), ctx.Reaches root id → ∀ u ∈ conjuncts ctx fuel id, ctx.Reaches root u := by
  intro fuel
  induction fuel with
  | zero =>
    intro id hid u hu
    obtain rfl := List.mem_singleton.mp hu
    exact hid
  | succ fuel ih =>
    intro id hid u hu
    rw [conjuncts] at hu
    split at hu
    · rename_i hand
      have hlt := hid.lt hroot
      obtain ⟨ha, hb, -⟩ := h.before hlt (by rw [hand.1]; decide) (by rw [hand.1]; decide)
      rcases List.mem_append.mp hu with hu | hu
      · exact ih _ (hid.operand (by omega) (.inr (.inl rfl))) u hu
      · exact ih _ (hid.operand (by omega) (.inl rfl)) u hu
    · obtain rfl := List.mem_singleton.mp hu
      exact hid

theorem inequality_operands (h : ctx.Typed) (hroot : root < ctx.nodes.length) {id : Nat}
    (hid : ctx.Reaches root id) (hineq : isInequality ctx id = true) :
    let e := (ctx.node id).a
    isNegation ctx id = true ∧ (ctx.node e).op = .eq ∧ ctx.Reaches root e ∧
      ctx.Reaches root (ctx.node e).a ∧ ctx.Reaches root (ctx.node e).b := by
  intro e
  obtain ⟨⟨hneg, hop⟩, -⟩ : (isNegation ctx id = true ∧ (ctx.node e).op = .eq) ∧ _ := by
    simpa [isInequality] using hineq
  have hlt := hid.lt hroot
  obtain ⟨hnot, -⟩ := isNegation_iff.mp hneg
  obtain ⟨ha, -, -⟩ := h.before hlt (by rw [hnot]; decide) (by rw [hnot]; decide)
  have he : ctx.Reaches root e := hid.operand (by omega) (.inl rfl)
  have hlte := he.lt hroot
  obtain ⟨hea, heb, -⟩ := h.before hlte (by rw [hop]; decide) (by rw [hop]; decide)
  exact ⟨hneg, hop, he, he.operand (by omega) (.inl rfl), he.operand (by omega) (.inr (.inl rfl))⟩

theorem Holds.differ (h : ctx.Typed) (hroot : root < ctx.nodes.length) {vars : List U64} {id : Nat}
    (hid : Holds ctx root vars id) (hineq : isInequality ctx id = true) :
    ctx.val vars (ctx.node (ctx.node id).a).a ≠ ctx.val vars (ctx.node (ctx.node id).a).b := by
  intro heq
  obtain ⟨hneg, hop, he, -, -⟩ := inequality_operands h hroot hid.reach hineq
  have hzero := (hid.negation h hroot hneg).1
  rw [h.val_op (he.lt hroot) (by rw [hop]; decide) (by rw [hop]; decide) vars] at hzero
  simp only [evalOp, hop, heq, beq_self_eq_true] at hzero
  exact absurd hzero (by decide)

theorem Reading.lowest {vars : List U64} (hr : Reading ctx root vars bits β) {u : Nat}
    (hu : Holds ctx root vars u) (hfits : Fits 1 (ctx.val vars u)) :
    litTrue β (bitAt (bits.getD u []) 0) = true := by
  have hlt : (ctx.val vars u).toNat < 2 := hfits
  have hne : (ctx.val vars u).toNat ≠ 0 := fun h0 => hu.val (BitVec.eq_of_toNat_eq h0)
  rw [hr.bit u hu.reach 0, getLsbD_cut, hu.width, BitVec.getLsbD,
    show (ctx.val vars u).toNat = 1 by omega]
  rfl

theorem returns_refuteInequality (h : ctx.Typed) (hroot : root < ctx.nodes.length) (hs : s.Gates)
    (hb : InRange ctx root bits s) (m : Nat) :
    Returns (refuteInequality ctx root bits m) s (fun r t => ∀ β vars, Models s.added β →
      Holds ctx root vars root → Reading ctx root vars bits β →
      (∃ β', Models t.added β' ∧ ∀ v < s.nVars, β' v = β v) ∧ (r = true → ¬ t.nVars ≤ 2 ^ 29)) := by
  have hreach := reaches_conjuncts h hroot (root + 1) root Relation.ReflTransGen.refl
  obtain ⟨hsplit, hdomain⟩ := splitInequality_spec ctx root
  unfold refuteInequality
  split
  · exact returns_pure hs (fun β vars hβ _ _ =>
      ⟨⟨β, hβ, fun _ _ => rfl⟩, fun hr => absurd hr (by decide)⟩)
  · rename_i e domain heq
    rw [heq] at hsplit hdomain
    obtain ⟨u, hu, hineq, rfl⟩ := hsplit e rfl
    obtain ⟨-, hop, he, hea, heb⟩ := inequality_operands h hroot (hreach u hu) hineq
    refine returns_bind (returns_assertLits _ hs (fun l hl => ?_)) (fun ok t ht _ hok => ?_)
    · obtain ⟨d, hd, rfl⟩ := List.mem_map.mp hl
      exact hb.range d (hreach d (hdomain d hd)) 0
    obtain ⟨hvars, hmodel⟩ := hok
    have htrue : ∀ β vars, Models s.added β → Holds ctx root vars root →
        Reading ctx root vars bits β → ok = true ∧ Models t.added β := by
      intro β vars hβ hroot' hr
      have hall := holds_conjuncts h hroot (root + 1) root hroot'
      refine hmodel β hβ (fun l hl => ?_)
      obtain ⟨d, hd, rfl⟩ := List.mem_map.mp hl
      have hd' := hall d (hdomain d hd)
      have hfits := h.fits (hd'.lt hroot) vars
      rw [hd'.width] at hfits
      exact hr.lowest hd' hfits
    split
    · refine (returns_refuteBits m _ ht (fun p hp => ?_)).mono
        (fun r v _ _ hv β vars hβ hroot' hr => ?_)
      · obtain ⟨i, -, rfl⟩ := List.mem_map.mp hp
        rw [hvars]
        exact ⟨hb.range _ hea i, hb.range _ heb i⟩
      · obtain ⟨-, hβt⟩ := htrue β vars hβ hroot' hr
        obtain ⟨β', hβ', hagree, hbits⟩ := hv β hβt
        refine ⟨⟨β', hβ', fun i hi => hagree i (by omega)⟩, fun hrt hle => ?_⟩
        -- All bits agree, so the words do.
        have hlt := he.lt hroot
        obtain ⟨hab, hbb, -⟩ := h.before hlt (by rw [hop]; decide) (by rw [hop]; decide)
        have hwidth := ((h.sorted _ hlt).pred (by rw [hop]; rfl)).2
        have hholds := holds_conjuncts h hroot (root + 1) root hroot' u hu
        have hfb : Fits (ctx.width (ctx.node (ctx.node u).a).b)
            (ctx.val vars (ctx.node (ctx.node u).a).b) := h.fits (by omega) vars
        have hra := hr.bit _ hea
        have hrb := hr.bit _ heb
        rw [hwidth] at hfb hrb
        refine hholds.differ h hroot hineq ((h.fits (by omega) vars).ext hfb
          (BitVec.eq_of_getLsbD_eq fun i hi => ?_))
        have := hbits hrt hle (bitAt (bits.getD (ctx.node (ctx.node u).a).a []) i,
          bitAt (bits.getD (ctx.node (ctx.node u).a).b []) i)
          (List.mem_map.mpr ⟨i, List.mem_range.mpr (by rw [hb.length _ hea]; exact hi), rfl⟩)
        rw [← hra i, ← hrb i]
        exact this
    · rename_i hnok
      refine returns_pure ht (fun β vars hβ hroot' hr => ?_)
      exact absurd (htrue β vars hβ hroot' hr).1 hnok

/-! ## The answer -/

/-- A node that some assignment makes non-zero is made non-zero by one that meets no flag
that the concrete evaluation misses. -/
def FlagsSeen (ctx : BVContext) (root : Nat) : Prop :=
  (∃ vars, evalConcrete ctx.nodes root vars ≠ 0) →
    ∃ vars, evalConcrete ctx.nodes root vars ≠ 0 ∧ NoMissedOverflow ctx root vars

/-- What the two answers promise, as long as there are not too many SAT variables. -/
structure Right (ctx : BVContext) (root : Nat) (r : SolveResult) (t : Solver D) : Prop where
  unsat : r = .unsat → t.nVars ≤ 2 ^ 29 → ∀ vars, evalConcrete ctx.nodes root vars = 0
  sat : ∀ model, r = .sat model → evalConcrete ctx.nodes root model ≠ 0

theorem right_abort : Right ctx root .abort t := ⟨nofun, nofun⟩

theorem right_unsat (h : ∀ vars, evalConcrete ctx.nodes root vars = 0) :
    Right ctx root .unsat t := ⟨fun _ _ => h, nofun⟩

theorem right_sat {model : List U64} (h : evalConcrete ctx.nodes root model ≠ 0) :
    Right ctx root (.sat model) t :=
  ⟨nofun, fun _ hr => by
    cases hr
    exact h⟩

theorem Blasted.inRange (hb : Blasted ctx root ctx.nodes.length bits t)
    (hroot : root < ctx.nodes.length) : InRange ctx root bits t := by
  obtain ⟨v, hval⟩ := hb.values (fun _ => false)
  refine ⟨fun id hid => ?_, fun id hid i => ?_⟩
  · exact (hval.operand id (hid.lt hroot) hid).word.length
  · exact ((hval.operand id (hid.lt hroot) hid).word.bit i).range

/-- An assignment under which no flag is missed has a model that reads its values. -/
theorem Blasted.reading (h : ctx.Typed) (hb : Blasted ctx root ctx.nodes.length bits t)
    (hroot : root < ctx.nodes.length) (hle : t.nVars ≤ 2 ^ 29) {vars : List U64}
    (hmiss : NoMissedOverflow ctx root vars) :
    ∃ β, Models t.added β ∧ Reading ctx root vars bits β := by
  obtain ⟨β, hβ, hreads⟩ := hb.model vars
  obtain ⟨v, hval⟩ := hb.values β
  refine ⟨β, hβ, ⟨fun id hid i => ?_⟩⟩
  have hword := (hval.operand id (hid.lt hroot) hid).word
  rw [(hword.bit i).value ⟨hle, hβ⟩, hval.concrete h hroot ⟨hle, hβ⟩ hreads hmiss id hid]

theorem Blasted.word (hb : Blasted ctx root ctx.nodes.length bits t)
    (hroot : root < ctx.nodes.length) :
    ∃ x : (Nat → Bool) → BitVec (ctx.width root), ∀ β, Word β t (bits.getD root []) (x β) := by
  choose v hval using hb.values
  refine ⟨fun β => cut (ctx.width root) (v β root), fun β => ?_⟩
  exact ((hval β).operand root hroot Relation.ReflTransGen.refl).word

theorem Reading.root_ne_zero (h : ctx.Typed) (hroot : root < ctx.nodes.length) {vars : List U64}
    (hr : Reading ctx root vars bits β) {x : BitVec (ctx.width root)}
    (hword : Word β s (bits.getD root []) x) (hβ : s.Model β) (hne : ctx.val vars root ≠ 0) :
    x.toNat ≠ 0 := by
  intro h0
  have hx : x = cut (ctx.width root) (ctx.val vars root) := BitVec.eq_of_getLsbD_eq fun i _ => by
    rw [← (hword.bit i).value hβ, hr.bit root Relation.ReflTransGen.refl i]
  refine hne (BitVec.eq_of_toNat_eq ?_)
  have hfits := h.fits hroot vars
  rw [hx, cut, BitVec.toNat_setWidth, Nat.mod_eq_of_lt hfits] at h0
  exact h0

/-- The shortcut keeps the models that make the node non-zero, and refutes none. -/
theorem returns_shortcut (h : ctx.Typed) (hroot : root < ctx.nodes.length) (hs : s.Gates)
    (hb : InRange ctx root bits s) (m : Nat) :
    Returns (if (ctx.node root).width = 1 then refuteInequality ctx root bits m else pure false) s
      (fun r t => ∀ β vars, Models s.added β → ctx.val vars root ≠ 0 →
        Reading ctx root vars bits β →
        (∃ β', Models t.added β' ∧ ∀ v < s.nVars, β' v = β v) ∧
          (r = true → ¬ t.nVars ≤ 2 ^ 29)) := by
  split
  · rename_i hw
    refine (returns_refuteInequality h hroot hs hb m).mono (fun r t _ _ hr β vars hβ hne hread => ?_)
    exact hr β vars hβ ⟨Relation.ReflTransGen.refl, hw, hne⟩ hread
  · refine returns_pure hs (fun β vars hβ _ _ => ?_)
    exact ⟨⟨β, hβ, fun _ _ => rfl⟩, fun hr => absurd hr (by decide)⟩

theorem ite_bind {c : Prop} [Decidable c] (p q : Circuit D α) (f : α → Circuit D γ) :
    (if c then p >>= f else q >>= f) = (if c then p else q) >>= f := by
  split <;> rfl

section

variable (h : ctx.Typed) (hroot : root < ctx.nodes.length)
include h hroot

theorem returns_decide (hs : s.Gates)
    (hb : Blasted ctx root ctx.nodes.length bits s) (hseen : FlagsSeen ctx root) (m : Nat)
    (strict : Bool) :
    Returns (do
      let refuted ←
        if (ctx.node root).width = 1 then refuteInequality ctx root bits m else pure false
      if refuted = true then pure .unsat else solveBlasted ctx root bits m strict) s
      (Right (D := D) ctx root) := by
  have hrange := hb.inRange hroot
  obtain ⟨x, hword⟩ := hb.word hroot
  show Returns (if _ then _ >>= _ else _ >>= _) s _
  rw [ite_bind]
  refine returns_bind (returns_shortcut h hroot hs hrange m) (fun r t ht hst hr => ?_)
  beta_reduce
  split
  · rename_i hrefuted
    refine returns_pure ht ⟨fun _ hle vars => ?_, nofun⟩
    by_contra hne
    have hles : s.nVars ≤ 2 ^ 29 := Nat.le_trans hst.nVars hle
    obtain ⟨vars, hne, hmiss⟩ := hseen ⟨vars, hne⟩
    obtain ⟨β, hβ, hread⟩ := hb.reading h hroot hles hmiss
    exact (hr β vars hβ hne hread).2 hrefuted hle
  · have hwordt : ∀ β, Word β t (bits.getD root []) (x β) := fun β =>
      ⟨(hword β).length, fun i => ⟨Nat.lt_of_lt_of_le ((hword β).bit i).range hst.nVars,
        fun hβ => ((hword β).bit i).value (hst.model hβ)⟩⟩
    refine (returns_solveBlasted ht hwordt m strict).mono (fun a u _ htu ha => ⟨?_, ha.2⟩)
    intro hunsat hle vars
    by_contra hne
    have hlet : t.nVars ≤ 2 ^ 29 := Nat.le_trans htu.nVars hle
    have hles : s.nVars ≤ 2 ^ 29 := Nat.le_trans hst.nVars hlet
    obtain ⟨vars, hne, hmiss⟩ := hseen ⟨vars, hne⟩
    obtain ⟨β, hβ, hread⟩ := hb.reading h hroot hles hmiss
    obtain ⟨β', hβ', hagree⟩ := (hr β vars hβ hne hread).1
    refine ha.1 hunsat hle β' hβ' (fun γ hγ hmodel => ?_)
    have hreadγ : Reading ctx root vars bits γ := hrange.reading hread (fun v hv => by
      rw [hγ v (Nat.lt_of_lt_of_le hv hst.nVars), hagree v hv])
    exact hreadγ.root_ne_zero h hroot (hwordt γ) ⟨hlet, hmodel⟩ hne

theorem satisfies_iff {model : List U64} :
    ctx.satisfies root model = true ↔ evalConcrete ctx.nodes root model ≠ 0 := by
  unfold satisfies
  rw [h.evaluateCone_eq hroot (by simp), bne_iff_ne]
  rfl

theorem returns_solveNonzeroImpl (hs : s.Gates)
    (hmodel : ∃ α, Models s.added α) (hseen : FlagsSeen ctx root) (m : Nat) (strict : Bool) :
    Returns (solveNonzeroImpl ctx root m strict) s (Right (D := D) ctx root) := by
  unfold solveNonzeroImpl
  dsimp only
  split
  · -- The node is a constant.
    rename_i hop
    have hfits : Fits (ctx.node root).width (ctx.node root).imm := by
      have := h.sorted root hroot
      rwa [BVNode.Sorted, hop] at this
    have hval : ∀ vars, evalConcrete ctx.nodes root vars = (ctx.node root).imm := fun vars => by
      rw [← hfits.and_widthMask (h.le root hroot), ← evalNode_const hop]
      exact h.val_node hroot vars
    split
    · rename_i hzero
      exact returns_pure hs (right_unsat (fun vars => (hval vars).trans hzero))
    · rename_i hne
      exact returns_pure hs (right_sat ((hval _).trans_ne hne))
  · split
    · rename_i hcon
      refine returns_pure hs (right_unsat (fun vars => ?_))
      by_contra hne
      have := not_contradicts h hroot ⟨Relation.ReflTransGen.refl, hcon.1, hne⟩
      exact absurd (this.symm.trans hcon.2.2) (by decide)
    · split
      · rename_i model hfound
        exact returns_pure hs (right_sat ((satisfies_iff h hroot).mp (List.find?_some hfound)))
      · refine returns_bind (runs_blastAll h hroot hs hmodel).returns (fun bits t ht _ hb => ?_)
        exact returns_decide h hroot ht hb.2 hseen m strict

theorem returns_solveNonzero (hs : s.Gates)
    (hmodel : ∃ α, Models s.added α) (hseen : FlagsSeen ctx root) (m : Nat) (strict : Bool) :
    Returns (solveNonzero ctx root m strict) s (Right (D := D) ctx root) := by
  refine returns_bind (returns_solveNonzeroImpl h hroot hs hmodel hseen m strict)
    (fun r t ht _ hr => ?_)
  split
  · exact returns_pure ht right_abort
  · exact returns_pure ht hr

end

/-! ## The solver on its own -/

theorem init_models (D : Doubles) : ∃ α, Models (init D).added α := by
  refine ⟨fun _ => false, fun c hc => ?_⟩
  obtain rfl := List.mem_singleton.mp (show c ∈ [[trueLit]] from hc)
  exact satisfies_singleton.mpr rfl

/-- The solver returns, and its answer is right: after `Unsat` no assignment makes the node
non-zero, and the assignment of `Sat` does. -/
theorem solveNonzero_answers (D : Doubles) (h : ctx.Typed) (hroot : root < ctx.nodes.length)
    (hseen : FlagsSeen ctx root) (maxConflicts : Nat) (strict : Bool) :
    ∃ r t, solveNonzero ctx root maxConflicts strict (init D) = some (r, t) ∧
      (r = .unsat → t.nVars ≤ 2 ^ 29 → ∀ vars, evalConcrete ctx.nodes root vars = 0) ∧
      ∀ model, r = .sat model → evalConcrete ctx.nodes root model ≠ 0 := by
  obtain ⟨r, t, hrun, -, -, hright⟩ :=
    returns_solveNonzero h hroot (init_gates D) (init_models D) hseen maxConflicts strict
  exact ⟨r, t, hrun, hright.unsat, hright.sat⟩

theorem flagsSeen_of_width (h : ctx.Typed) (hroot : root < ctx.nodes.length)
    (hw : ∀ id < ctx.nodes.length, (ctx.node id).op = .umulOvf ∨ (ctx.node id).op = .smulOvf →
      ctx.width (ctx.node id).a ≤ 32 ∨ ctx.width (ctx.node id).a = 64) : FlagsSeen ctx root := by
  rintro ⟨vars, hne⟩
  refine ⟨vars, hne, fun id hid => ?_⟩
  have hlt := hid.lt hroot
  by_cases hop : (ctx.node id).op = .umulOvf ∨ (ctx.node id).op = .smulOvf
  · have hpos : 0 < ctx.width (ctx.node id).a := by
      have hno : (ctx.node id).op ≠ .const ∧ (ctx.node id).op ≠ .var := by
        rcases hop with hop | hop <;> rw [hop] <;> decide
      have := (h.before hlt hno.1 hno.2).1
      exact h.pos _ (by omega)
    exact missesOverflow_eq_false hpos (hw id hlt hop) _ _ _
  · unfold missesOverflow
    split
    · exact absurd (.inl ‹_›) hop
    · exact absurd (.inr ‹_›) hop
    · rfl

/-- `x < y` and `y < x` -/
def bothWays : List MakeOp :=
  [.var "x" 2 false, .var "y" 2 false, .call (.binary .ult 1 2 0), .call (.binary .ult 2 1 0),
    .call (.binary .and 3 4 0)]

theorem solveNonzero_answers_bothWays :
    ∃ r, runOps (fun ctx op => op.Legal ctx ∧ op.missesMagic ctx = false) 30 bothWays []
        BVContext.init = some r ∧ ∀ vars, evalConcrete r.2.nodes 5 vars = 0 := by
  have hrun : (runOps (fun ctx op => op.Legal ctx ∧ op.missesMagic ctx = false) 30 bothWays []
      BVContext.init).map (fun r => (r.2.nodes.map (fun n => n.op),
        (solveNonzero r.2 5 100 true (init ratDoubles)).map
          (fun a => (a.1, decide (a.2.nVars ≤ 2 ^ 29))))) =
      some ([.const, .var, .var, .ult, .ult, .and], some (.unsat, true)) := by decide +kernel
  obtain ⟨r, hr, heq⟩ := Option.map_eq_some_iff.mp hrun
  simp only [Prod.mk.injEq] at heq
  obtain ⟨hops, hsolve⟩ := heq
  refine ⟨r, hr, ?_⟩
  have htyped := (Run.init.runOps _ hr).invariant.1.typed
  have hlen : r.2.nodes.length = 6 := by simpa using congrArg List.length hops
  have hseen : FlagsSeen r.2 5 := by
    refine flagsSeen_of_width htyped (by omega) (fun id hid hop => ?_)
    have hmem : (r.2.node id).op ∈ r.2.nodes.map (fun n => n.op) :=
      List.mem_map_of_mem (List.mem_of_getElem? (getElem?_node hid))
    rw [hops] at hmem
    rcases hop with hop | hop <;> rw [hop] at hmem <;> exact absurd hmem (by decide)
  obtain ⟨a, t, hrun, hunsat, -⟩ :=
    solveNonzero_answers ratDoubles htyped (by omega) hseen 100 true
  rw [hrun] at hsolve
  simp only [Option.map_some, Option.some.injEq, Prod.mk.injEq, decide_eq_true_eq] at hsolve
  exact hunsat hsolve.1 hsolve.2

/-- With `x` of 9 bits: a word of 33 bits, its top bit the one of `x`, times 2 does not
overflow, and `x` is `0x15A`. The evaluation does not see that the product has 34 bits. -/
def missedProduct : List MakeOp :=
  [.var "x" 9 false, .call (.extract 1 8 8), .const 0 9, .const 0 10, .const 0 13,
    .call (.concat 2 3), .call (.concat 6 4), .call (.concat 7 5), .const 2 33,
    .call (.binary .umulOvf 8 9 0), .call (.unary .not 10 0), .call (.binary .and 2 11 0),
    .const 0x15A 9, .call (.binary .eq 1 13 0), .call (.binary .and 12 14 0)]

theorem solveNonzero_missedProduct :
    ¬ ∀ (D : Doubles) log ctx,
      Run (fun ctx op => op.Legal ctx ∧ op.missesMagic ctx = false) log ctx →
      ∀ root < ctx.nodes.length, ∀ maxConflicts strict r t,
        solveNonzero ctx root maxConflicts strict (init D) = some (r, t) → r = .unsat →
        t.nVars ≤ 2 ^ 29 → ∀ vars, evalConcrete ctx.nodes root vars = 0 := by
  intro hall
  have hrun : (runOps (fun ctx op => op.Legal ctx ∧ op.missesMagic ctx = false) 30 missedProduct
      [] BVContext.init).map (fun r => (decide (15 < r.2.nodes.length),
        evalConcrete r.2.nodes 15 [0x15A],
        (solveNonzero r.2 15 100000 true (init ratDoubles)).map
          (fun a => (a.1, decide (a.2.nVars ≤ 2 ^ 29))))) =
      some (true, 1, some (.unsat, true)) := by decide +kernel
  obtain ⟨r, hr, heq⟩ := Option.map_eq_some_iff.mp hrun
  simp only [Prod.mk.injEq, decide_eq_true_eq] at heq
  obtain ⟨hlt, hone, hsolve⟩ := heq
  obtain ⟨⟨a, t⟩, ha, hat⟩ := Option.map_eq_some_iff.mp hsolve
  simp only [Prod.mk.injEq, decide_eq_true_eq] at hat
  have hzero := hall ratDoubles _ _ (Run.init.runOps _ hr) 15 hlt 100000 true a t ha hat.1 hat.2
    [0x15A]
  exact absurd (hone.symm.trans hzero) (by decide)

end Brass.Verify.Bv
