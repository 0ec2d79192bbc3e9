import Brass.Mir.DominatorOrder

/-!
# The iteration that finds the immediate dominators

A pass goes over the blocks in reverse postorder and gives every block the last ancestor that
its processed predecessors have in common (`Meet`). During a pass a strict dominator of a
block dominates its immediate dominator, and whatever is an ancestor of all processed
predecessors of a block is an ancestor of the block (`Chained`). So a new immediate dominator
is an ancestor of the old one, and its number is smaller: the passes come to an end. When a
pass changes nothing, the ancestors of a block are its dominators.
-/

namespace Brass.Mir.BlockGraph

open Function (update update_eq_self update_of_ne update_self)

open Brass.Util Brass.Util.Dominance List

variable {G : BlockGraph} {post : List Nat} {num : Nat → Nat} {idom : Nat → Option Nat}
  {a b c d e p r u v w x y i n bound fuel climbFuel : Nat}

/-- `a` is on the chain of immediate dominators that starts at `x`. -/
abbrev Anc (idom : Nat → Option Nat) (a x : Nat) : Prop :=
  Relation.ReflTransGen (fun x y => idom x = some y) x a

abbrev Dom (G : BlockGraph) : Nat → Nat → Prop := Dominates G.succs 0

/-- The chains go down to the entry. -/
structure Descending (G : BlockGraph) (num : Nat → Nat) (idom : Nat → Option Nat) : Prop where
  entry : idom 0 = some 0
  lt : ∀ x d, idom x = some d → x < G.size ∧ d < G.size
  smaller : ∀ x d, x ≠ 0 → idom x = some d → num d < num x
  processed : ∀ x d, idom x = some d → (idom d).isSome
  dominated : ∀ x d, x ≠ 0 → idom x = some d → ∀ e, e ≠ x → Dom G e x → Dom G e d

/-! ## Chains -/

theorem Descending.num_le (h : Descending G num idom) (hax : Anc idom a x) : num a ≤ num x := by
  induction hax with
  | refl => exact Nat.le_refl _
  | @tail y a _ hya ih =>
    by_cases hy : y = 0
    · subst hy
      rw [h.entry, Option.some.injEq] at hya
      exact hya ▸ ih
    · exact Nat.le_trans (Nat.le_of_lt (h.smaller y a hy hya)) ih

theorem Descending.anc_processed (h : Descending G num idom) (hax : Anc idom a x)
    (hx : (idom x).isSome) : (idom a).isSome := by
  induction hax with
  | refl => exact hx
  | tail _ hya _ => exact h.processed _ _ hya

theorem Descending.lt_of_processed (h : Descending G num idom) (hx : (idom x).isSome) :
    x < G.size := by
  obtain ⟨d, hd⟩ := Option.isSome_iff_exists.mp hx
  exact (h.lt x d hd).1

/-- Of two blocks on one chain, the one with the smaller number is on the chain of the other. -/
theorem Descending.linear (h : Descending G num idom) (hnum : IsNumbering G post num)
    (hx : (idom x).isSome) (hax : Anc idom a x) (hbx : Anc idom b x) (hab : num a ≤ num b) :
    Anc idom a b := by
  have hunique : Relator.RightUnique fun x y => idom x = some y :=
    fun x y z hy hz => Option.some.inj (hy.symm.trans hz)
  rcases Relation.ReflTransGen.total_of_right_unique hunique hax hbx with hba | hab'
  · have heq : num a = num b := Nat.le_antisymm hab (h.num_le hba)
    rw [hnum.inj (h.lt_of_processed (h.anc_processed hax hx))
      (h.lt_of_processed (h.anc_processed hbx hx)) heq]
  · exact hab'

theorem anc_step (hax : Anc idom a x) (hne : a ≠ x) (hd : idom x = some d) : Anc idom a d := by
  rcases Relation.ReflTransGen.cases_head hax with rfl | ⟨y, hy, hay⟩
  · exact absurd rfl hne
  · rw [hd, Option.some.injEq] at hy
    exact hy ▸ hay

/-! ## What two blocks have in common -/

/-- `r` is the last of the blocks that are on all chains from `S`. -/
structure Meet (G : BlockGraph) (idom : Nat → Option Nat) (S : Nat → Prop) (r : Nat) : Prop where
  below : ∀ x, S x → Anc idom r x
  greatest : ∀ c, (∀ x, S x → Anc idom c x) → Anc idom c r
  dominated : ∀ e, (∀ x, S x → Dom G e x) → Dom G e r

theorem Meet.single (x : Nat) : Meet G idom (· = x) x where
  below := fun _ hy => hy ▸ .refl
  greatest := fun _ hc => hc x rfl
  dominated := fun _ he => he x rfl

theorem Meet.congr {S T : Nat → Prop} (h : Meet G idom S r) (hST : ∀ x, S x ↔ T x) :
    Meet G idom T r := by
  have : S = T := funext fun x => propext (hST x)
  exact this ▸ h

theorem Meet.join {S : Nat → Prop} (h : Meet G idom S x)
    (hr : Meet G idom (fun y => y = p ∨ y = x) r) : Meet G idom (fun y => S y ∨ y = p) r where
  below := fun y hy => by
    rcases hy with hy | rfl
    · exact (h.below y hy).trans (hr.below x (.inr rfl))
    · exact hr.below y (.inl rfl)
  greatest := fun c hc => hr.greatest c fun y hy => by
    rcases hy with rfl | rfl
    · exact hc y (.inr rfl)
    · exact h.greatest c fun z hz => hc z (.inl hz)
  dominated := fun e he => hr.dominated e fun y hy => by
    rcases hy with rfl | rfl
    · exact he y (.inr rfl)
    · exact h.dominated e fun z hz => he z (.inl hz)

theorem climb_spec (h : Descending G num idom) (hx : (idom x).isSome)
    (hbound : num 0 ≤ bound) (hfuel : num x < fuel) :
    ∃ r, climb num idom bound fuel x = some r ∧ num r ≤ bound ∧ Anc idom r x ∧
      (∀ c, Anc idom c x → num c ≤ bound → Anc idom c r) ∧
      ∀ e, Dom G e x → num e ≤ bound → Dom G e r := by
  induction fuel generalizing x with
  | zero => omega
  | succ fuel ih =>
    by_cases hlt : bound < num x
    · obtain ⟨d, hd⟩ := Option.isSome_iff_exists.mp hx
      have hx0 : x ≠ 0 := by
        rintro rfl
        omega
      have hless := h.smaller x d hx0 hd
      obtain ⟨r, hr, hle, hanc, hgreatest, hdom⟩ := ih (h.processed x d hd) (by omega)
      refine ⟨r, ?_, hle, .head hd hanc, fun c hc hcb => ?_, fun e he heb => ?_⟩
      · rw [climb, if_pos hlt, hd]
        exact hr
      · refine hgreatest c (anc_step hc ?_ hd) hcb
        rintro rfl
        omega
      · refine hdom e (h.dominated x d hx0 hd e ?_ he) heb
        rintro rfl
        omega
    · exact ⟨x, by rw [climb, if_neg hlt], by omega, .refl, fun c hc _ => hc, fun e he _ => he⟩

section

variable (h : Descending G num idom) (hnum : IsNumbering G post num)
include h hnum

theorem intersect_spec (hx : (idom x).isSome) (hy : (idom y).isSome) (hclimb : G.size ≤ climbFuel)
    (hfuel : num x + num y < fuel) :
    ∃ r, intersect num idom climbFuel fuel x y = some r ∧
      Meet G idom (fun z => z = x ∨ z = y) r := by
  induction fuel generalizing x y with
  | zero => omega
  | succ fuel ih =>
    by_cases heq : x = y
    · subst heq
      exact ⟨x, by rw [intersect, if_pos rfl], (Meet.single x).congr fun z => (or_self_iff).symm⟩
    · have hxlt := h.lt_of_processed hx
      have hylt := h.lt_of_processed hy
      have hne : num x ≠ num y := fun hxy => heq (hnum.inj hxlt hylt hxy)
      have hxnum := hnum.num_lt x hxlt
      have hynum := hnum.num_lt y hylt
      obtain ⟨x', hx', hxle, hxanc, hxgreatest, hxdom⟩ :=
        climb_spec h hx (hnum.entry_le y hylt) (show num x < climbFuel by omega)
      have hx's := h.anc_processed hxanc hx
      have hx'lt := h.lt_of_processed hx's
      obtain ⟨y', hy', hyle, hyanc, hygreatest, hydom⟩ :=
        climb_spec h hy (hnum.entry_le x' hx'lt) (show num y < climbFuel by omega)
      have hy's := h.anc_processed hyanc hy
      have hxdown := h.num_le hxanc
      have hydown := h.num_le hyanc
      -- One of the two fingers has moved.
      have hless : num x' + num y' < num x + num y := by omega
      obtain ⟨r, hr, hmeet⟩ := ih hx's hy's (by omega)
      refine ⟨r, ?_, ?_⟩
      · rw [intersect, if_neg heq, hx']
        simp only [Option.bind_eq_bind, Option.bind_some]
        rw [hy']
        exact hr
      · have hcommon : ∀ c, (∀ z, z = x ∨ z = y → Anc idom c z) → Anc idom c x' ∧ Anc idom c y' := by
          intro c hc
          have hcx := hxgreatest c (hc x (.inl rfl)) (h.num_le (hc y (.inr rfl)))
          exact ⟨hcx, hygreatest c (hc y (.inr rfl)) (h.num_le hcx)⟩
        have hdoms : ∀ e, (∀ z, z = x ∨ z = y → Dom G e z) → Dom G e x' ∧ Dom G e y' := by
          intro e he
          have hex := hxdom e (he x (.inl rfl)) (hnum.numbers.le (he y (.inr rfl)) hylt)
          exact ⟨hex, hydom e (he y (.inr rfl)) (hnum.numbers.le hex hx'lt)⟩
        refine ⟨fun z hz => ?_, fun c hc => hmeet.greatest c fun z hz => ?_,
          fun e he => hmeet.dominated e fun z hz => ?_⟩
        · rcases hz with rfl | rfl
          · exact hxanc.trans (hmeet.below x' (.inl rfl))
          · exact hyanc.trans (hmeet.below y' (.inr rfl))
        · rcases hz with rfl | rfl
          · exact (hcommon c hc).1
          · exact (hcommon c hc).2
        · rcases hz with rfl | rfl
          · exact (hdoms e he).1
          · exact (hdoms e he).2

theorem newIdom_fold
    (hfuel : 2 * G.size ≤ fuel) {ps : List Nat} {S : Nat → Prop} (hmeet : Meet G idom S r)
    (hr : (idom r).isSome) :
    ∃ d, ps.foldlM (fun newIdom p =>
        if p ≠ newIdom ∧ (idom p).isSome then intersect num idom fuel fuel p newIdom
        else some newIdom) r = some d ∧ (idom d).isSome ∧
      Meet G idom (fun x => S x ∨ x ∈ ps ∧ (idom x).isSome) d := by
  induction ps generalizing r S with
  | nil =>
    refine ⟨r, rfl, hr, hmeet.congr fun x => ?_⟩
    simp
  | cons p ps ih =>
    have hsplit : ∀ x, ((S x ∨ x = p ∧ (idom p).isSome) ∨ x ∈ ps ∧ (idom x).isSome) ↔
        S x ∨ x ∈ p :: ps ∧ (idom x).isSome := by
      intro x
      rw [mem_cons, or_and_right, or_assoc]
      refine or_congr_right (or_congr_left (and_congr_right ?_))
      rintro rfl
      exact Iff.rfl
    rw [foldlM_cons]
    by_cases hp : (idom p).isSome
    · have hone : ∃ r', (if p ≠ r ∧ (idom p).isSome then intersect num idom fuel fuel p r
          else some r) = some r' ∧ (idom r').isSome ∧ Meet G idom (fun x => S x ∨ x = p) r' := by
        by_cases hpr : p = r
        · subst hpr
          refine ⟨p, if_neg fun hne => hne.1 rfl, hr, hmeet.join ?_⟩
          exact (Meet.single p).congr fun z => (or_self_iff).symm
        · have hplt := hnum.num_lt p (h.lt_of_processed hp)
          have hrlt := hnum.num_lt r (h.lt_of_processed hr)
          obtain ⟨r', hr', hmeet'⟩ := @intersect_spec G post num idom p r fuel fuel h hnum hp hr
            (by omega) (by omega)
          refine ⟨r', by rw [if_pos ⟨hpr, hp⟩, hr'], ?_, hmeet.join hmeet'⟩
          exact h.anc_processed (hmeet'.below p (.inl rfl)) hp
      obtain ⟨r', hr', hr's, hmeet'⟩ := hone
      rw [hr']
      obtain ⟨d, hd, hds, hmeetd⟩ := ih hmeet' hr's
      refine ⟨d, hd, hds, hmeetd.congr fun x => ?_⟩
      rw [← hsplit]
      simp only [hp, and_true]
    · rw [if_neg fun hne => hp hne.2]
      obtain ⟨d, hd, hds, hmeetd⟩ := ih hmeet hr
      refine ⟨d, hd, hds, hmeetd.congr fun x => ?_⟩
      rw [← hsplit]
      constructor
      · rintro (hx | hx)
        · exact .inl (.inl hx)
        · exact .inr hx
      · rintro ((hx | hx) | hx)
        · exact .inl hx
        · exact absurd hx.2 hp
        · exact .inr hx

theorem newIdom_spec (hfuel : 2 * G.size ≤ fuel) (hp : p ∈ G.preds b) (hps : (idom p).isSome) :
    ∃ d, newIdom G num fuel idom b = some (some d) ∧ (idom d).isSome ∧
      Meet G idom (fun x => x ∈ G.preds b ∧ (idom x).isSome) d := by
  cases hfind : (G.preds b).find? (fun p => (idom p).isSome) with
  | none => exact absurd hps (find?_eq_none.mp hfind p hp)
  | some first =>
    have hfirst : (idom first).isSome := find?_some (p := fun p => (idom p).isSome) hfind
    obtain ⟨d, hd, hds, hmeet⟩ := @newIdom_fold G post num idom first fuel h hnum hfuel
      (G.preds b) (· = first) (Meet.single first) hfirst
    refine ⟨d, ?_, hds, hmeet.congr fun x => ⟨?_, .inr⟩⟩
    · unfold newIdom
      rw [hfind]
      simp only [hd]
      rfl
    · rintro (rfl | hx)
      · exact ⟨mem_of_find?_eq_some hfind, hfirst⟩
      · exact hx

end

/-! ## One block of a pass -/

structure Chained (G : BlockGraph) (num : Nat → Nat) (idom : Nat → Option Nat) : Prop
    extends Descending G num idom where
  common : ∀ b d, b ≠ 0 → idom b = some d → ∀ c,
    (∀ p ∈ G.preds b, (idom p).isSome → Anc idom c p) → Anc idom c b

/-- In the middle of a pass: the blocks with numbers below `i` are done. -/
structure Passing (G : BlockGraph) (num : Nat → Nat) (i : Nat) (idom : Nat → Option Nat) : Prop
    extends Chained G num idom where
  filled : ∀ x, x < G.size → num x < i → (idom x).isSome
  closed : ∀ b p, (idom b).isSome → p < G.size → num p < num b → (idom p).isSome
  parents : ∀ b d, b ≠ 0 → idom b = some d → num b < i ∨ i ≤ num d →
    ∀ p ∈ G.preds b, num p < num b → Anc idom d p

/-- What is known of `w` and of its new immediate dominator `d`. -/
structure Renewed (G : BlockGraph) (num : Nat → Nat) (idom : Nat → Option Nat) (w d : Nat) :
    Prop where
  ne : w ≠ 0
  lt : w < G.size
  processed : (idom d).isSome
  smaller : num d < num w
  meet : Meet G idom (fun x => x ∈ G.preds w ∧ (idom x).isSome) d

/-- A chain that does not come to `w`, or ends before it, stays. -/
theorem Descending.anc_update (h : Descending G num idom) (hw : w ≠ 0) (hcx : Anc idom c x)
    (hor : ¬ Anc idom w x ∨ num w ≤ num c) : Anc (update idom w (some d)) c x := by
  induction hcx using Relation.ReflTransGen.head_induction_on with
  | refl => exact .refl
  | @head x y hxy hyc ih =>
    have hxw : x ≠ w := by
      rintro rfl
      rcases hor with hnot | hle
      · exact hnot .refl
      · have := h.smaller x y hw hxy
        have := h.num_le hyc
        omega
    refine .head (by rw [update_of_ne hxw, hxy]) (ih (hor.imp_left fun hnot hwy => ?_))
    exact hnot (.head hxy hwy)

theorem Chained.renewed_above (h : Chained G num idom) (hwd : Renewed G num idom w d)
    (hold : idom w = some e) : Anc idom d e := by
  have hdw : Anc idom d w := h.common w e hwd.ne hold d fun p hp hps => hwd.meet.below p ⟨hp, hps⟩
  refine anc_step hdw ?_ hold
  rintro rfl
  exact Nat.lt_irrefl _ hwd.smaller

theorem Chained.anc_of_update (h : Chained G num idom) (hwd : Renewed G num idom w d)
    (hx : (idom x).isSome) (hcx : Anc (update idom w (some d)) c x) : Anc idom c x := by
  induction hcx using Relation.ReflTransGen.head_induction_on with
  | refl => exact .refl
  | @head x y hxy _ ih =>
    by_cases hxw : x = w
    · subst hxw
      rw [update_self, Option.some.injEq] at hxy
      subst hxy
      obtain ⟨e, he⟩ := Option.isSome_iff_exists.mp hx
      exact .head he ((h.renewed_above hwd he).trans (ih hwd.processed))
    · rw [update_of_ne hxw] at hxy
      exact .head hxy (ih (h.processed x y hxy))

theorem update_cases (hxy : update idom w (some d) x = some y) :
    x = w ∧ y = d ∨ x ≠ w ∧ idom x = some y := by
  by_cases hxw : x = w
  · subst hxw
    rw [update_self, Option.some.injEq] at hxy
    exact .inl ⟨rfl, hxy.symm⟩
  · rw [update_of_ne hxw] at hxy
    exact .inr ⟨hxw, hxy⟩

theorem update_isSome_iff : (update idom w (some d) x).isSome ↔ x = w ∨ (idom x).isSome := by
  by_cases hxw : x = w
  · rw [hxw, update_self]
    exact iff_of_true rfl (.inl rfl)
  · rw [update_of_ne hxw]
    exact ⟨.inr, fun hx => hx.resolve_left hxw⟩

theorem Descending.update (h : Descending G num idom) (hwd : Renewed G num idom w d) :
    Descending G num (update idom w (some d)) := by
  refine ⟨?_, fun x y hxy => ?_, fun x y hx0 hxy => ?_, fun x y hxy => ?_,
    fun x y hx0 hxy e hne he => ?_⟩
  · rw [update_of_ne hwd.ne.symm, h.entry]
  · rcases update_cases hxy with ⟨rfl, rfl⟩ | ⟨-, hxy⟩
    · exact ⟨hwd.lt, h.lt_of_processed hwd.processed⟩
    · exact h.lt x y hxy
  · rcases update_cases hxy with ⟨rfl, rfl⟩ | ⟨-, hxy⟩
    · exact hwd.smaller
    · exact h.smaller x y hx0 hxy
  · rcases update_cases hxy with ⟨rfl, rfl⟩ | ⟨-, hxy⟩
    · exact update_isSome_iff.mpr (.inr hwd.processed)
    · exact update_isSome_iff.mpr (.inr (h.processed x y hxy))
  · rcases update_cases hxy with ⟨rfl, rfl⟩ | ⟨-, hxy⟩
    · refine hwd.meet.dominated e fun p hp => ?_
      exact he.before hne ((G.mem_preds p x).mp hp.1)
    · exact h.dominated x y hx0 hxy e hne he

/-- A block after `w` whose chain comes to `w` keeps what is above: a predecessor with a smaller
number has `w` on its chain as well. -/
theorem Passing.update_common (h : Passing G num (num w) idom) (hnum : IsNumbering G post num)
    (hwd : Renewed G num idom w d) (hb : b ≠ 0) (hbe : idom b = some e) (hne : b ≠ w)
    (hwb : Anc idom w b)
    (hc : ∀ p ∈ G.preds b, (update idom w (some d) p).isSome →
      Anc (update idom w (some d)) c p) (hcw : num c ≤ num w) :
    Anc (update idom w (some d)) c b := by
  have hwe : Anc idom w e := anc_step hwb hne.symm hbe
  have hblt := (h.lt b e hbe).1
  obtain ⟨p, hplt, hpb, hpless⟩ := hnum.numbers b hblt hb
  have hpmem := (G.mem_preds p b).mpr hpb
  have hps : (idom p).isSome := h.closed b p (by rw [hbe]; rfl) hplt hpless
  have hep : Anc idom e p := h.parents b e hb hbe (.inr (h.num_le hwe)) p hpmem hpless
  have hps' := (@update_isSome_iff idom d w p).mpr (.inr hps)
  have hwp := h.anc_update (d := d) hwd.ne (hep.trans hwe) (.inr (Nat.le_refl _))
  have hcw' := (h.toDescending.update hwd).linear hnum hps' (hc p hpmem hps') hwp hcw
  exact (h.anc_update hwd.ne hwb (.inr (Nat.le_refl _))).trans hcw'

theorem Passing.update (h : Passing G num (num w) idom) (hnum : IsNumbering G post num)
    (hwd : Renewed G num idom w d) :
    Passing G num (num w + 1) (update idom w (some d)) := by
  have hdesc := h.toDescending.update hwd
  have hlow : ∀ x, num x < num w → ¬ Anc idom w x := fun x hx hwx => by
    have := h.num_le hwx
    omega
  refine ⟨⟨hdesc, fun b y hb hby c hc => ?_⟩, fun x hx hxi => ?_, fun b p hbs hp hless => ?_,
    fun b y hb hby hor p hp hless => ?_⟩
  · have hold : ∀ p ∈ G.preds b, (idom p).isSome → Anc idom c p := fun p hp hps =>
      h.anc_of_update hwd hps (hc p hp (update_isSome_iff.mpr (.inr hps)))
    rcases update_cases hby with ⟨rfl, rfl⟩ | ⟨hbw, hby'⟩
    · have hcy : Anc idom c y := hwd.meet.greatest c fun p hp => hold p hp.1 hp.2
      exact .head (update_self ..) (h.anc_update hwd.ne hcy (.inl (hlow y hwd.smaller)))
    · have hcb := h.common b y hb hby' c hold
      by_cases hle : num w ≤ num c
      · exact h.anc_update hwd.ne hcb (.inr hle)
      · by_cases hwb : Anc idom w b
        · exact h.update_common hnum hwd hb hby' hbw hwb hc (by omega)
        · exact h.anc_update hwd.ne hcb (.inl hwb)
  · rw [update_isSome_iff]
    by_cases hxw : num x < num w
    · exact .inr (h.filled x hx hxw)
    · exact .inl (hnum.inj hx hwd.lt (by omega))
  · rw [update_isSome_iff] at hbs ⊢
    rcases hbs with rfl | hbs
    · exact .inr (h.filled p hp hless)
    · exact .inr (h.closed b p hbs hp hless)
  · have hpsucc := (G.mem_preds p b).mp hp
    have hplt := (G.succs_lt p b hpsucc).1
    rcases update_cases hby with ⟨rfl, rfl⟩ | ⟨hbw, hby'⟩
    · have hyp : Anc idom y p := hwd.meet.below p ⟨hp, h.filled p hplt hless⟩
      exact h.anc_update hwd.ne hyp (.inl (hlow p hless))
    · have hblt := (h.lt b y hby').1
      have hbne : num b ≠ num w := fun heq => hbw (hnum.inj hblt hwd.lt heq)
      rcases hor with hbi | hyi
      · have hyp := h.parents b y hb hby' (.inl (by omega)) p hp hless
        exact h.anc_update hwd.ne hyp (.inl (hlow p (by omega)))
      · have hyp := h.parents b y hb hby' (.inr (by omega)) p hp hless
        exact h.anc_update hwd.ne hyp (.inr (by omega))

theorem Passing.raise (h : Passing G num i idom) (hin : i ≤ n)
    (hgap : ∀ x, x < G.size → num x < n → num x < i) : Passing G num n idom where
  toChained := h.toChained
  filled := fun x hx hxn => h.filled x hx (hgap x hx hxn)
  closed := h.closed
  parents := fun b y hb hby hor => h.parents b y hb hby
    (hor.imp (hgap b (h.lt b y hby).1) hin.trans)

theorem Passing.entryDone (h : Passing G num (num 0) idom) (hnum : IsNumbering G post num) :
    Passing G num (num 0 + 1) idom where
  toChained := h.toChained
  filled := fun x hx hless => by
    have hle := hnum.entry_le x hx
    rw [hnum.inj hx G.pos (by omega), h.entry]
    rfl
  closed := h.closed
  parents := fun b y hb hby hor => h.parents b y hb hby (by
    have hblt := (h.lt b y hby).1
    have hne : num b ≠ num 0 := fun heq => hb (hnum.inj hblt G.pos heq)
    omega)

theorem Passing.restart (h : Passing G num i idom) (hall : ∀ x, x < G.size → num x < i) :
    Passing G num 0 idom where
  toChained := h.toChained
  filled := fun _ _ hx => absurd hx (Nat.not_lt_zero _)
  closed := h.closed
  parents := fun b y hb hby _ => h.parents b y hb hby (.inl (hall b (h.lt b y hby).1))

theorem passing_init (hnum : IsNumbering G post num) : Passing G num 0 initIdom := by
  have hcases : ∀ x y, initIdom x = some y → x = 0 ∧ y = 0 := by
    intro x y hxy
    by_cases hx : x = 0
    · subst hx
      rw [initIdom, update_self, Option.some.injEq] at hxy
      exact ⟨rfl, hxy.symm⟩
    · rw [initIdom, update_of_ne hx] at hxy
      cases hxy
  refine ⟨⟨⟨rfl, fun x y hxy => ?_, fun x y hx hxy => ?_, fun x y hxy => ?_,
    fun x y hx hxy => ?_⟩, fun b y hb hby => ?_⟩, fun x _ hx => ?_, fun b p hbs hp hless => ?_,
    fun b y hb hby => ?_⟩
  · obtain ⟨rfl, rfl⟩ := hcases x y hxy
    exact ⟨G.pos, G.pos⟩
  · exact absurd (hcases x y hxy).1 hx
  · obtain ⟨rfl, rfl⟩ := hcases x y hxy
    rfl
  · exact absurd (hcases x y hxy).1 hx
  · exact absurd (hcases b y hby).1 hb
  · exact absurd hx (Nat.not_lt_zero _)
  · obtain ⟨y, hby⟩ := Option.isSome_iff_exists.mp hbs
    have := hnum.entry_le p hp
    rw [(hcases b y hby).1] at hless
    omega
  · exact absurd (hcases b y hby).1 hb

/-! ## Passes -/

/-- How far the immediate dominators are from the entry, all together. -/
def height (G : BlockGraph) (num : Nat → Nat) (idom : Nat → Option Nat) : Nat :=
  ∑ v ∈ Finset.range G.size, ((idom v).map num).getD G.size

theorem height_update (hlt : w < G.size) (hless : num d < ((idom w).map num).getD G.size) :
    height G num (update idom w (some d)) < height G num idom := by
  refine Finset.sum_lt_sum (fun v _ => ?_) ⟨w, Finset.mem_range.mpr hlt, ?_⟩
  · by_cases hv : v = w
    · subst hv
      rw [update_self]
      exact Nat.le_of_lt hless
    · rw [update_of_ne hv]
  · rw [update_self]
    exact hless

/-- The immediate dominator of `b` is what its predecessors have in common. -/
def Fixed (G : BlockGraph) (idom : Nat → Option Nat) (b : Nat) : Prop :=
  ∃ d, idom b = some d ∧ ∀ p ∈ G.preds b, (idom p).isSome → Anc idom d p

/-- What a part of a pass does: either something changes, and the height falls, or the blocks of
the part are fixed. -/
structure PassSpec (G : BlockGraph) (num : Nat → Nat) (ws : List Nat)
    (s s' : (Nat → Option Nat) × Bool) : Prop where
  changed : s'.2 = true → s.2 = true ∨ height G num s'.1 < height G num s.1
  height_le : height G num s'.1 ≤ height G num s.1
  unchanged : s'.2 = false → s.2 = false ∧ s'.1 = s.1 ∧ ∀ b ∈ ws, b ≠ 0 → Fixed G s.1 b

theorem PassSpec.trans {s s' s'' : (Nat → Option Nat) × Bool} {ws : List Nat}
    (h : PassSpec G num [w] s s') (h' : PassSpec G num ws s' s'') :
    PassSpec G num (w :: ws) s s'' := by
  refine ⟨fun hs => ?_, h'.height_le.trans h.height_le, fun hs => ?_⟩
  · rcases h'.changed hs with hs' | hless
    · exact (h.changed hs').imp_right fun hless => h'.height_le.trans_lt hless
    · exact .inr (hless.trans_le h.height_le)
  · obtain ⟨hs', heq', hfix'⟩ := h'.unchanged hs
    obtain ⟨hs, heq, hfix⟩ := h.unchanged hs'
    refine ⟨hs, heq'.trans heq, fun b hb hb0 => ?_⟩
    rcases mem_cons.mp hb with rfl | hb
    · exact hfix b mem_cons_self hb0
    · exact heq ▸ hfix' b hb hb0

theorem processBlock_spec (h : Passing G num (num w) idom) (hnum : IsNumbering G post num)
    (hfuel : 2 * G.size ≤ fuel) (hlt : w < G.size) (changed : Bool) :
    ∃ s, processBlock G num fuel (idom, changed) w = some s ∧ Passing G num (num w + 1) s.1 ∧
      PassSpec G num [w] (idom, changed) s := by
  by_cases hw : w = 0
  · subst hw
    exact ⟨(idom, changed), if_pos rfl, h.entryDone hnum, .inl, Nat.le_refl _,
      fun hc => ⟨hc, rfl, fun b hb hb0 => absurd (mem_singleton.mp hb) hb0⟩⟩
  · obtain ⟨p, hplt, hpw, hpless⟩ := hnum.numbers w hlt hw
    have hpmem := (G.mem_preds p w).mpr hpw
    have hps := h.filled p hplt hpless
    obtain ⟨d, hd, hds, hmeet⟩ := newIdom_spec h.toDescending hnum hfuel hpmem hps
    have hdp := h.num_le (hmeet.below p ⟨hpmem, hps⟩)
    have hwd : Renewed G num idom w d := ⟨hw, hlt, hds, by omega, hmeet⟩
    have hpass := h.update hnum hwd
    by_cases hsame : idom w = some d
    · have heq : update idom w (some d) = idom := by
        rw [← hsame, update_eq_self]
      refine ⟨(idom, changed), ?_, heq ▸ hpass, .inl, Nat.le_refl _,
        fun hc => ⟨hc, rfl, fun b hb _ => ?_⟩⟩
      · rw [processBlock, if_neg hw, hd]
        simp [hsame]
      · rw [mem_singleton.mp hb]
        exact ⟨d, hsame, fun q hq hqs => hmeet.below q ⟨hq, hqs⟩⟩
    · have hless : num d < ((idom w).map num).getD G.size := by
        cases hold : idom w with
        | none => exact hnum.num_lt d (h.lt_of_processed hds)
        | some e =>
          have hle := h.num_le (h.renewed_above hwd hold)
          have hne : num d ≠ num e := fun heq => hsame (by
            rw [hold, hnum.inj (h.lt_of_processed hds) (h.lt w e hold).2 heq])
          exact Nat.lt_of_le_of_ne hle hne
      have hheight := height_update hlt hless
      refine ⟨(update idom w (some d), true), ?_, hpass, fun _ => .inr hheight,
        Nat.le_of_lt hheight, fun hc => absurd hc (by simp)⟩
      rw [processBlock, if_neg hw, hd]
      simp [hsame]

/-- The rest of a pass: the blocks `ws` in reverse postorder, when all others are done. -/
theorem pass_spec (hnum : IsNumbering G post num) (hfuel : 2 * G.size ≤ fuel) {ws : List Nat}
    (hws : ws.Pairwise fun u v => num u < num v) (hmem : ∀ v ∈ ws, v < G.size ∧ i ≤ num v)
    (hall : ∀ v, v < G.size → v ∈ ws ∨ num v < i) (h : Passing G num i idom) (changed : Bool) :
    ∃ s, ws.foldlM (processBlock G num fuel) (idom, changed) = some s ∧ Passing G num 0 s.1 ∧
      PassSpec G num ws (idom, changed) s := by
  induction ws generalizing i idom changed with
  | nil =>
    refine ⟨(idom, changed), rfl, h.restart fun x hx => ?_, .inl, Nat.le_refl _,
      fun hc => ⟨hc, rfl, fun b hb => absurd hb not_mem_nil⟩⟩
    exact (hall x hx).resolve_left not_mem_nil
  | cons w ws ih =>
    obtain ⟨hw, hws⟩ := pairwise_cons.mp hws
    obtain ⟨hwlt, hiw⟩ := hmem w mem_cons_self
    have hpass : Passing G num (num w) idom := by
      refine h.raise hiw fun x hx hless => ?_
      rcases hall x hx with hmem | hxi
      · rcases mem_cons.mp hmem with rfl | hmem
        · omega
        · have := hw x hmem
          omega
      · exact hxi
    obtain ⟨s, hs, hpass', hspec⟩ := processBlock_spec hpass hnum hfuel hwlt changed
    obtain ⟨s', hs', hpass'', hspec'⟩ := ih hws (fun v hv => ⟨(hmem v (mem_cons_of_mem _ hv)).1,
        hw v hv⟩) (fun v hv => by
      rcases hall v hv with hmem | hvi
      · rcases mem_cons.mp hmem with rfl | hmem
        · exact .inr (Nat.lt_succ_self _)
        · exact .inl hmem
      · exact .inr (by omega)) hpass' s.2
    refine ⟨s', ?_, hpass'', hspec.trans hspec'⟩
    rw [foldlM_cons, hs]
    exact hs'

theorem iterate_spec (hnum : IsNumbering G post num) (hfuel : 2 * G.size ≤ climbFuel)
    (h : Passing G num 0 idom) :
    ∃ result, Passing G num 0 result ∧ (∀ b, b < G.size → b ≠ 0 → Fixed G result b) ∧
      ∀ fuel, height G num idom < fuel → iterate G post num climbFuel fuel idom = some result := by
  induction hm : height G num idom using Nat.strongRecOn generalizing idom with
  | ind m ih =>
    have hmem : ∀ v, v ∈ post.reverse ↔ v < G.size := fun v => by
      rw [mem_reverse, hnum.mem_iff]
    obtain ⟨s, hs, hpass, hspec⟩ := pass_spec hnum hfuel (pairwise_reverse.mpr hnum.sorted)
      (fun v hv => ⟨(hmem v).mp hv, Nat.zero_le _⟩) (fun v hv => .inl ((hmem v).mpr hv)) h false
    cases hc : s.2 with
    | false =>
      obtain ⟨-, heq, hfixed⟩ := hspec.unchanged hc
      refine ⟨s.1, hpass, fun b hb hb0 => heq ▸ hfixed b ((hmem b).mpr hb) hb0,
        fun fuel hfuel' => ?_⟩
      obtain ⟨fuel, rfl⟩ := Nat.exists_eq_succ_of_ne_zero (by omega : fuel ≠ 0)
      rw [iterate, hs]
      simp [hc]
    | true =>
      have hless := (hspec.changed hc).resolve_left Bool.false_ne_true
      obtain ⟨result, hresult, hfixed, hrun⟩ := ih _ (hm ▸ hless) hpass rfl
      refine ⟨result, hresult, hfixed, fun fuel hfuel' => ?_⟩
      obtain ⟨fuel, rfl⟩ := Nat.exists_eq_succ_of_ne_zero (by omega : fuel ≠ 0)
      have hrun := hrun fuel (by simp only at hless; omega)
      rw [iterate, hs]
      simpa [hc] using hrun

end Brass.Mir.BlockGraph
