import Brass.Verify.CdclAddClause

/-!
# Gates

`mkAnd`, `mkXor` and `mkIte` return a literal that has the value of the gate in every model
of the clauses added so far. The clauses of a fresh gate only say what its output is, so
every model extends to the new variable: nothing becomes unsatisfiable by building gates
(`Conservative`).
-/

namespace Brass.Verify.Cdcl

open Function (update update_of_ne update_self)

open Brass.Util.Cnf List

variable {D : Doubles}

namespace Solver

/-! ## The gates built so far -/

/-- A model of the added clauses, as long as the keys of gates are unique. -/
def Model (s : Solver D) (β : Nat → Bool) : Prop := s.nVars ≤ 2 ^ 29 ∧ Models s.added β

/-- The gate of the given kind on two values. -/
def gateValue : Nat → Bool → Bool → Bool
  | 1, x, y => x && y
  | _, x, y => x ^^ y

/-- What the cache and the record of `xor` inputs say is true. -/
structure Gates (s : Solver D) : Prop where
  inv : s.Inv
  pos : 0 < s.nVars
  cache : ∀ key l, s.gateCache key = some l → ∃ kind a b, (kind = 1 ∨ kind = 2) ∧
    key = gateKey kind a b ∧ a.var < s.nVars ∧ b.var < s.nVars ∧ l.var < s.nVars ∧
    ∀ β, s.Model β → litTrue β l = gateValue kind (litTrue β a) (litTrue β b)
  xors : ∀ v l r, s.xorLhs v = some l → s.xorRhs v = some r →
    l.var < s.nVars ∧ r.var < s.nVars ∧ ∀ β, s.Model β → β v = (litTrue β l ^^ litTrue β r)

/-- Everything said before is still said. -/
structure Grows (s t : Solver D) : Prop where
  nVars : s.nVars ≤ t.nVars
  added : ∀ c ∈ s.added, c ∈ t.added

theorem Grows.model {s t : Solver D} (h : s.Grows t) {β : Nat → Bool} (hβ : t.Model β) :
    s.Model β :=
  ⟨Nat.le_trans h.nVars hβ.1, fun d hd => hβ.2 d (h.added d hd)⟩

/-- In addition every model extends to the new variables. -/
structure Conservative (s t : Solver D) : Prop extends Grows s t where
  extend : ∀ α, Models s.added α → ∃ β, Models t.added β ∧ ∀ v < s.nVars, β v = α v

namespace Conservative

variable {a b c : Solver D}

theorem refl (a : Solver D) : a.Conservative a :=
  ⟨⟨Nat.le_refl _, fun _ h => h⟩, fun α h => ⟨α, h, fun _ _ => rfl⟩⟩

theorem trans (h₁ : a.Conservative b) (h₂ : b.Conservative c) : a.Conservative c := by
  refine ⟨⟨Nat.le_trans h₁.nVars h₂.nVars, fun d hd => h₂.added d (h₁.added d hd)⟩, fun α hα => ?_⟩
  obtain ⟨β, hβ, hagree⟩ := h₁.extend α hα
  obtain ⟨γ, hγ, hagree'⟩ := h₂.extend β hβ
  refine ⟨γ, hγ, fun v hv => ?_⟩
  rw [hagree' v (Nat.lt_of_lt_of_le hv h₁.nVars), hagree v hv]

end Conservative

/-- A literal built from `s` that has the value `f` in every model. -/
structure Built (s : Solver D) (f : (Nat → Bool) → Bool) (r : Lit × Solver D) : Prop where
  gates : r.2.Gates
  conservative : s.Conservative r.2
  range : r.1.var < r.2.nVars
  value : ∀ β, r.2.Model β → litTrue β r.1 = f β

section Gates

variable {s : Solver D}

theorem Inv.zero_false (h : s.Inv) {β : Nat → Bool} (hβ : Models s.added β) : β 0 = false := by
  cases hok : s.ok with
  | true =>
    have hc := (h.1 hok).core
    have himp := hc.root 0 trueLit hc.zeroRoot.1 hc.zeroRoot.2
    simpa [trueLit] using satisfies_singleton.mp (himp β hβ)
  | false => exact absurd hβ (h.2 hok β)

theorem Inv.models_congr (h : s.Inv) {α β : Nat → Bool} (hα : Models s.added α)
    (hagree : ∀ v < s.nVars, β v = α v) : Models s.added β := by
  cases hok : s.ok with
  | true =>
    intro c hc
    obtain ⟨l, hl, ht⟩ := hα c hc
    have hv := hagree _ ((h.1 hok).core.addedRange c hc l hl)
    exact ⟨l, hl, (litTrue_congr hv).trans ht⟩
  | false => exact absurd hα (h.2 hok α)

theorem gateKey_eq {kind : Nat} {a b : Lit} (ha : a.var < 2 ^ 29) (hb : b.var < 2 ^ 29) :
    gateKey kind a b = kind * 2 ^ 62 + a.code * 2 ^ 30 + b.code := by
  have hcode : ∀ {l : Lit}, l.var < 2 ^ 29 → l.code < 2 ^ 30 := by
    intro l hl
    unfold Lit.code
    have := Bool.toNat_lt l.sign
    omega
  have ha' := hcode ha
  have hb' := hcode hb
  have h₁ : a.code <<< 30 < 2 ^ 62 := by
    rw [Nat.shiftLeft_eq]
    omega
  unfold gateKey
  rw [← Nat.shiftLeft_add_eq_or_of_lt h₁]
  have h₂ : kind <<< 62 + a.code <<< 30 = (kind * 2 ^ 32 + a.code) <<< 30 := by
    simp only [Nat.shiftLeft_eq]
    omega
  rw [h₂, ← Nat.shiftLeft_add_eq_or_of_lt hb', Nat.shiftLeft_eq]
  omega

theorem gateKey_inj {k₁ k₂ : Nat} {a b c d : Lit} (ha : a.var < 2 ^ 29) (hb : b.var < 2 ^ 29)
    (hc : c.var < 2 ^ 29) (hd : d.var < 2 ^ 29) (h : gateKey k₁ a b = gateKey k₂ c d) :
    k₁ = k₂ ∧ a = c ∧ b = d := by
  have hcode : ∀ {l : Lit}, l.var < 2 ^ 29 → l.code < 2 ^ 30 := by
    intro l hl
    unfold Lit.code
    have := Bool.toNat_lt l.sign
    omega
  have h₁ := hcode ha
  have h₂ := hcode hb
  have h₃ := hcode hc
  have h₄ := hcode hd
  rw [gateKey_eq ha hb, gateKey_eq hc hd] at h
  refine ⟨by omega, Lit.code_inj.mp (by omega), Lit.code_inj.mp (by omega)⟩

theorem Gates.lookup (h : s.Gates) {kind : Nat} {a b l : Lit} (ha : a.var < s.nVars)
    (hb : b.var < s.nVars) (hl : s.gateCache (gateKey kind a b) = some l) :
    l.var < s.nVars ∧
      ∀ β, s.Model β → litTrue β l = gateValue kind (litTrue β a) (litTrue β b) := by
  obtain ⟨kind', a', b', -, hkey, ha', hb', hlr, hval⟩ := h.cache _ l hl
  refine ⟨hlr, fun β hβ => ?_⟩
  have hlim := hβ.1
  obtain ⟨rfl, rfl, rfl⟩ := gateKey_inj (by omega) (by omega) (by omega) (by omega) hkey
  exact hval β hβ

theorem ordered_cases (a b : Lit) : ordered a b = (a, b) ∨ ordered a b = (b, a) := by
  unfold ordered
  split
  · exact Or.inr rfl
  · exact Or.inl rfl

/-- The literal `l` has the value `f` in every assignment where variable 0 is false. -/
def Always (l : Lit) (f : (Nat → Bool) → Bool) : Prop :=
  ∀ β : Nat → Bool, β 0 = false → litTrue β l = f β

def freshAnd (s : Solver D) (a b : Lit) : Option (Lit × Solver D) :=
  ((s.newVar.2.setGate (gateKey 1 a b) ⟨s.newVar.1, false⟩).addClauses
    (andClauses a b ⟨s.newVar.1, false⟩)).map (fun t => (⟨s.newVar.1, false⟩, t))

/-- The literals of `mkAnd`: one of the inputs or a constant, a known gate, or a fresh one. -/
theorem mkAnd_cases (s : Solver D) (a b : Lit) :
    (∃ l, s.mkAnd a b = some (l, s) ∧ (l = a ∨ l = b ∨ l = falseLit) ∧
      Always l (fun β => litTrue β a && litTrue β b)) ∨
    ∃ x y, ((x, y) = (a, b) ∨ (x, y) = (b, a)) ∧
      ((∃ l, s.gateCache (gateKey 1 x y) = some l ∧ s.mkAnd a b = some (l, s)) ∨
        (s.gateCache (gateKey 1 x y) = none ∧ s.mkAnd a b = s.freshAnd x y)) := by
  unfold mkAnd
  split
  · rename_i h
    refine Or.inl ⟨_, rfl, by simp, fun β h0 => ?_⟩
    rcases h with rfl | rfl <;> simp [falseLit, h0]
  split
  · rename_i h
    subst h
    refine Or.inl ⟨_, rfl, by simp, fun β h0 => ?_⟩
    simp [trueLit, h0]
  split
  · rename_i h
    subst h
    refine Or.inl ⟨_, rfl, by simp, fun β h0 => ?_⟩
    simp [trueLit, h0]
  split
  · rename_i h
    subst h
    refine Or.inl ⟨_, rfl, by simp, fun β h0 => ?_⟩
    simp
  split
  · rename_i h
    subst h
    refine Or.inl ⟨_, rfl, by simp, fun β h0 => ?_⟩
    simp [falseLit, h0]
  refine Or.inr ⟨(ordered a b).1, (ordered a b).2, ordered_cases a b, ?_⟩
  dsimp only
  split
  · rename_i l hl
    exact Or.inl ⟨l, hl, rfl⟩
  · rename_i hl
    exact Or.inr ⟨hl, rfl⟩

/-! ## Fresh gates -/

theorem Inv.addClauses {cs : List (List Lit)} (h : s.Inv)
    (hrange : ∀ c ∈ cs, ∀ l ∈ c, l.var < s.nVars) :
    ∃ t, s.addClauses cs = some t ∧ t.Inv ∧ Kept { s with added := cs.reverse ++ s.added } t := by
  induction cs generalizing s with
  | nil => exact ⟨s, rfl, h, Kept.refl s⟩
  | cons c cs ih =>
    obtain ⟨⟨b, t⟩, hrun, hkept, hinv⟩ := h.addClause (hrange c (by simp))
    have hrange' : ∀ d ∈ cs, ∀ l ∈ d, l.var < t.nVars := by
      intro d hd l hl
      rw [show t.nVars = s.nVars from hkept.nVars]
      exact hrange d (mem_cons_of_mem _ hd) l hl
    obtain ⟨u, hu, hinvu, hkeptu⟩ := ih hinv hrange'
    refine ⟨u, ?_, hinvu, ?_⟩
    · unfold Solver.addClauses
      rw [hrun]
      exact hu
    · refine ⟨hkeptu.nVars.trans hkept.nVars, ?_, hkeptu.xorLhs.trans hkept.xorLhs,
        hkeptu.xorRhs.trans hkept.xorRhs, hkeptu.gateCache.trans hkept.gateCache⟩
      have h₁ : u.added = cs.reverse ++ t.added := hkeptu.added
      have h₂ : t.added = c :: s.added := hkept.added
      rw [h₁, h₂]
      simp

theorem Inv.setGate (h : s.Inv) (key : Nat) (out : Lit) : (s.setGate key out).Inv :=
  ⟨fun hok => let g := h.1 hok; ⟨{ g.core with }, { g.watched with }, g.complete⟩, h.2⟩

theorem Inv.setXor (h : s.Inv) (v : Nat) (a b : Lit) : (s.setXor v a b).Inv :=
  ⟨fun hok => let g := h.1 hok; ⟨{ g.core with }, { g.watched with }, g.complete⟩, h.2⟩

theorem Gates.grow {t : Solver D} (h : s.Gates) (hinv : t.Inv) (hg : s.Grows t)
    (hcache : ∀ key l, t.gateCache key = some l → s.gateCache key = some l ∨
      ∃ kind a b, (kind = 1 ∨ kind = 2) ∧ key = gateKey kind a b ∧ a.var < t.nVars ∧
        b.var < t.nVars ∧ l.var < t.nVars ∧
        ∀ β, t.Model β → litTrue β l = gateValue kind (litTrue β a) (litTrue β b))
    (hxor : ∀ v l r, t.xorLhs v = some l → t.xorRhs v = some r →
      (s.xorLhs v = some l ∧ s.xorRhs v = some r) ∨
      (l.var < t.nVars ∧ r.var < t.nVars ∧
        ∀ β, t.Model β → β v = (litTrue β l ^^ litTrue β r))) : t.Gates := by
  have hle := hg.nVars
  refine ⟨hinv, Nat.lt_of_lt_of_le h.pos hle, fun key l hl => ?_, fun v l r hl hr => ?_⟩
  · rcases hcache key l hl with hold | hnew
    · obtain ⟨kind, a, b, hk, hkey, ha, hb, hlr, hval⟩ := h.cache key l hold
      exact ⟨kind, a, b, hk, hkey, by omega, by omega, by omega, fun β hβ => hval β (hg.model hβ)⟩
    · exact hnew
  · rcases hxor v l r hl hr with ⟨hl', hr'⟩ | hnew
    · obtain ⟨h₁, h₂, h₃⟩ := h.xors v l r hl' hr'
      exact ⟨by omega, by omega, fun β hβ => h₃ β (hg.model hβ)⟩
    · exact hnew

/-- The clauses of a gate define its output: they are satisfied exactly when the new
variable has the value `f` of the old ones. -/
structure Definition (n : Nat) (cs : List (List Lit)) (f : (Nat → Bool) → Bool) : Prop where
  range : ∀ c ∈ cs, ∀ l ∈ c, l.var < n + 1
  local_ : ∀ α β : Nat → Bool, (∀ v < n, β v = α v) → f β = f α
  sat : ∀ β : Nat → Bool, (∀ c ∈ cs, Satisfies β c) ↔ β n = f β

theorem Gates.addDefinition {u : Solver D} (h : s.Gates) (hu : u.Inv)
    (hn : u.nVars = s.nVars + 1) (hadded : u.added = s.added) {cs : List (List Lit)}
    {f : (Nat → Bool) → Bool} (hd : Definition s.nVars cs f) :
    ∃ t, u.addClauses cs = some t ∧ t.Inv ∧ s.Conservative t ∧ t.nVars = s.nVars + 1 ∧
      (∀ β, t.Model β → β s.nVars = f β) ∧ t.xorLhs = u.xorLhs ∧ t.xorRhs = u.xorRhs ∧
      t.gateCache = u.gateCache := by
  have hrange : ∀ c ∈ cs, ∀ l ∈ c, l.var < u.nVars := by
    rw [hn]
    exact hd.range
  obtain ⟨t, ht, hinv, hkept⟩ := hu.addClauses hrange
  have hnt : t.nVars = s.nVars + 1 := hkept.nVars.trans hn
  have hmem : ∀ c, c ∈ t.added ↔ c ∈ cs ∨ c ∈ s.added := by
    intro c
    rw [show t.added = cs.reverse ++ u.added from hkept.added, hadded, mem_append, mem_reverse]
  refine ⟨t, ht, hinv, ⟨⟨by omega, fun c hc => (hmem c).mpr (Or.inr hc)⟩, ?_⟩, hnt, ?_,
    hkept.xorLhs, hkept.xorRhs, hkept.gateCache⟩
  · intro α hα
    have hagree : ∀ v < s.nVars, update α s.nVars (f α) v = α v := fun v hv =>
      update_of_ne (Nat.ne_of_lt hv) _ _
    refine ⟨update α s.nVars (f α), fun c hc => ?_, hagree⟩
    rcases (hmem c).mp hc with hc | hc
    · refine (hd.sat _).mpr ?_ c hc
      rw [update_self, hd.local_ α _ hagree]
    · exact h.inv.models_congr hα hagree c hc
  · intro β hβ
    exact (hd.sat β).mp (fun c hc => hβ.2 c ((hmem c).mpr (Or.inl hc)))

theorem newVar_gateCache (s : Solver D) : s.newVar.2.gateCache = s.gateCache := by
  rw [newVar_snd]
  exact (Kept.backtrack s 0).gateCache

theorem gateCache_setGate {u : Solver D} {key key' : Nat} {l out : Lit}
    (hu : u.gateCache = s.gateCache) (hl : (u.setGate key' out).gateCache key = some l) :
    s.gateCache key = some l ∨ key = key' ∧ l = out := by
  unfold Solver.setGate at hl
  dsimp only at hl
  rw [hu] at hl
  by_cases hkey : key = key'
  · rw [hkey, update_self] at hl
    exact Or.inr ⟨hkey, (Option.some.inj hl).symm⟩
  · rw [update_of_ne hkey] at hl
    exact Or.inl hl

theorem newVar_xorLhs (s : Solver D) : s.newVar.2.xorLhs = update s.xorLhs s.nVars none := by
  rw [newVar_snd]
  unfold withVar
  rw [(Kept.backtrack s 0).xorLhs, backtrack_nVars]

theorem newVar_xorRhs (s : Solver D) : s.newVar.2.xorRhs = update s.xorRhs s.nVars none := by
  rw [newVar_snd]
  unfold withVar
  rw [(Kept.backtrack s 0).xorRhs, backtrack_nVars]

theorem newVar_xors {v : Nat} {l r : Lit} (hl : s.newVar.2.xorLhs v = some l)
    (hr : s.newVar.2.xorRhs v = some r) : s.xorLhs v = some l ∧ s.xorRhs v = some r := by
  rw [newVar_xorLhs] at hl
  rw [newVar_xorRhs] at hr
  by_cases hv : v = s.nVars
  · subst hv
    rw [update_self] at hl
    cases hl
  · rw [update_of_ne hv] at hl hr
    exact ⟨hl, hr⟩

/-! ### And -/

theorem andClauses_definition {n : Nat} {a b : Lit} (ha : a.var < n) (hb : b.var < n) :
    Definition n (andClauses a b ⟨n, false⟩) (fun β => litTrue β a && litTrue β b) := by
  refine ⟨?_, fun α β h => ?_, fun β => ?_⟩
  · simp only [andClauses, forall_mem_cons, not_mem_nil, Lit.var_neg,
      IsEmpty.forall_iff, implies_true, and_true]
    omega
  · rw [litTrue_congr (h _ ha), litTrue_congr (h _ hb)]
  · simp only [andClauses, Satisfies, forall_mem_cons, exists_mem_cons_iff,
      not_mem_nil, litTrue_neg, litTrue_pos]
    cases litTrue β a <;> cases litTrue β b <;> cases β n <;> simp

theorem Gates.freshAnd (h : s.Gates) {a b : Lit} (ha : a.var < s.nVars) (hb : b.var < s.nVars) :
    ∃ r, s.freshAnd a b = some r ∧ s.Built (fun β => litTrue β a && litTrue β b) r := by
  obtain ⟨t, ht, hinv, hcons, hnt, hval, hxl, hxr, hcache⟩ := h.addDefinition
    (h.inv.newVar.setGate (gateKey 1 a b) ⟨s.nVars, false⟩) (newVar_nVars s) (newVar_added s)
    (andClauses_definition ha hb)
  have hout : ∀ β, t.Model β → litTrue β ⟨s.nVars, false⟩ = (litTrue β a && litTrue β b) := by
    intro β hβ
    rw [litTrue_pos]
    exact hval β hβ
  have hgates : t.Gates := by
    refine h.grow hinv hcons.toGrows (fun key l hl => ?_) (fun v l r hl hr => ?_)
    · rw [hcache] at hl
      rcases gateCache_setGate (newVar_gateCache s) hl with hold | ⟨rfl, rfl⟩
      · exact Or.inl hold
      · exact Or.inr ⟨1, a, b, Or.inl rfl, rfl, by omega, by omega, by simp [hnt], hout⟩
    · rw [hxl] at hl
      rw [hxr] at hr
      exact Or.inl (newVar_xors hl hr)
  refine ⟨(⟨s.nVars, false⟩, t), ?_, hgates, hcons, by simp [hnt], hout⟩
  unfold Solver.freshAnd
  rw [newVar_fst, ht]
  rfl


theorem Gates.mkAnd (h : s.Gates) {a b : Lit} (ha : a.var < s.nVars) (hb : b.var < s.nVars) :
    ∃ r, s.mkAnd a b = some r ∧ s.Built (fun β => litTrue β a && litTrue β b) r := by
  have hcomm : (fun β => litTrue β b && litTrue β a) = fun β => litTrue β a && litTrue β b :=
    funext fun β => Bool.and_comm _ _
  rcases mkAnd_cases s a b with ⟨l, hrun, hl, hval⟩ | ⟨x, y, hxy, hit | ⟨-, hrun⟩⟩
  · refine ⟨_, hrun, h, Conservative.refl s, ?_, fun β hβ => hval β (h.inv.zero_false hβ.2)⟩
    rcases hl with rfl | rfl | rfl
    · exact ha
    · exact hb
    · exact h.pos
  · obtain ⟨l, hl, hrun⟩ := hit
    rcases hxy with hxy | hxy <;> cases hxy
    · obtain ⟨hlr, hval⟩ := h.lookup ha hb hl
      exact ⟨_, hrun, h, Conservative.refl s, hlr, hval⟩
    · obtain ⟨hlr, hval⟩ := h.lookup hb ha hl
      rw [← hcomm]
      exact ⟨_, hrun, h, Conservative.refl s, hlr, hval⟩
  · rw [hrun]
    rcases hxy with hxy | hxy <;> cases hxy
    · exact h.freshAnd ha hb
    · rw [← hcomm]
      exact h.freshAnd hb ha

theorem Gates.mkOr (h : s.Gates) {a b : Lit} (ha : a.var < s.nVars) (hb : b.var < s.nVars) :
    ∃ r, s.mkOr a b = some r ∧ s.Built (fun β => litTrue β a || litTrue β b) r := by
  obtain ⟨⟨l, t⟩, hrun, hbuilt⟩ := h.mkAnd (a := a.neg) (b := b.neg) ha hb
  unfold Solver.mkOr
  rw [hrun]
  refine ⟨_, rfl, hbuilt.gates, hbuilt.conservative, hbuilt.range, fun β hβ => ?_⟩
  have hval := hbuilt.value β hβ
  dsimp only at hval ⊢
  rw [litTrue_neg, hval, litTrue_neg, litTrue_neg]
  cases litTrue β a <;> cases litTrue β b <;> rfl

/-! ### Xor -/

def freshXor (s : Solver D) (a b : Lit) : Option (Lit × Solver D) :=
  (((s.newVar.2.setXor s.newVar.1 a b).setGate (gateKey 2 a b) ⟨s.newVar.1, false⟩).addClauses
    (xorClauses a b ⟨s.newVar.1, false⟩)).map (fun t => (⟨s.newVar.1, false⟩, t))

theorem xorClauses_definition {n : Nat} {a b : Lit} (ha : a.var < n) (hb : b.var < n) :
    Definition n (xorClauses a b ⟨n, false⟩) (fun β => litTrue β a ^^ litTrue β b) := by
  refine ⟨?_, fun α β h => ?_, fun β => ?_⟩
  · simp only [xorClauses, forall_mem_cons, not_mem_nil, Lit.var_neg,
      IsEmpty.forall_iff, implies_true, and_true]
    omega
  · rw [litTrue_congr (h _ ha), litTrue_congr (h _ hb)]
  · simp only [xorClauses, Satisfies, forall_mem_cons, exists_mem_cons_iff,
      not_mem_nil, litTrue_neg, litTrue_pos]
    cases litTrue β a <;> cases litTrue β b <;> cases β n <;> simp

theorem Gates.freshXor (h : s.Gates) {a b : Lit} (ha : a.var < s.nVars) (hb : b.var < s.nVars) :
    ∃ r, s.freshXor a b = some r ∧ s.Built (fun β => litTrue β a ^^ litTrue β b) r := by
  obtain ⟨t, ht, hinv, hcons, hnt, hval, hxl, hxr, hcache⟩ := h.addDefinition
    ((h.inv.newVar.setXor s.nVars a b).setGate (gateKey 2 a b) ⟨s.nVars, false⟩)
    (newVar_nVars s) (newVar_added s) (xorClauses_definition ha hb)
  have hout : ∀ β, t.Model β → litTrue β ⟨s.nVars, false⟩ = (litTrue β a ^^ litTrue β b) := by
    intro β hβ
    rw [litTrue_pos]
    exact hval β hβ
  have hgates : t.Gates := by
    refine h.grow hinv hcons.toGrows (fun key l hl => ?_) (fun v l r hl hr => ?_)
    · rw [hcache] at hl
      rcases gateCache_setGate (u := s.newVar.2.setXor s.nVars a b) (newVar_gateCache s) hl with
        hold | ⟨rfl, rfl⟩
      · exact Or.inl hold
      · exact Or.inr ⟨2, a, b, Or.inr rfl, rfl, by omega, by omega, by simp [hnt], hout⟩
    · rw [hxl] at hl
      rw [hxr] at hr
      unfold Solver.setGate Solver.setXor at hl hr
      dsimp only at hl hr
      by_cases hv : v = s.nVars
      · subst hv
        rw [update_self] at hl hr
        obtain rfl := Option.some.inj hl
        obtain rfl := Option.some.inj hr
        exact Or.inr ⟨by omega, by omega, hval⟩
      · rw [update_of_ne hv] at hl hr
        exact Or.inl (newVar_xors hl hr)
  refine ⟨(⟨s.nVars, false⟩, t), ?_, hgates, hcons, by simp [hnt], hout⟩
  unfold Solver.freshXor
  rw [newVar_fst, ht]
  rfl

/-- The other input of a `xor` is the output `xor` the known input. -/
theorem Gates.xorOther (h : s.Gates) {v : Nat} {u l : Lit} (hl : s.xorOther v u = some l) :
    l.var < s.nVars ∧ ∀ β, s.Model β → litTrue β l = (β v ^^ litTrue β u) := by
  unfold Solver.xorOther at hl
  split at hl
  · rename_i p q hp hq
    obtain ⟨hpr, hqr, hval⟩ := h.xors v p q hp hq
    split at hl
    · rename_i heq
      subst heq
      obtain rfl := Option.some.inj hl
      refine ⟨hqr, fun β hβ => ?_⟩
      rw [hval β hβ]
      cases litTrue β p <;> cases litTrue β q <;> rfl
    · split at hl
      · rename_i heq
        subst heq
        obtain rfl := Option.some.inj hl
        refine ⟨hpr, fun β hβ => ?_⟩
        rw [hval β hβ]
        cases litTrue β p <;> cases litTrue β q <;> rfl
      · cases hl
  · cases hl

@[simp] theorem negIf_var (b : Bool) (l : Lit) : (negIf b l).var = l.var := by
  cases b <;> rfl

@[simp] theorem litTrue_negIf (β : Nat → Bool) (b : Bool) (l : Lit) :
    litTrue β (negIf b l) = (litTrue β l ^^ b) := by
  cases b <;> simp [negIf]

/-- The literals of `mkXor`, up to a negation: an input or a constant, an input of a `xor`
that has the other input as output, a known gate, or a fresh one. -/
theorem mkXor_cases (s : Solver D) (a b : Lit) :
    (∃ l, s.mkXor a b = some (l, s) ∧ (l.var = a.var ∨ l.var = b.var ∨ l.var = 0) ∧
      Always l (fun β => litTrue β a ^^ litTrue β b)) ∨
    ∃ x y, ((x, y) = (a.var, b.var) ∨ (x, y) = (b.var, a.var)) ∧
      ((∃ l, s.xorOther x ⟨y, false⟩ = some l ∧
          s.mkXor a b = some (negIf (a.sign ^^ b.sign) l, s)) ∨
        (∃ l, s.gateCache (gateKey 2 ⟨x, false⟩ ⟨y, false⟩) = some l ∧
          s.mkXor a b = some (negIf (a.sign ^^ b.sign) l, s)) ∨
        (s.mkXor a b = (s.freshXor ⟨x, false⟩ ⟨y, false⟩).map
          (fun r => (negIf (a.sign ^^ b.sign) r.1, r.2)))) := by
  unfold mkXor
  split
  · rename_i h
    subst h
    exact Or.inl ⟨_, rfl, by simp, fun β h0 => by simp [falseLit, h0]⟩
  split
  · rename_i h
    subst h
    exact Or.inl ⟨_, rfl, by simp, fun β h0 => by simp [falseLit, h0]⟩
  split
  · rename_i h
    subst h
    exact Or.inl ⟨_, rfl, by simp, fun β h0 => by simp [trueLit, h0]⟩
  split
  · rename_i h
    subst h
    exact Or.inl ⟨_, rfl, by simp, fun β h0 => by simp [trueLit, h0]⟩
  split
  · rename_i h
    subst h
    exact Or.inl ⟨_, rfl, by simp [falseLit], fun β h0 => by simp [falseLit, h0]⟩
  split
  · rename_i h
    subst h
    exact Or.inl ⟨_, rfl, by simp [trueLit], fun β h0 => by simp [trueLit, h0]⟩
  refine Or.inr ?_
  dsimp only
  split
  · rename_i l hl
    exact ⟨_, _, Or.inl rfl, Or.inl ⟨l, hl, rfl⟩⟩
  split
  · rename_i l hl
    exact ⟨_, _, Or.inr rfl, Or.inl ⟨l, hl, rfl⟩⟩
  have hord : ∃ x y, ((x, y) = (a.var, b.var) ∨ (x, y) = (b.var, a.var)) ∧
      ordered ⟨a.var, false⟩ ⟨b.var, false⟩ = ((⟨x, false⟩, ⟨y, false⟩) : Lit × Lit) := by
    rcases ordered_cases ⟨a.var, false⟩ ⟨b.var, false⟩ with h | h
    · exact ⟨_, _, Or.inl rfl, h⟩
    · exact ⟨_, _, Or.inr rfl, h⟩
  obtain ⟨x, y, hxy, hord⟩ := hord
  refine ⟨x, y, hxy, Or.inr ?_⟩
  rw [hord]
  dsimp only
  split
  · rename_i l hl
    exact Or.inl ⟨l, hl, rfl⟩
  · refine Or.inr ?_
    unfold freshXor
    rw [Option.map_map]
    rfl

theorem litTrue_eq_xor (β : Nat → Bool) (a : Lit) : litTrue β a = (β a.var ^^ a.sign) := rfl

theorem Gates.mkXor (h : s.Gates) {a b : Lit} (ha : a.var < s.nVars) (hb : b.var < s.nVars) :
    ∃ r, s.mkXor a b = some r ∧ s.Built (fun β => litTrue β a ^^ litTrue β b) r := by
  -- The gate is built on the variables; the signs of the inputs move to its output.
  have hsign : ∀ (β : Nat → Bool) {x y : Nat}, (x, y) = (a.var, b.var) ∨ (x, y) = (b.var, a.var) →
      ((β x ^^ β y) ^^ (a.sign ^^ b.sign)) = (litTrue β a ^^ litTrue β b) := by
    intro β x y hxy
    rw [litTrue_eq_xor, litTrue_eq_xor]
    rcases hxy with hxy | hxy <;> cases hxy <;>
      cases β a.var <;> cases β b.var <;> cases a.sign <;> cases b.sign <;> rfl
  have hrange : ∀ {x y : Nat}, (x, y) = (a.var, b.var) ∨ (x, y) = (b.var, a.var) →
      x < s.nVars ∧ y < s.nVars := by
    intro x y hxy
    rcases hxy with hxy | hxy <;> cases hxy
    · exact ⟨ha, hb⟩
    · exact ⟨hb, ha⟩
  rcases mkXor_cases s a b with ⟨l, hrun, hl, hval⟩ | ⟨x, y, hxy, hcase⟩
  · refine ⟨_, hrun, h, Conservative.refl s, ?_, fun β hβ => hval β (h.inv.zero_false hβ.2)⟩
    have hpos := h.pos
    dsimp only
    rcases hl with hl | hl | hl <;> rw [hl]
    · exact ha
    · exact hb
    · exact hpos
  · obtain ⟨hx, hy⟩ := hrange hxy
    rcases hcase with ⟨l, hl, hrun⟩ | ⟨l, hl, hrun⟩ | hrun
    · obtain ⟨hlr, hval⟩ := h.xorOther hl
      refine ⟨_, hrun, h, Conservative.refl s, by simpa using hlr, fun β hβ => ?_⟩
      rw [← hsign β hxy]
      simp [hval β hβ]
    · obtain ⟨hlr, hval⟩ := h.lookup hx hy hl
      refine ⟨_, hrun, h, Conservative.refl s, by simpa using hlr, fun β hβ => ?_⟩
      rw [← hsign β hxy]
      simp [hval β hβ, gateValue]
    · obtain ⟨r, hr, hbuilt⟩ := h.freshXor (a := ⟨x, false⟩) (b := ⟨y, false⟩) hx hy
      rw [hrun, hr]
      refine ⟨_, rfl, hbuilt.gates, hbuilt.conservative, by simpa using hbuilt.range,
        fun β hβ => ?_⟩
      rw [← hsign β hxy]
      simp [hbuilt.value β hβ]

/-! ### If-then-else -/

theorem iteClauses_definition {n : Nat} {c t f : Lit} (hc : c.var < n) (ht : t.var < n)
    (hf : f.var < n) :
    Definition n (iteClauses c t f ⟨n, false⟩)
      (fun β => bif litTrue β c then litTrue β t else litTrue β f) := by
  refine ⟨?_, fun α β h => ?_, fun β => ?_⟩
  · simp only [iteClauses, forall_mem_cons, not_mem_nil, Lit.var_neg,
      IsEmpty.forall_iff, implies_true, and_true]
    omega
  · rw [litTrue_congr (h _ hc), litTrue_congr (h _ ht), litTrue_congr (h _ hf)]
  · simp only [iteClauses, Satisfies, forall_mem_cons, exists_mem_cons_iff,
      not_mem_nil, litTrue_neg, litTrue_pos]
    cases litTrue β c <;> cases litTrue β t <;> cases litTrue β f <;> cases β n <;> simp

def freshIte (s : Solver D) (c t f : Lit) : Option (Lit × Solver D) :=
  (s.newVar.2.addClauses (iteClauses c t f ⟨s.newVar.1, false⟩)).map
    (fun u => (⟨s.newVar.1, false⟩, u))

theorem Gates.freshIte (h : s.Gates) {c t f : Lit} (hc : c.var < s.nVars) (ht : t.var < s.nVars)
    (hf : f.var < s.nVars) :
    ∃ r, s.freshIte c t f = some r ∧
      s.Built (fun β => bif litTrue β c then litTrue β t else litTrue β f) r := by
  obtain ⟨u, hu, hinv, hcons, hn, hval, hxl, hxr, hcache⟩ := h.addDefinition h.inv.newVar
    (newVar_nVars s) (newVar_added s) (iteClauses_definition hc ht hf)
  refine ⟨(⟨s.nVars, false⟩, u), ?_, ?_, hcons, by simp [hn], fun β hβ => ?_⟩
  · unfold Solver.freshIte
    rw [newVar_fst, hu]
    rfl
  · refine h.grow hinv hcons.toGrows (fun key l hl => ?_) (fun v l r hl hr => ?_)
    · rw [hcache, newVar_gateCache] at hl
      exact Or.inl hl
    · rw [hxl] at hl
      rw [hxr] at hr
      exact Or.inl (newVar_xors hl hr)
  · rw [litTrue_pos]
    exact hval β hβ

theorem Gates.mkIte (h : s.Gates) {c t f : Lit} (hc : c.var < s.nVars) (ht : t.var < s.nVars)
    (hf : f.var < s.nVars) :
    ∃ r, s.mkIte c t f = some r ∧
      s.Built (fun β => bif litTrue β c then litTrue β t else litTrue β f) r := by
  have hsimple : ∀ l : Lit, l.var < s.nVars →
      Always l (fun β => bif litTrue β c then litTrue β t else litTrue β f) →
      ∃ r, some (l, s) = some r ∧
        s.Built (fun β => bif litTrue β c then litTrue β t else litTrue β f) r := fun l hl hval =>
    ⟨_, rfl, h, Conservative.refl s, hl, fun β hβ => hval β (h.inv.zero_false hβ.2)⟩
  unfold Solver.mkIte
  split
  · rename_i heq
    subst heq
    exact hsimple t ht (fun β h0 => by simp [trueLit, h0])
  split
  · rename_i heq
    subst heq
    exact hsimple f hf (fun β h0 => by simp [falseLit, h0])
  split
  · rename_i heq
    subst heq
    exact hsimple t ht (fun β h0 => by simp)
  split
  · rename_i heq
    obtain ⟨rfl, rfl⟩ := heq
    exact hsimple c hc (fun β h0 => by simp [trueLit, falseLit, h0])
  split
  · rename_i heq
    obtain ⟨rfl, rfl⟩ := heq
    exact hsimple c.neg hc (fun β h0 => by simp [trueLit, falseLit, h0])
  by_cases hs : c.sign = true
  · rw [if_pos hs]
    obtain ⟨r, hr, hbuilt⟩ := h.freshIte (c := c.neg) hc hf ht
    refine ⟨r, hr, ?_⟩
    have hflip : (fun β => bif litTrue β c.neg then litTrue β f else litTrue β t) =
        fun β => bif litTrue β c then litTrue β t else litTrue β f := by
      funext β
      rw [litTrue_neg]
      cases litTrue β c <;> rfl
    rwa [hflip] at hbuilt
  · rw [if_neg hs]
    exact h.freshIte hc ht hf

end Gates

end Solver

end Brass.Verify.Cdcl
