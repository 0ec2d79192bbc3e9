import Mathlib.Logic.Function.Basic

/-!
# Stateful functions that call each other

A family of mutually recursive functions over a shared state, as programs whose recursive
calls are explicit: `Prog Q R S α` returns an `α`, reads and replaces the state `S`, and
calls the members of the family, where `Q` is the type of calls and `R` the type of their
results. `runCall body` interprets the calls by the bodies, with fuel.

`Yields body p s Q` says that `p` returns from `s`, for all large enough fuel, with a
result and a state that satisfy `Q`. It is proved by the rules `yields_pure`, `yields_bind`
and `yields_call`, without any mention of fuel, usually by an induction over a measure of
the calls.
-/

namespace Brass.Util

inductive Prog (Q R S : Type) (α : Type) where
  | ret (a : α)
  | get (k : S → Prog Q R S α)
  | set (s : S) (k : Prog Q R S α)
  | call (q : Q) (k : R → Prog Q R S α)

namespace Prog

variable {Q R S α β : Type}

def bind : Prog Q R S α → (α → Prog Q R S β) → Prog Q R S β
  | ret a, f => f a
  | get k, f => get (fun s => (k s).bind f)
  | set s k, f => set s (k.bind f)
  | call q k, f => call q (fun r => (k r).bind f)

instance : Monad (Prog Q R S) where
  pure := ret
  bind := bind

def getState : Prog Q R S S := get ret

def setState (s : S) : Prog Q R S Unit := set s (ret ())

def callOf (q : Q) : Prog Q R S R := call q ret

/-- The calls are answered by `rec`. -/
def exec (rec : Q → S → Option (R × S)) : Prog Q R S α → S → Option (α × S)
  | ret a, s => some (a, s)
  | get k, s => exec rec (k s) s
  | set s k, _ => exec rec k s
  | call q k, s => (rec q s).bind (fun r => exec rec (k r.1) r.2)

def runCall (body : Q → Prog Q R S R) : Nat → Q → S → Option (R × S)
  | 0, _, _ => none
  | fuel + 1, q, s => exec (runCall body fuel) (body q) s

/-! ## More fuel changes no result -/

/-- `rec'` answers all the calls that `rec` answers, and in the same way. -/
def Refines (rec rec' : Q → S → Option (R × S)) : Prop :=
  ∀ q s r, rec q s = some r → rec' q s = some r

theorem exec_mono {rec rec' : Q → S → Option (R × S)} (h : Refines rec rec')
    (p : Prog Q R S α) : ∀ s r, exec rec p s = some r → exec rec' p s = some r := by
  induction p with
  | ret a => exact fun _ _ hr => hr
  | get k ih => exact fun s r hr => ih s s r hr
  | set t k ih => exact fun _ r hr => ih t r hr
  | call q k ih =>
    intro s r hr
    obtain ⟨a, hq, ha⟩ := Option.bind_eq_some_iff.mp hr
    exact Option.bind_eq_some_iff.mpr ⟨a, h q s a hq, ih a.1 a.2 r ha⟩

theorem runCall_succ (body : Q → Prog Q R S R) (fuel : Nat) :
    Refines (runCall body fuel) (runCall body (fuel + 1)) := by
  induction fuel with
  | zero =>
    intro q s r h
    cases h
  | succ fuel ih =>
    intro q s r h
    exact exec_mono ih (body q) s r h

theorem runCall_mono (body : Q → Prog Q R S R) {m n : Nat} (h : m ≤ n) :
    Refines (runCall body m) (runCall body n) := by
  induction h with
  | refl => exact fun _ _ _ hr => hr
  | step _ ih => exact fun q s r hr => runCall_succ body _ q s r (ih q s r hr)

theorem exec_bind (rec : Q → S → Option (R × S)) (p : Prog Q R S α) (f : α → Prog Q R S β) :
    ∀ s, exec rec (p.bind f) s = (exec rec p s).bind (fun r => exec rec (f r.1) r.2) := by
  induction p with
  | ret a => exact fun _ => rfl
  | get k ih => exact fun s => ih s s
  | set t k ih => exact fun _ => ih t
  | call q k ih =>
    intro s
    show (rec q s).bind (fun r => exec rec ((k r.1).bind f) r.2) =
      ((rec q s).bind (fun r => exec rec (k r.1) r.2)).bind (fun r => exec rec (f r.1) r.2)
    rw [Option.bind_assoc]
    exact congrArg _ (funext fun r => ih r.1 r.2)

/-! ## The rules -/

section Rules

variable (body : Q → Prog Q R S R)
variable {s : S} {P : α → S → Prop} {p : Prog Q R S α}

/-- From `s` the program returns, and what it returns satisfies `P`. -/
def Yields (p : Prog Q R S α) (s : S) (P : α → S → Prop) : Prop :=
  ∃ fuel a s', exec (runCall body fuel) p s = some (a, s') ∧ P a s'

variable {body}

theorem yields_pure {a : α} (h : P a s) : Yields body (pure a) s P := ⟨0, a, s, rfl, h⟩

theorem yields_getState {P : S → S → Prop} (h : P s s) : Yields body getState s P :=
  ⟨0, s, s, rfl, h⟩

theorem yields_setState {t : S} {P : Unit → S → Prop} (h : P () t) :
    Yields body (setState t) s P := ⟨0, (), t, rfl, h⟩

theorem yields_bind {f : α → Prog Q R S β} {P' : β → S → Prop} (hp : Yields body p s P)
    (hf : ∀ a s', P a s' → Yields body (f a) s' P') : Yields body (p >>= f) s P' := by
  obtain ⟨m, a, t, hm, ha⟩ := hp
  obtain ⟨n, b, u, hn, hb⟩ := hf a t ha
  refine ⟨max m n, b, u, ?_, hb⟩
  show exec _ (p.bind f) s = _
  rw [exec_bind, exec_mono (runCall_mono body (Nat.le_max_left m n)) p s _ hm]
  exact exec_mono (runCall_mono body (Nat.le_max_right m n)) (f a) t _ hn

theorem yields_call {q : Q} {P : R → S → Prop} (h : Yields body (body q) s P) :
    Yields body (callOf q) s P := by
  obtain ⟨fuel, r, t, hrun, hr⟩ := h
  refine ⟨fuel + 1, r, t, ?_, hr⟩
  show (runCall body (fuel + 1) q s).bind _ = _
  rw [show runCall body (fuel + 1) q s = some (r, t) from hrun]
  rfl

theorem Yields.of_call {q : Q} {P : R → S → Prop} (h : Yields body (callOf q) s P) :
    Yields body (body q) s P := by
  obtain ⟨fuel, r, t, hrun, hr⟩ := h
  cases fuel with
  | zero => cases hrun
  | succ fuel =>
    obtain ⟨a, hq, ha⟩ := Option.bind_eq_some_iff.mp hrun
    cases ha
    exact ⟨fuel, a.1, a.2, hq, hr⟩

theorem Yields.of_getState {k : S → Prog Q R S α} (h : Yields body (getState >>= k) s P) :
    Yields body (k s) s P := h

theorem Yields.mono {P' : α → S → Prop} (h : Yields body p s P) (hP : ∀ a t, P a t → P' a t) :
    Yields body p s P' := by
  obtain ⟨fuel, a, t, hrun, ha⟩ := h
  exact ⟨fuel, a, t, hrun, hP a t ha⟩

theorem Yields.run_eq (h : Yields body p s P) {fuel : Nat} {a : α} {t : S}
    (hrun : exec (runCall body fuel) p s = some (a, t)) : P a t := by
  obtain ⟨m, b, u, hm, hb⟩ := h
  have h₁ := exec_mono (runCall_mono body (Nat.le_max_left m fuel)) p s _ hm
  have h₂ := exec_mono (runCall_mono body (Nat.le_max_right m fuel)) p s _ hrun
  rw [h₁] at h₂
  cases h₂
  exact hb

end Rules

end Prog

end Brass.Util
