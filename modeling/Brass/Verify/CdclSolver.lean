import Mathlib.Data.List.Sort
import Mathlib.Tactic.Ring
import Brass.Util.Cnf

/-!
# The CDCL solver

`CDCLSolver` of `verify/bv_cdcl_solver.hpp`: two watched literals, first-UIP learning,
activity-ordered decisions, and incremental solving under one assumption.

A vector indexed by variables, literals or clause numbers is a function together with its
length (`nVars`, `numClauses`); the invariant of `CdclInvariant` says that no access is out
of range. A stored clause has at least two literals, so `Clause` has its two watched
literals as fields. `kLitUndef` and `kReasonDecision` are `none`.

The loops that the source leaves by a condition take fuel, and return `none` when it runs
out or when they would read outside a vector. `solveAssuming` is given enough fuel to
return always (`CdclSolve`).

`added` does not exist in the source. It records every clause passed to `add_clause`, and
is what the answers of the solver are about.
-/

namespace Brass.Verify.Cdcl

open Brass.Util.Cnf

/-- The `double` arithmetic of the branching heuristic. The solver relies only on this:
activities are never negative, so each of them is greater than `-1.0`. -/
structure Doubles where
  carrier : Type
  zero : carrier
  one : carrier
  minusOne : carrier
  add : carrier → carrier → carrier
  /-- `x * 1.05` -/
  grow : carrier → carrier
  /-- `x * 1e-100` -/
  rescale : carrier → carrier
  /-- `x > 1e100` -/
  huge : carrier → Bool
  gt : carrier → carrier → Bool
  NonNeg : carrier → Prop
  nonNeg_zero : NonNeg zero
  nonNeg_one : NonNeg one
  nonNeg_add : ∀ {x y}, NonNeg x → NonNeg y → NonNeg (add x y)
  nonNeg_grow : ∀ {x}, NonNeg x → NonNeg (grow x)
  nonNeg_rescale : ∀ {x}, NonNeg x → NonNeg (rescale x)
  gt_minusOne : ∀ {x}, NonNeg x → gt x minusOne = true

structure Clause where
  c0 : Lit
  c1 : Lit
  rest : List Lit
  deriving DecidableEq, Repr

def Clause.lits (c : Clause) : List Lit := c.c0 :: c.c1 :: c.rest

/-- `std::swap(c[0], c[1])` when the false literal is the first one. -/
def Clause.falseSecond (c : Clause) (falseL : Lit) : Clause :=
  if c.c0 = falseL then ⟨c.c1, c.c0, c.rest⟩ else c

structure Solver (D : Doubles) where
  ok : Bool
  nVars : Nat
  numClauses : Nat
  clauses : Nat → Clause
  watches : Lit → List Nat
  assigns : Nat → Option Bool
  level : Nat → Nat
  reason : Nat → Option Nat
  seen : Nat → Bool
  activity : Nat → D.carrier
  phase : Nat → Bool
  trail : List Lit
  trailLim : List Nat
  xorLhs : Nat → Option Lit
  xorRhs : Nat → Option Lit
  gateCache : Nat → Option Lit
  qhead : Nat
  varInc : D.carrier
  added : List (List Lit)

inductive Status where
  | unsat
  | sat
  | unknown
  deriving DecidableEq, Repr

/-- Variable 0 is the constant false. -/
def trueLit : Lit := ⟨0, true⟩
def falseLit : Lit := ⟨0, false⟩

variable {D : Doubles}

namespace Solver

def decisionLevel (s : Solver D) : Nat := s.trailLim.length

def valueLit (s : Solver D) (l : Lit) : Option Bool := (s.assigns l.var).map (· ^^ l.sign)

def assign (s : Solver D) (l : Lit) (reason : Option Nat) : Solver D :=
  { s with
    assigns := Function.update s.assigns l.var (some !l.sign)
    phase := Function.update s.phase l.var !l.sign
    level := Function.update s.level l.var s.decisionLevel
    reason := Function.update s.reason l.var reason
    trail := s.trail ++ [l] }

/-- The literals from `target` on lose their value, the last one first. -/
def unassign (assigns : Nat → Option Bool) (dropped : List Lit) : Nat → Option Bool :=
  dropped.foldr (fun l a => Function.update a l.var none) assigns

def backtrack (s : Solver D) (lvl : Nat) : Solver D :=
  if s.decisionLevel ≤ lvl then s
  else
    let target := s.trailLim.getD lvl 0
    { s with
      assigns := unassign s.assigns (s.trail.drop target)
      trail := s.trail.take target
      trailLim := s.trailLim.take lvl
      qhead := target }

def resetToRoot (s : Solver D) : Solver D := if s.decisionLevel > 0 then s.backtrack 0 else s

def newVar (s : Solver D) : Nat × Solver D :=
  let s := s.resetToRoot
  (s.nVars,
    { s with
      nVars := s.nVars + 1
      assigns := Function.update s.assigns s.nVars none
      level := Function.update s.level s.nVars 0
      reason := Function.update s.reason s.nVars none
      seen := Function.update s.seen s.nVars false
      activity := Function.update s.activity s.nVars D.zero
      phase := Function.update s.phase s.nVars false
      xorLhs := Function.update s.xorLhs s.nVars none
      xorRhs := Function.update s.xorRhs s.nVars none
      watches := Function.update (Function.update s.watches ⟨s.nVars, false⟩ []) ⟨s.nVars, true⟩ [] })

/-- No variable, no clause. -/
def blank (D : Doubles) : Solver D where
  ok := true
  nVars := 0
  numClauses := 0
  clauses := fun _ => ⟨falseLit, trueLit, []⟩
  watches := fun _ => []
  assigns := fun _ => none
  level := fun _ => 0
  reason := fun _ => none
  seen := fun _ => false
  activity := fun _ => D.zero
  phase := fun _ => false
  trail := []
  trailLim := []
  xorLhs := fun _ => none
  xorRhs := fun _ => none
  gateCache := fun _ => none
  qhead := 0
  varInc := D.one
  added := []

/-- The constructor: variable 0 exists and is false. -/
def init (D : Doubles) : Solver D :=
  { (blank D).newVar.2.assign trueLit none with added := [[trueLit]] }

/-! ## Propagation -/

/-- The first literal that is not false, with the old watch put in its place. -/
def findWatch (value : Lit → Option Bool) (old : Lit) : List Lit → Option (Lit × List Lit)
  | [] => none
  | q :: qs =>
    if value q = some false then (findWatch value old qs).map (fun r => (r.1, q :: r.2))
    else some (q, old :: qs)

def setClause (s : Solver D) (cid : Nat) (c : Clause) : Solver D :=
  { s with clauses := Function.update s.clauses cid c }

def addWatch (s : Solver D) (l : Lit) (cid : Nat) : Solver D :=
  { s with watches := Function.update s.watches l (s.watches l ++ [cid]) }

/-- The loop over the watches of `p`: the watches still to visit, those kept so far, and
at the end the number of a clause that became false, if there is one. -/
def visitWatches (p : Lit) : List Nat → List Nat → Solver D → Solver D × List Nat × Option Nat
  | [], kept, s => (s, kept, none)
  | cid :: ws, kept, s =>
    let c := (s.clauses cid).falseSecond p.neg
    let s := s.setClause cid c
    if c.c1 ≠ p.neg then visitWatches p ws (kept ++ [cid]) s
    else if s.valueLit c.c0 = some true then visitWatches p ws (kept ++ [cid]) s
    else
      match findWatch s.valueLit c.c1 c.rest with
      | some (w, rest) =>
        visitWatches p ws kept ((s.setClause cid ⟨c.c0, w, rest⟩).addWatch w.neg cid)
      | none =>
        if s.valueLit c.c0 = some false then
          ({ s with qhead := s.trail.length }, kept ++ [cid] ++ ws, some cid)
        else visitWatches p ws (kept ++ [cid]) (s.assign c.c0 (some cid))

/-- One round of `propagate`: the watches of the literal `p` at `qhead`. -/
def propagateLit (s : Solver D) (p : Lit) : Solver D × Option Nat :=
  let r := visitWatches p (s.watches p) [] { s with qhead := s.qhead + 1 }
  ({ r.1 with watches := Function.update r.1.watches p r.2.1 }, r.2.2)

def propagateLoop : Nat → Solver D → Option (Solver D × Option Nat)
  | 0, _ => none
  | fuel + 1, s =>
    match s.trail[s.qhead]? with
    | none => some (s, none)
    | some p =>
      match s.propagateLit p with
      | (s, some cid) => some (s, some cid)
      | (s, none) => propagateLoop fuel s

/-- The conflict clause, if there is one. -/
def propagate (s : Solver D) : Option (Solver D × Option Nat) := propagateLoop (s.nVars + 1) s

/-! ## Conflict analysis -/

/-- `out_learnt` after its first place, and the number of marked variables of the current
level that are still to be resolved. -/
structure Analysis (D : Doubles) where
  solver : Solver D
  learnt : List Lit
  pathC : Nat

/-- The variable of `q` becomes more active and is marked. -/
def mark (a : Analysis D) (q : Lit) : Solver D :=
  { a.solver with
    activity := Function.update a.solver.activity q.var
      (D.add (a.solver.activity q.var) a.solver.varInc)
    seen := Function.update a.solver.seen q.var true }

/-- The body of the loop over the literals of a clause. -/
def markLit (cur : Nat) (a : Analysis D) (q : Lit) : Analysis D :=
  if a.solver.seen q.var = false ∧ a.solver.level q.var > 0 then
    if a.solver.level q.var ≥ cur then ⟨mark a q, a.learnt, a.pathC + 1⟩
    else ⟨mark a q, a.learnt ++ [q], a.pathC⟩
  else a

/-- The last marked literal before `index`, with its position. -/
def lastSeen (s : Solver D) : Nat → Option (Nat × Lit)
  | 0 => none
  | i + 1 =>
    match s.trail[i]? with
    | none => none
    | some l => if s.seen l.var then some (i, l) else lastSeen s i

/-- The literal `p` is resolved: its mark is removed. -/
def unmark (a : Analysis D) (p : Lit) : Analysis D :=
  ⟨{ a.solver with seen := Function.update a.solver.seen p.var false }, a.learnt, a.pathC - 1⟩

/-- The `do` loop: `lits` are the literals of the clause that is resolved. -/
def analyzeLoop (cur : Nat) : Nat → List Lit → Nat → Analysis D → Option (Lit × Analysis D)
  | 0, _, _, _ => none
  | fuel + 1, lits, index, a =>
    let a := lits.foldl (markLit cur) a
    match a.solver.lastSeen index with
    | none => none
    | some (i, p) =>
      if (unmark a p).pathC > 0 then
        match a.solver.reason p.var with
        | none => none
        | some cid =>
          let c := a.solver.clauses cid
          analyzeLoop cur fuel (c.c1 :: c.rest) i (unmark a p)
      else some (p, unmark a p)

/-- The position of the first literal of the highest level. -/
def maxLevelIdx (level : Nat → Nat) : List Lit → Nat → Nat → Nat → Nat
  | [], _, best, _ => best
  | q :: qs, i, best, bestLevel =>
    if level q.var > bestLevel then maxLevelIdx level qs (i + 1) i (level q.var)
    else maxLevelIdx level qs (i + 1) best bestLevel

/-- The literal of the highest level moves to the front. -/
def maxLevelFirst (level : Nat → Nat) : List Lit → List Lit
  | [] => []
  | q :: qs =>
    let m := maxLevelIdx level qs 1 0 (level q.var)
    match (q :: qs)[m]? with
    | none => q :: qs
    | some best => ((q :: qs).set m q).set 0 best

/-- The learnt clause: its first literal, the others, and the level to go back to. -/
structure Learnt where
  first : Lit
  others : List Lit
  btLevel : Nat

def analyze (s : Solver D) (confl : Nat) : Option (Solver D × Learnt) :=
  match analyzeLoop s.decisionLevel (s.trail.length + 1) (s.clauses confl).lits s.trail.length
      ⟨s, [], 0⟩ with
  | none => none
  | some (p, a) =>
    let seen := a.learnt.foldl (fun seen l => Function.update seen l.var false) a.solver.seen
    let others := maxLevelFirst a.solver.level a.learnt
    let btLevel := match others with
      | [] => 0
      | q :: _ => a.solver.level q.var
    some ({ a.solver with seen := seen }, ⟨p.neg, others, btLevel⟩)

/-! ## The search -/

/-- `pick_branch_var`: the unassigned variable of the highest activity, from 1 on. -/
def pickBranchVar (s : Solver D) : Option Nat :=
  ((List.range' 1 (s.nVars - 1)).foldl
    (fun (best : Option Nat × D.carrier) v =>
      if s.assigns v = none ∧ D.gt (s.activity v) best.2 = true then (some v, s.activity v)
      else best)
    (none, D.minusOne)).1

def pushClause (s : Solver D) (c : Clause) : Solver D :=
  let s' := (s.addWatch c.c0.neg s.numClauses).addWatch c.c1.neg s.numClauses
  { s' with
    clauses := Function.update s'.clauses s.numClauses c
    numClauses := s.numClauses + 1 }

/-- A learnt clause is stored, unless it is a unit, and its first literal is assigned. -/
def learn (s : Solver D) (k : Learnt) : Solver D :=
  match k.others with
  | [] => s.assign k.first none
  | q :: qs => (s.pushClause ⟨k.first, q, qs⟩).assign k.first (some s.numClauses)

def decayActivities (s : Solver D) : Solver D :=
  let inc := D.grow s.varInc
  if D.huge inc then
    { s with activity := fun v => D.rescale (s.activity v), varInc := D.rescale inc }
  else { s with varInc := inc }

def newDecision (s : Solver D) (l : Lit) : Solver D :=
  Solver.assign { s with trailLim := s.trailLim ++ [s.trail.length] } l none

/-- The assumption is decided if it has no value. -/
def assume (s : Solver D) (assumption : Lit) : Solver D :=
  if s.valueLit assumption = none then s.newDecision assumption else s

def failed (s : Solver D) : Solver D := { s with ok := false }

/-- The end of a conflict round: give up, or go on with the search. -/
def conflictLimit (maxConflicts conflicts : Nat) (s : Solver D)
    (go : Solver D → Option (Status × Solver D)) : Option (Status × Solver D) :=
  if conflicts ≥ maxConflicts then some (.unknown, s.backtrack 0) else go s

def solveLoop (assumption : Lit) (maxConflicts : Nat) :
    Nat → Nat → Nat → Solver D → Option (Status × Solver D)
  | 0, _, _, _ => none
  | fuel + 1, baseLvl, conflicts, s =>
    match s.propagate with
    | none => none
    | some (s, some confl) =>
      if s.decisionLevel = 0 then some (.unsat, s.failed)
      else
        match s.analyze confl with
        | none => none
        | some (s, k) =>
          let s := ((s.backtrack k.btLevel).learn k).decayActivities
          if k.btLevel < baseLvl then
            match s.propagate with
            | none => none
            | some (s, some _) => some (.unsat, s.failed)
            | some (s, none) =>
              if s.valueLit assumption = some false then some (.unsat, s.backtrack 0)
              else
                let s := s.assume assumption
                conflictLimit maxConflicts (conflicts + 1) s
                  (solveLoop assumption maxConflicts fuel s.decisionLevel (conflicts + 1))
          else
            conflictLimit maxConflicts (conflicts + 1) s
              (solveLoop assumption maxConflicts fuel baseLvl (conflicts + 1))
    | some (s, none) =>
      match s.pickBranchVar with
      | none => some (.sat, s)
      | some v =>
        solveLoop assumption maxConflicts fuel baseLvl conflicts
          (s.newDecision ⟨v, !s.phase v⟩)

def solveFuel (s : Solver D) (maxConflicts : Nat) : Nat := (maxConflicts + 1) * (s.nVars + 2)

def solveAssuming (s : Solver D) (assumption : Lit) (maxConflicts : Nat) :
    Option (Status × Solver D) :=
  if s.ok = false then some (.unsat, s)
  else
    match (s.backtrack 0).propagate with
    | none => none
    | some (s, some _) => some (.unsat, s.failed)
    | some (s, none) =>
      if s.valueLit assumption = some false then some (.unsat, s)
      else
        let s := s.assume assumption
        solveLoop assumption maxConflicts (s.solveFuel maxConflicts) s.decisionLevel 0 s

def solve (s : Solver D) (maxConflicts : Nat) : Option (Status × Solver D) :=
  s.solveAssuming trueLit maxConflicts

/-! ## Adding clauses -/

/-- The first pass of `add_clause`: `none` when a literal is true, else those without a
value. -/
def dropFalse (value : Lit → Option Bool) : List Lit → Option (List Lit)
  | [] => some []
  | l :: ls =>
    match value l with
    | some true => none
    | some false => dropFalse value ls
    | none => (dropFalse value ls).map (l :: ·)

/-- The second pass, over sorted literals: `none` for a literal next to its negation,
else the literals without repetitions. -/
def dropRepeated : Lit → List Lit → Option (List Lit)
  | _, [] => some []
  | prev, l :: ls =>
    if l = prev.neg then none
    else if l = prev then dropRepeated l ls
    else (dropRepeated l ls).map (l :: ·)

def uniqueLits : List Lit → Option (List Lit)
  | [] => some []
  | l :: ls => (dropRepeated l ls).map (l :: ·)

def sortLits (ls : List Lit) : List Lit := ls.insertionSort (fun a b => a.code ≤ b.code)

/-- A clause of one literal that has no value yet is assigned and propagated. -/
def addUnit (s : Solver D) (l : Lit) : Option (Bool × Solver D) :=
  match s.valueLit l with
  | some false => some (false, s.failed)
  | some true => some (true, s)
  | none =>
    match (s.assign l none).propagate with
    | none => none
    | some (s, some _) => some (false, s.failed)
    | some (s, none) => some (true, s)

/-- `add_clause` on a solver at the root level. -/
def addSimplified (s : Solver D) : List Lit → Option (Bool × Solver D)
  | [] => some (false, s.failed)
  | [l] => s.addUnit l
  | a :: b :: rest => some (true, s.pushClause ⟨a, b, rest⟩)

def addClause (s : Solver D) (lits : List Lit) : Option (Bool × Solver D) :=
  let s := { s with added := lits :: s.added }
  if s.ok = false then some (false, s)
  else
    let s := s.resetToRoot
    match dropFalse s.valueLit lits with
    | none => some (true, s)
    | some lits =>
      match uniqueLits (sortLits lits) with
      | none => some (true, s)
      | some lits => s.addSimplified lits

/-! ## Gates -/

/-- The results of `add_clause` are not looked at by the gates. -/
def addClauses : List (List Lit) → Solver D → Option (Solver D)
  | [], s => some s
  | lits :: rest, s =>
    match s.addClause lits with
    | none => none
    | some (_, s) => addClauses rest s

/-- The key of a gate: its kind (1 for `and`, 2 for `xor`) and its two inputs. -/
def gateKey (kind : Nat) (a b : Lit) : Nat := kind <<< 62 ||| a.code <<< 30 ||| b.code

def ordered (a b : Lit) : Lit × Lit := if a.code > b.code then (b, a) else (a, b)

def setGate (s : Solver D) (key : Nat) (out : Lit) : Solver D :=
  { s with gateCache := Function.update s.gateCache key (some out) }

def andClauses (a b out : Lit) : List (List Lit) :=
  [[a.neg, b.neg, out], [a, out.neg], [b, out.neg]]

def mkAnd (s : Solver D) (a b : Lit) : Option (Lit × Solver D) :=
  if a = falseLit ∨ b = falseLit then some (falseLit, s)
  else if a = trueLit then some (b, s)
  else if b = trueLit then some (a, s)
  else if a = b then some (a, s)
  else if a = b.neg then some (falseLit, s)
  else
    let (a, b) := ordered a b
    match s.gateCache (gateKey 1 a b) with
    | some out => some (out, s)
    | none =>
      let (v, s) := s.newVar
      let out : Lit := ⟨v, false⟩
      ((s.setGate (gateKey 1 a b) out).addClauses (andClauses a b out)).map (fun s => (out, s))

def mkOr (s : Solver D) (a b : Lit) : Option (Lit × Solver D) :=
  (s.mkAnd a.neg b.neg).map (fun r => (r.1.neg, r.2))

def xorClauses (a b out : Lit) : List (List Lit) :=
  [[a.neg, b.neg, out.neg], [a, b, out.neg], [a, b.neg, out], [a.neg, b, out]]

def setXor (s : Solver D) (v : Nat) (a b : Lit) : Solver D :=
  { s with
    xorLhs := Function.update s.xorLhs v (some a)
    xorRhs := Function.update s.xorRhs v (some b) }

/-- If `v` is the output of a `xor` and `u` one of its inputs, the other input. -/
def xorOther (s : Solver D) (v : Nat) (u : Lit) : Option Lit :=
  match s.xorLhs v, s.xorRhs v with
  | some l, some r => if l = u then some r else if r = u then some l else none
  | _, _ => none

def negIf (b : Bool) (l : Lit) : Lit := if b then l.neg else l

def mkXor (s : Solver D) (a b : Lit) : Option (Lit × Solver D) :=
  if a = falseLit then some (b, s)
  else if b = falseLit then some (a, s)
  else if a = trueLit then some (b.neg, s)
  else if b = trueLit then some (a.neg, s)
  else if a = b then some (falseLit, s)
  else if a = b.neg then some (trueLit, s)
  else
    let negOut := a.sign ^^ b.sign
    let ua : Lit := ⟨a.var, false⟩
    let ub : Lit := ⟨b.var, false⟩
    match s.xorOther ua.var ub with
    | some l => some (negIf negOut l, s)
    | none =>
      match s.xorOther ub.var ua with
      | some l => some (negIf negOut l, s)
      | none =>
        let (ua, ub) := ordered ua ub
        match s.gateCache (gateKey 2 ua ub) with
        | some out => some (negIf negOut out, s)
        | none =>
          let (v, s) := s.newVar
          let out : Lit := ⟨v, false⟩
          (((s.setXor v ua ub).setGate (gateKey 2 ua ub) out).addClauses
            (xorClauses ua ub out)).map (fun s => (negIf negOut out, s))

def iteClauses (c t f out : Lit) : List (List Lit) :=
  [[c.neg, t.neg, out], [c.neg, t, out.neg], [c, f.neg, out], [c, f, out.neg]]

def mkIte (s : Solver D) (c t f : Lit) : Option (Lit × Solver D) :=
  if c = trueLit then some (t, s)
  else if c = falseLit then some (f, s)
  else if t = f then some (t, s)
  else if t = trueLit ∧ f = falseLit then some (c, s)
  else if t = falseLit ∧ f = trueLit then some (c.neg, s)
  else
    let (c, t, f) := if c.sign then (c.neg, f, t) else (c, t, f)
    let (v, s) := s.newVar
    let out : Lit := ⟨v, false⟩
    (s.addClauses (iteClauses c t f out)).map (fun s => (out, s))

end Solver

end Brass.Verify.Cdcl
