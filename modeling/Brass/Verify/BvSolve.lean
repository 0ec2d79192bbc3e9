import Brass.Verify.BvBlast
import Brass.Verify.BvCone

/-!
# The solver for bit-vector formulas

`solve_nonzero` of `verify/bv_cdcl.cpp` and the searches it calls
(`verify/bv_concrete_search.cpp`): is there an assignment of the variables for which a node
is not zero? Some assignments are tried first. Then the node is blasted, differences of two
words are refuted bit by bit, and in the end the SAT solver decides.

A run starts with a new SAT solver and ends with its last state, or is `none` if the solver
runs out of fuel.
-/

namespace Brass.Verify.Bv

open Brass.Util Brass.Util.Cnf Brass.Verify.Cdcl

variable {D : Doubles}

namespace Circuit

def addClause (lits : List Lit) : Circuit D Bool := fun s => s.addClause lits

def solveAssuming (assumption : Lit) (maxConflicts : Nat) : Circuit D Status :=
  fun s => s.solveAssuming assumption maxConflicts

def solve (maxConflicts : Nat) : Circuit D Status := fun s => s.solve maxConflicts

end Circuit

open Circuit

/-! ## Blasting a cone -/

def blastStep (ctx : BVContext) (reachable : List Nat) (id : Nat) (bits : List (List Lit)) :
    Circuit D (List (List Lit)) :=
  if id ∈ reachable then do
    let n := ctx.node id
    let out ← blastNode n (bits.getD n.a []) (bits.getD n.b []) (bits.getD n.c [])
    pure (bits.set id out)
  else pure bits

/-- `blast_all`: the literals of each node that the root reaches. -/
def blastAll (ctx : BVContext) (root : Nat) : Circuit D (List (List Lit)) :=
  loop (blastStep ctx (Search.depthFirst ctx.operands ctx.nodes.length root)) ctx.nodes.length
    (List.replicate ctx.nodes.length [])

def readWord (s : Solver D) (ls : List Lit) : U64 :=
  (List.range ls.length).foldl
    (fun val i => if s.valueLit (bitAt ls i) = some true then val ||| (1#64 <<< i) else val) 0

def extractModel (ctx : BVContext) (bits : List (List Lit)) (s : Solver D) : List U64 :=
  ctx.vars.map (fun v => readWord s (bits.getD v.nodeId []))

/-! ## The concrete search -/

namespace BVContext

def var (ctx : BVContext) (i : Nat) : BVVarInfo := ctx.vars.getD i ⟨"", 64, 0, false⟩

def zeroModel (ctx : BVContext) : List U64 := List.replicate ctx.vars.length 0

/-- `check`: the node is not zero under the assignment. -/
def satisfies (ctx : BVContext) (root : Nat) (model : List U64) : Bool :=
  (ctx.evaluateCone (ctx.computeCone root) model (List.replicate ctx.nodes.length 0)).getD root 0 != 0

def assignVar (ctx : BVContext) (model : List U64) (vi : Nat) (value : U64) : List U64 :=
  model.set vi (value &&& widthMask (ctx.var vi).width)

def assignAll (ctx : BVContext) (vars : List Nat) (model : List U64) (value : U64) : List U64 :=
  vars.foldl (fun m vi => ctx.assignVar m vi value) model

end BVContext

def baseCandidates : List U64 :=
  [0, 1, 2, 3, 4, 7, 8, 15, 16, 31, 32, 63, 64, 127, 128, 255, 256, 0x7FFFFFFF, 0x80000000,
    0xFFFFFFFF, 0x7FFFFFFFFFFFFFFF, 0x8000000000000000, 0xFFFFFFFFFFFFFFFF, -1, -2, -8]

/-- `fp_interesting`: 0, 1, 0.5 and 2 with both signs, the infinities and a NaN, in both
formats. -/
def fpCandidates : List U64 :=
  [0, 0, 0x8000000000000000, 0x80000000, 0x3FF0000000000000, 0x3F800000,
    0xBFF0000000000000, 0xBF800000, 0x3FE0000000000000, 0x3F000000,
    0xBFE0000000000000, 0xBF000000, 0x4000000000000000, 0x40000000,
    0xC000000000000000, 0xC0000000, 0x7FF0000000000000, 0x7F800000,
    0xFFF0000000000000, 0xFF800000, 0x7FF8000000000000, 0x7FC00000]

/-- The values around a constant, as long as there are fewer than 48 candidates. -/
def addConstant (cands : List U64) (n : BVNode) : List U64 :=
  if cands.length < 48 ∧ n.op = .const ∧ n.width > 1 then
    let sv := signExtendBits n.imm n.width
    cands ++ [n.imm, n.imm + 1, n.imm - 1, ~~~n.imm, BitVec.ofInt 64 sv, BitVec.ofInt 64 (sv - 1),
      BitVec.ofInt 64 (sv + 1)]
  else cands

def candidates (ctx : BVContext) (cone vars : List Nat) : List U64 :=
  let cands := baseCandidates ++ if vars.any (fun vi => (ctx.var vi).isFloat) then fpCandidates else []
  let cands := (cone.map ctx.node).foldl addConstant cands
  (cands.insertionSort (fun a b => a.toNat ≤ b.toNat)).eraseReps

/-- One variable after the other runs through the first candidates. -/
def sweepModels (ctx : BVContext) (vars : List Nat) (cands : List U64) : List (List U64) :=
  [0, BitVec.allOnes 64, 1].flatMap (fun background =>
    let model := ctx.assignAll vars ctx.zeroModel background
    (vars.take 6).flatMap (fun vi => (cands.take 24).map (ctx.assignVar model vi)))

def orderedPairs {α : Type} : List α → List (α × α)
  | [] => []
  | x :: xs => xs.map (fun y => (x, y)) ++ orderedPairs xs

def pairModels (ctx : BVContext) (vars : List Nat) (cands : List U64) : List (List U64) :=
  (orderedPairs (vars.take 3)).flatMap (fun v =>
    (cands.take 16).flatMap (fun ci =>
      (cands.take 16).map (ctx.assignVar (ctx.assignVar ctx.zeroModel v.1 ci) v.2)))

/-- The next random number, and the new state of the generator. -/
def nextRng (rng : U64) : U64 × U64 :=
  let rng := rng ^^^ (rng >>> 12)
  let rng := rng ^^^ (rng <<< 25)
  let rng := rng ^^^ (rng >>> 27)
  (rng * 0x2545F4914F6CDD1D, rng)

def pickCandidate (cands : List U64) (rng : U64) : U64 × U64 :=
  let r := nextRng rng
  if r.1 &&& 3 ≠ 0 ∧ cands ≠ [] then (cands.getD ((r.1 >>> 8).toNat % cands.length) 0, r.2)
  else nextRng r.2

/-- `n` assignments: each variable gets the value that `pick` returns. -/
def randomModels (ctx : BVContext) (vars : List Nat) (pick : U64 → U64 × U64) :
    Nat → U64 → List U64 → List (List U64)
  | 0, _, _ => []
  | n + 1, rng, model =>
    let r := vars.foldl (fun (st : List U64 × U64) vi =>
      (ctx.assignVar st.1 vi (pick st.2).1, (pick st.2).2)) (model, rng)
    r.1 :: randomModels ctx vars pick n r.2 r.1

/-- The assignments that the search tries, in this order. -/
def searchModels (ctx : BVContext) (root : Nat) : List (List U64) :=
  let cone := ctx.computeCone root
  let vars := ctx.coneVars cone
  let cands := candidates ctx cone vars
  ctx.zeroModel ::
    if vars = [] then []
    else
      cands.map (ctx.assignAll vars ctx.zeroModel) ++ sweepModels ctx vars cands ++
        (if cone.length ≤ 32 ∧ vars.length ≤ 4 then pairModels ctx vars cands else []) ++
        randomModels ctx vars (pickCandidate cands) (if cone.length ≤ 32 then 32 else 12)
          0x9E3779B97F4A7C15 ctx.zeroModel

def tryConcreteSearch (ctx : BVContext) (root : Nat) : Option (List U64) :=
  (searchModels ctx root).find? (ctx.satisfies root)

/-! ## Checks of an `Unsat` answer -/

def sampleValues : List U64 :=
  [0, 1, 2, 3, 4, 7, 8, 15, 16, 31, 32, 63, 64, 127, 128, 255, 0x7FFFFFFF, 0x80000000, 0xFFFFFFFF,
    0x7FFFFFFFFFFFFFFF, 0x8000000000000000, BitVec.allOnes 64]

def pickSample (rng : U64) : U64 × U64 :=
  let r := nextRng rng
  if r.1 &&& 1 ≠ 0 then (sampleValues.getD ((r.1 >>> 8).toNat % sampleValues.length) 0, r.2)
  else nextRng r.2

/-- `debug_verify_unsat_samples`: a sample that satisfies the node. -/
def sampleSatisfies (ctx : BVContext) (root : Nat) : Bool :=
  let vars := ctx.coneVars (ctx.computeCone root)
  let seed := 0xD1B54A32D192ED03 ^^^ (BitVec.ofNat 64 root * 0x9E3779B97F4A7C15)
  ctx.satisfies root ctx.zeroModel ||
    (vars != [] && (randomModels ctx vars pickSample 32 seed ctx.zeroModel).any (ctx.satisfies root))

/-! ## The solver -/

/-- The operands of a tree of `And` nodes of width 1. The stack of the source takes the second
operand first. -/
def conjuncts (ctx : BVContext) : Nat → Nat → List Nat
  | 0, u => [u]
  | fuel + 1, u =>
    let n := ctx.node u
    if n.op = .and ∧ n.width = 1 then conjuncts ctx fuel n.b ++ conjuncts ctx fuel n.a else [u]

/-- `Not` of width 1 -/
def isNegation (ctx : BVContext) (u : Nat) : Bool := (ctx.node u).op = .not ∧ (ctx.node u).width = 1

/-- A conjunct is the constant 0, or a conjunct and its negation occur. -/
def contradicts (ctx : BVContext) (root : Nat) : Bool :=
  let leaves := conjuncts ctx (root + 1) root
  let pos := leaves.filter (fun u => !isNegation ctx u)
  let neg := (leaves.filter (isNegation ctx)).map (fun u => (ctx.node u).a)
  leaves.any (fun u => (ctx.node u).op = .const ∧ (ctx.node u).imm = 0) || pos.any (· ∈ neg)

def isInequality (ctx : BVContext) (u : Nat) : Bool :=
  isNegation ctx u && (ctx.node (ctx.node u).a).op = .eq &&
    ctx.width (ctx.node (ctx.node u).a).a > 1

/-- The `Eq` node of the first inequality, and the other conjuncts. -/
def splitInequality (ctx : BVContext) (root : Nat) : Option Nat × List Nat :=
  (conjuncts ctx (root + 1) root).foldl
    (fun st u =>
      if st.1 = none ∧ isInequality ctx u = true then (some (ctx.node u).a, st.2)
      else (st.1, st.2 ++ [u]))
    (none, [])

/-- False as soon as a clause contradicts the others. -/
def assertLits : List Lit → Circuit D Bool
  | [] => pure true
  | l :: ls => do
    let ok ← addClause [l]
    if ok = true then assertLits ls else pure false

/-- The words agree in one bit after the other; false if that is not shown of some bit. -/
def refuteBits (maxConflicts : Nat) : List (Lit × Lit) → Circuit D Bool
  | [] => pure true
  | p :: ps => do
    let diff ← mkXor p.1 p.2
    let status ← solveAssuming diff maxConflicts
    if status = .unsat then do
      let ok ← addClause [diff.neg]
      if ok = true then refuteBits maxConflicts ps else pure true
    else pure false

/-- The shortcut for `lhs != rhs` under a domain: true if the answer is `Unsat`. -/
def refuteInequality (ctx : BVContext) (root : Nat) (bits : List (List Lit)) (maxConflicts : Nat) :
    Circuit D Bool :=
  match splitInequality ctx root with
  | (none, _) => pure false
  | (some e, domain) => do
    let ok ← assertLits (domain.map (fun d => bitAt (bits.getD d []) 0))
    if ok = true then
      let ba := bits.getD (ctx.node e).a []
      let bb := bits.getD (ctx.node e).b []
      refuteBits maxConflicts ((List.range ba.length).map (fun i => (bitAt ba i, bitAt bb i)))
    else pure true

/-- `std::abort` is the end of the program, not an answer. -/
inductive SolveResult where
  | unsat
  | sat (model : List U64)
  | unknown
  | abort
  deriving DecidableEq, Repr

/-- The node is asserted, and the SAT solver decides. -/
def solveBlasted (ctx : BVContext) (root : Nat) (bits : List (List Lit)) (maxConflicts : Nat)
    (strict : Bool) : Circuit D SolveResult := do
  let rootBits := bits.getD root []
  let rootLit ← loop (fun i acc => mkOr acc (bitAt rootBits i)) rootBits.length falseLit
  let ok ← addClause [rootLit]
  if ok = false then pure .unsat
  else do
    let status ← solve maxConflicts
    match status with
    | .unsat => pure .unsat
    | .unknown => pure .unknown
    | .sat => do
      let s ← get
      let model := extractModel ctx bits s
      if evalConcrete ctx.nodes root model ≠ 0 then pure (.sat model)
      else if strict = true then pure .abort
      else pure .unknown

/-- `solve_nonzero_impl`. No operator is unsupported here. -/
def solveNonzeroImpl (ctx : BVContext) (root maxConflicts : Nat) (strict : Bool) :
    Circuit D SolveResult :=
  let n := ctx.node root
  if n.op = .const then
    if n.imm = 0 then pure .unsat else pure (.sat ctx.zeroModel)
  else if n.width = 1 ∧ n.op = .and ∧ contradicts ctx root = true then pure .unsat
  else
    match tryConcreteSearch ctx root with
    | some model => pure (.sat model)
    | none => do
      let bits ← blastAll ctx root
      let refuted ←
        if n.width = 1 then refuteInequality ctx root bits maxConflicts else pure false
      if refuted = true then pure .unsat else solveBlasted ctx root bits maxConflicts strict

/-- `strict` is `strict_solver_check_enabled()`: an `Unsat` is checked against samples. -/
def solveNonzero (ctx : BVContext) (root maxConflicts : Nat) (strict : Bool) :
    Circuit D SolveResult := do
  let r ← solveNonzeroImpl ctx root maxConflicts strict
  if r = .unsat ∧ strict = true ∧ root < ctx.nodes.length ∧ sampleSatisfies ctx root = true then
    pure .abort
  else pure r

end Brass.Verify.Bv
