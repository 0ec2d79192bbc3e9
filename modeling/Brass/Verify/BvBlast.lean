import Brass.Verify.BvNode
import Brass.Verify.CdclSolver

/-!
# Bit blasting

`BitBlaster` of `verify/bv_cdcl.cpp`: every node that the root reaches becomes a list of
literals, the lowest bit first. A circuit is a program over the state of the SAT solver; it
is `none` when the solver runs out of fuel, which does not happen (`BvCircuit`).
-/

namespace Brass.Verify.Bv

open Brass.Util.Cnf Brass.Verify.Cdcl

variable {D : Doubles}

abbrev Circuit (D : Doubles) := StateT (Solver D) Option

namespace Circuit

def mkAnd (a b : Lit) : Circuit D Lit := fun s => s.mkAnd a b

def mkOr (a b : Lit) : Circuit D Lit := fun s => s.mkOr a b

def mkXor (a b : Lit) : Circuit D Lit := fun s => s.mkXor a b

def mkIte (c t f : Lit) : Circuit D Lit := fun s => s.mkIte c t f

def newVar : Circuit D Nat := fun s => some s.newVar

/-- `for (i = 0; i < n; ++i) acc = f(i, acc)` -/
def loop {α : Type} (f : Nat → α → Circuit D α) : Nat → α → Circuit D α
  | 0, acc => pure acc
  | n + 1, acc => do
    let acc ← loop f n acc
    f n acc

/-- A vector of `n` literals, filled from the first place on. -/
def build (f : Nat → Circuit D Lit) (n : Nat) : Circuit D (List Lit) :=
  loop (fun i out => do
    let l ← f i
    pure (out ++ [l])) n []

end Circuit

open Circuit

def bitAt (v : List Lit) (i : Nat) : Lit := v.getD i falseLit

def constLit (b : Bool) : Lit := if b then trueLit else falseLit

def constBits (w value : Nat) : List Lit := (List.range w).map (fun i => constLit (value.testBit i))

def zeros (w : Nat) : List Lit := List.replicate w falseLit

/-! ## Circuits -/

structure Adder where
  sum : List Lit
  carry : Lit
  /-- `cin_last`: the carry into the last bit -/
  cinLast : Lit

/-- One bit of `add_adder`. The carry out of the last bit is only built on demand. -/
def addBit (a b : List Lit) (w : Nat) (wantCout : Bool) (i : Nat) (r : Adder) : Circuit D Adder := do
  let ai := bitAt a i
  let bi := bitAt b i
  let cinLast := if i + 1 = w then r.carry else r.cinLast
  let axb ← mkXor ai bi
  let s ← mkXor axb r.carry
  if i + 1 < w ∨ wantCout = true then do
    let ab ← mkAnd ai bi
    let c ← mkAnd r.carry axb
    let carry ← mkOr ab c
    pure ⟨r.sum ++ [s], carry, cinLast⟩
  else pure ⟨r.sum ++ [s], r.carry, cinLast⟩

def addAdder (a b : List Lit) (cin : Lit) (wantCout : Bool) : Circuit D Adder :=
  let w := max a.length b.length
  loop (addBit a b w wantCout) w ⟨[], cin, falseLit⟩

def blastCondNeg (a : List Lit) (cond : Lit) : Circuit D (List Lit) := do
  let flipped ← build (fun i => mkXor (bitAt a i) cond) a.length
  let r ← addAdder flipped (zeros a.length) cond false
  pure r.sum

/-- The partial product of bit `i`, and whether a bit of it is lost. -/
def umulPartial (ba : List Lit) (bi : Lit) (w i : Nat) (ovf : Lit) : Circuit D (List Lit × Lit) :=
  loop (fun j r => do
    let l ← mkAnd (bitAt ba j) bi
    if i + j < w then pure (r.1.set (i + j) l, r.2)
    else do
      let ovf ← mkOr r.2 l
      pure (r.1, ovf)) w (zeros w, ovf)

/-- `blast_umul` with an overflow flag: the sum so far and the flag. -/
def blastUmul (ba bb : List Lit) : Circuit D (List Lit × Lit) :=
  let w := max ba.length bb.length
  loop (fun i r =>
    let bi := bitAt bb i
    if bi = falseLit then pure r
    else do
      let p ← umulPartial ba bi w i r.2
      let next ← addAdder r.1 p.1 falseLit true
      let ovf ← mkOr p.2 next.carry
      pure (next.sum, ovf)) w (zeros w, falseLit)

structure Division where
  quot : List Lit
  rem : List Lit

/-- One step of the division: the next bit of the dividend is shifted into the remainder,
and the divisor is subtracted if it fits. -/
def divisionStep (ba nbExt : List Lit) (bNz : Lit) (w step : Nat) (r : Division) :
    Circuit D Division := do
  let i := w - 1 - step
  let rSh := bitAt ba i :: (List.range w).map (bitAt r.rem)
  let diff ← addAdder rSh nbExt trueLit true
  let q ← mkAnd bNz diff.carry
  let rem ← build (fun j => mkIte diff.carry (bitAt diff.sum j) (bitAt rSh j)) w
  pure ⟨r.quot.set i q, rem⟩

def blastUdivUrem (ba bb : List Lit) : Circuit D Division := do
  let w := max ba.length bb.length
  let bNz ← loop (fun j acc => mkOr acc (bitAt bb j)) w falseLit
  let nbExt := (List.range w).map (fun j => (bitAt bb j).neg) ++ [trueLit]
  let r ← loop (divisionStep ba nbExt bNz w) w ⟨zeros w, zeros w⟩
  let rem ← build (fun j => mkAnd bNz (bitAt r.rem j)) w
  pure ⟨r.quot, rem⟩

def notBits (b : List Lit) (w : Nat) : List Lit := (List.range w).map (fun i => (bitAt b i).neg)

def blastUlt (a b : List Lit) : Circuit D Lit := do
  let w := max a.length b.length
  let r ← addAdder a (notBits b w) trueLit true
  pure r.carry.neg

def flipSign (a : List Lit) (w : Nat) : List Lit :=
  let sa := (List.range w).map (bitAt a)
  sa.set (w - 1) (bitAt sa (w - 1)).neg

def blastSlt (a b : List Lit) : Circuit D Lit :=
  let w := max a.length b.length
  if w = 0 then pure falseLit else blastUlt (flipSign a w) (flipSign b w)

def blastEq (a b : List Lit) : Circuit D Lit :=
  let w := max a.length b.length
  loop (fun i acc => do
    let x ← mkXor (bitAt a i) (bitAt b i)
    mkAnd acc x.neg) w trueLit

/-! ## The cases of `blast_all` -/

/-- `mul_half`: the bits of `ba` from `jaOff` on, times the lowest `ibLim` bits of `bb`. -/
def mulHalf (ba bb : List Lit) (w jaOff jaLen ibLim : Nat) : Circuit D (List Lit) :=
  loop (fun i acc =>
    if bitAt bb i = falseLit then pure acc
    else do
      let part ← loop (fun j part =>
        if i + j < w then do
          let l ← mkAnd (bitAt ba (jaOff + j)) (bitAt bb i)
          pure (part.set (i + j) l)
        else pure part) jaLen (zeros w)
      let next ← addAdder acc part falseLit false
      pure next.sum) ibLim (zeros w)

/-- Products of 32 bits are split at the middle of the first factor. -/
def blastMul (ba bb : List Lit) (w : Nat) : Circuit D (List Lit) :=
  if w = 32 ∧ (List.range 16).any (fun j => bitAt ba (16 + j) != falseLit) = true then do
    let lo ← mulHalf ba bb w 0 16 32
    let hi ← mulHalf ba bb w 16 16 16
    let hiSh := zeros 16 ++ (List.range 16).map (bitAt hi)
    let r ← addAdder lo hiSh falseLit false
    pure r.sum
  else mulHalf ba bb w 0 w w

def blastSigned (op : BVOp) (ba bb : List Lit) (w : Nat) : Circuit D (List Lit) := do
  let signA := bitAt ba (w - 1)
  let signB := bitAt bb (w - 1)
  let absA ← blastCondNeg ba signA
  let absB ← blastCondNeg bb signB
  let r ← blastUdivUrem absA absB
  if op = .sdiv then do
    let sign ← mkXor signA signB
    blastCondNeg r.quot sign
  else blastCondNeg r.rem signA

def shiftStage (op : BVOp) (sh : List Lit) (w s : Nat) (cur : List Lit) : Circuit D (List Lit) :=
  if s < sh.length ∧ (shiftMask w).testBit s = true ∧ bitAt sh s ≠ falseLit then
    let step := 2 ^ s
    let fill := if op = .ashr then bitAt cur (w - 1) else falseLit
    build (fun i =>
      let shifted :=
        if op = .shl then (if i ≥ step then bitAt cur (i - step) else falseLit)
        else if i + step < w then bitAt cur (i + step) else fill
      mkIte (bitAt sh s) shifted (bitAt cur i)) w
  else pure cur

def blastShift (op : BVOp) (a sh : List Lit) (w : Nat) : Circuit D (List Lit) :=
  loop (shiftStage op sh w) 6 a

/-- The bits `bit 0`, `bit 1`, … are visited in turn. The last one that is set gives the
value, which is `w` if no bit is set. -/
def selectBit (ba : List Lit) (w : Nat) (bit value : Nat → Nat) : Circuit D (List Lit) :=
  loop (fun k cur =>
    build (fun j => mkIte (bitAt ba (bit k)) (constLit ((value k).testBit j)) (bitAt cur j)) w)
    w (constBits w w)

def blastClz (ba : List Lit) (w : Nat) : Circuit D (List Lit) :=
  selectBit ba w (fun k => k) (fun k => w - 1 - k)

def blastCtz (ba : List Lit) (w : Nat) : Circuit D (List Lit) :=
  selectBit ba w (fun k => w - 1 - k) (fun k => w - 1 - k)

def blastPopcnt (ba : List Lit) (w : Nat) : Circuit D (List Lit) :=
  loop (fun bit acc => do
    let next ← addAdder acc ((zeros w).set 0 (bitAt ba bit)) falseLit false
    pure next.sum) w (zeros w)

def blastSmulOvf (ba bb : List Lit) : Circuit D Lit := do
  let aw := ba.length
  let signA := bitAt ba (aw - 1)
  let signB := bitAt bb (aw - 1)
  let absA ← blastCondNeg ba signA
  let absB ← blastCondNeg bb signB
  let prod ← blastUmul absA absB
  let diff ← mkXor signA signB
  let lowNz ← loop (fun i acc => mkOr acc (bitAt prod.1 i)) (aw - 1) falseLit
  let bad ← mkOr diff.neg lowNz
  let msbBad ← mkAnd (bitAt prod.1 (aw - 1)) bad
  mkOr prod.2 msbBad

/-- The literals of a node: `ba`, `bb` and `bc` are those of its operands. -/
def blastNode (n : BVNode) (ba bb bc : List Lit) : Circuit D (List Lit) :=
  let w := n.width
  -- `out` has `w` places, and a predicate sets the first one.
  let flag (l : Lit) : List Lit := (zeros w).set 0 l
  match n.op with
  | .const => pure (constBits w n.imm.toNat)
  | .var => build (fun _ => do
      let v ← newVar
      pure ⟨v, false⟩) w
  | .extract => pure ((List.range w).map (fun i => bitAt ba (n.extra + i)))
  | .concat => pure ((List.range w).map (fun i =>
      if i < bb.length then bitAt bb i else bitAt ba (i - bb.length)))
  | .zext => pure ((List.range w).map (bitAt ba))
  | .sext => pure ((List.range w).map (fun i =>
      if i < ba.length then bitAt ba i else bitAt ba (ba.length - 1)))
  | .not => pure (notBits ba w)
  | .neg => blastCondNeg ba trueLit
  | .and => build (fun i => mkAnd (bitAt ba i) (bitAt bb i)) w
  | .or => build (fun i => mkOr (bitAt ba i) (bitAt bb i)) w
  | .xor => build (fun i => mkXor (bitAt ba i) (bitAt bb i)) w
  | .add => do
    let r ← addAdder ba bb falseLit false
    pure r.sum
  | .sub => do
    let r ← addAdder ba (notBits bb w) trueLit false
    pure r.sum
  | .mul => blastMul ba bb w
  | .udiv => do
    let r ← blastUdivUrem ba bb
    pure r.quot
  | .urem => do
    let r ← blastUdivUrem ba bb
    pure r.rem
  | .sdiv => blastSigned .sdiv ba bb w
  | .srem => blastSigned .srem ba bb w
  | .shl => blastShift .shl ba bb w
  | .lshr => blastShift .lshr ba bb w
  | .ashr => blastShift .ashr ba bb w
  | .eq => do
    let l ← blastEq ba bb
    pure (flag l)
  | .ne => do
    let l ← blastEq ba bb
    pure (flag l.neg)
  | .ult => do
    let l ← blastUlt ba bb
    pure (flag l)
  | .ule => do
    let l ← blastUlt bb ba
    pure (flag l.neg)
  | .ugt => do
    let l ← blastUlt bb ba
    pure (flag l)
  | .uge => do
    let l ← blastUlt ba bb
    pure (flag l.neg)
  | .slt => do
    let l ← blastSlt ba bb
    pure (flag l)
  | .sle => do
    let l ← blastSlt bb ba
    pure (flag l.neg)
  | .sgt => do
    let l ← blastSlt bb ba
    pure (flag l)
  | .sge => do
    let l ← blastSlt ba bb
    pure (flag l.neg)
  | .ite => build (fun i => mkIte (bitAt ba 0) (bitAt bb i) (bitAt bc i)) w
  | .clz => blastClz ba w
  | .ctz => blastCtz ba w
  | .popcnt => blastPopcnt ba w
  | .uaddOvf => do
    let r ← addAdder ba bb falseLit true
    pure (flag r.carry)
  | .usubOvf => do
    let l ← blastUlt ba bb
    pure (flag l)
  | .umulOvf => do
    let r ← blastUmul ba bb
    pure (flag r.2)
  | .saddOvf => do
    let r ← addAdder ba bb falseLit true
    let l ← mkXor r.carry r.cinLast
    pure (flag l)
  | .ssubOvf => do
    let r ← addAdder ba (notBits bb ba.length) trueLit true
    let l ← mkXor r.carry r.cinLast
    pure (flag l)
  | .smulOvf => do
    let l ← blastSmulOvf ba bb
    pure (flag l)

end Brass.Verify.Bv
