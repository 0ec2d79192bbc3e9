import Brass.Util.Recursion
import Brass.Verify.BvContext

/-!
# The simplifying constructors

`make_extract`, `make_concat`, `make_zext`, `make_sext`, `make_unary`, `make_binary` and
`make_ite` of `verify/bv_solver.cpp`, and the expansion of divisions by constants of
`mir/gpu_superopt.cpp`. They call each other, so they are programs over the calls of `Call`
(`Brass.Util.Prog`), and `body` says what each call does.

A constructor reads the table when it is entered: existing nodes never change, so it makes
no difference that the source reads some of them after a recursive call. Where the source
leaves the order of two calls open (they are arguments of one call), the first argument is
built first.

Each operator of `make_binary` has its rules in a definition of its own, which is `none`
when no rule applies and the node is interned as it is.
-/

namespace Brass.Verify.Bv

open Brass.Util

inductive Call where
  | extract (a hi lo : Nat)
  | concat (hi lo : Nat)
  | zext (a extBits : Nat)
  | sext (a extBits : Nat)
  | unary (op : BVOp) (a resWidth : Nat)
  | binary (op : BVOp) (a b resWidth : Nat)
  | ite (cond tVal fVal : Nat)
  deriving DecidableEq, Repr

abbrev Make := Prog Call Nat BVContext

namespace Make

def state (f : BVContext → Nat × BVContext) : Make Nat := do
  let ctx ← Prog.getState
  Prog.setState (f ctx).2
  pure (f ctx).1

def intern (n : BVNode) : Make Nat := state (fun ctx => ctx.intern n)

def const (val : U64) (width : Nat) : Make Nat := state (fun ctx => ctx.makeConst val width)

def extract (a hi lo : Nat) : Make Nat := Prog.callOf (.extract a hi lo)
def concat (hi lo : Nat) : Make Nat := Prog.callOf (.concat hi lo)
def zext (a extBits : Nat) : Make Nat := Prog.callOf (.zext a extBits)
def sext (a extBits : Nat) : Make Nat := Prog.callOf (.sext a extBits)
def unary (op : BVOp) (a w : Nat) : Make Nat := Prog.callOf (.unary op a w)
def binary (op : BVOp) (a b w : Nat) : Make Nat := Prog.callOf (.binary op a b w)
def ite (cond tVal fVal : Nat) : Make Nat := Prog.callOf (.ite cond tVal fVal)

end Make

open Make

/-! ## Extraction, concatenation, extension -/

def isLowBitsOp (op : BVOp) : Bool :=
  op == .and || op == .or || op == .xor || op == .add || op == .sub || op == .mul

def makeExtract (ctx : BVContext) (a hi lo : Nat) : Make Nat :=
  let na := ctx.node a
  let w := hi - lo + 1
  let wMask := widthMask w
  if lo = 0 ∧ hi + 1 = na.width then pure a
  else if na.op = .const then const ((na.imm >>> lo) &&& wMask) w
  else if ((ctx.interval a).knownZeros >>> lo) &&& wMask = wMask then const 0 w
  else if na.op = .ite then do
    let t ← extract na.b hi lo
    let f ← extract na.c hi lo
    ite na.a t f
  else if na.op = .extract then extract na.a (na.extra + hi) (na.extra + lo)
  else if (na.op = .zext ∨ na.op = .sext) ∧ hi < ctx.width na.a then extract na.a hi lo
  else if na.op = .zext ∧ lo ≥ ctx.width na.a then const 0 w
  else if na.op = .concat ∧ hi < ctx.width na.b then extract na.b hi lo
  else if na.op = .concat ∧ lo ≥ ctx.width na.b then
    extract na.a (hi - ctx.width na.b) (lo - ctx.width na.b)
  else if lo = 0 ∧ isLowBitsOp na.op then do
    let x ← extract na.a hi 0
    let y ← extract na.b hi 0
    binary na.op x y w
  else if lo = 0 ∧ na.op = .shl ∧ (ctx.node na.b).op = .const ∧
      ((ctx.node na.b).imm &&& BitVec.ofNat 64 (shiftMask na.width)).toNat < w then do
    let x ← extract na.a hi 0
    let y ← const ((ctx.node na.b).imm &&& BitVec.ofNat 64 (shiftMask na.width)) w
    binary .shl x y w
  else intern { op := .extract, width := w, a := a, imm := BitVec.ofNat 64 hi, extra := lo }

def makeConcat (ctx : BVContext) (hi lo : Nat) : Make Nat :=
  let nhi := ctx.node hi
  let nlo := ctx.node lo
  let w := nhi.width + nlo.width
  if nhi.op = .const ∧ nlo.op = .const then
    const (((nhi.imm &&& widthMask nhi.width) <<< nlo.width) ||| (nlo.imm &&& widthMask nlo.width)) w
  else if nhi.op = .const ∧ nhi.imm = 0 then zext lo nhi.width
  else if nhi.op = .extract ∧ nlo.op = .extract ∧ nhi.a = nlo.a ∧
      nlo.imm + 1 = BitVec.ofNat 64 nhi.extra then
    extract nhi.a nhi.imm.toNat nlo.extra
  else intern { op := .concat, width := w, a := hi, b := lo }

def makeZext (ctx : BVContext) (a extBits : Nat) : Make Nat :=
  let na := ctx.node a
  let w := na.width + extBits
  if extBits = 0 then pure a
  else if na.op = .const then const (na.imm &&& widthMask na.width) w
  else if na.op = .zext then zext na.a (na.extra + extBits)
  else if na.op = .extract ∧ na.extra = 0 ∧ ctx.width na.a = w then do
    let m ← const (widthMask na.width) w
    binary .and na.a m w
  else intern { op := .zext, width := w, a := a, extra := extBits }

def makeSext (ctx : BVContext) (a extBits : Nat) : Make Nat :=
  let na := ctx.node a
  let w := na.width + extBits
  if extBits = 0 then pure a
  else if na.op = .const then const (BitVec.ofInt 64 (signExtendBits na.imm na.width)) w
  else if na.op = .sext then sext na.a (na.extra + extBits)
  else if na.op = .zext then zext na.a (na.extra + extBits)
  else if (ctx.interval a).smin ≥ 0 then zext a extBits
  else intern { op := .sext, width := w, a := a, extra := extBits }

/-! ## Unary operators -/

def makeUnary (ctx : BVContext) (op : BVOp) (a resWidth : Nat) : Make Nat :=
  let na := ctx.node a
  let w := if resWidth ≠ 0 then resWidth else na.width
  if na.op = .const then
    const (evalNodeConcrete ctx.nodes { op := op, width := w, a := a } na.imm 0 0) w
  else if op = .not ∧ na.op = .not then pure na.a
  else if op = .neg then do
    let z ← const 0 w
    binary .sub z a w
  else intern { op := op, width := w, a := a }

/-! ## Division by constants -/

structure MagicConstU32 where
  multiplier : Nat := 0
  preShift : Nat := 0
  postShift : Nat := 0
  needsAdd : Bool := false
  deriving DecidableEq, Repr

/-- The distance from `2 ^ (32 + s)` to the next multiple of `dp`. -/
def magicDelta (dp s : Nat) : Nat := if 2 ^ (32 + s) % dp = 0 then 0 else dp - 2 ^ (32 + s) % dp

/-- The first shift for which the rounded multiplier is exact on all `x ≤ xmax`. -/
def magicShift (dp xmax : Nat) : Option Nat :=
  (List.range 32).find? (fun s => decide ((xmax - (xmax + 1) % dp) * magicDelta dp s < 2 ^ (32 + s)))

def magicMultiplier (dp s : Nat) : Nat := (2 ^ (32 + s) + magicDelta dp s) / dp

/-- `try_no_add`: the multiplier and the shift that were found, whether they fit or not. -/
def magicSearch (d preSh : Nat) : Nat × Nat :=
  match magicShift (d / 2 ^ preSh) ((2 ^ 32 - 1) / 2 ^ preSh) with
  | none => (0, 0)
  | some s => (magicMultiplier (d / 2 ^ preSh) s, s)

/-- The search found a multiplier of 32 bits. -/
def magicFits (d preSh : Nat) : Bool :=
  match magicShift (d / 2 ^ preSh) ((2 ^ 32 - 1) / 2 ^ preSh) with
  | none => false
  | some s => magicMultiplier (d / 2 ^ preSh) s ≤ 2 ^ 32 - 1

def computeMagicConstU32 (d : Nat) : MagicConstU32 :=
  if d ≤ 1 then { multiplier := 1 }
  else
    let r := magicSearch d 0
    let tz := countrZero (BitVec.ofNat 64 d)
    let r' := magicSearch d tz
    if magicFits d 0 then ⟨r.1, 0, r.2, false⟩
    else if tz > 0 ∧ magicFits d tz then ⟨r'.1, tz, r'.2, false⟩
    else ⟨(r.1 + (2 ^ 64 - 2 ^ 32)) % 2 ^ 64 % 2 ^ 32, 0, r.2, true⟩

/-- A shift by a constant amount, which is left out when the amount is 0. -/
def shiftDown (x k : Nat) : Make Nat :=
  if k > 0 then do
    let s ← const (BitVec.ofNat 64 k) 32
    binary .lshr x s 32
  else pure x

def buildMagicUdivU32 (a : Nat) (mag : MagicConstU32) : Make Nat := do
  let x ← shiftDown a mag.preShift
  let x64 ← zext x 32
  let m ← const (BitVec.ofNat 64 mag.multiplier) 64
  let prod64 ← binary .mul x64 m 64
  let hi32 ← extract prod64 63 32
  if mag.needsAdd = false then shiftDown hi32 mag.postShift
  else do
    let t ← binary .sub x hi32 32
    let one ← const 1 32
    let t2 ← binary .lshr t one 32
    let t3 ← binary .add t2 hi32 32
    shiftDown t3 (mag.postShift - 1)

/-- The quotient or remainder of `a` by a positive constant, from the one of `|a|`:
`mk` builds it for an operand that is not negative. -/
def signedByUnsigned (a w : Nat) (mk : Nat → Make Nat) : Make Nat := do
  let z ← const 0 w
  let nonNeg ← binary .sge a z 1
  let pos ← mk a
  let negA ← unary .neg a w
  let q ← mk negA
  let neg ← unary .neg q w
  ite nonNeg pos neg

/-- `q * b` taken from `x`, where `q` is the quotient by magic multiplication. -/
def magicRem (b : Nat) (mag : MagicConstU32) (x : Nat) : Make Nat := do
  let q ← buildMagicUdivU32 x mag
  let p ← binary .mul q b 32
  binary .sub x p 32

/-- `std::has_single_bit(d)` and `static_cast<int32_t>(d) > 1` for a divisor of 32 bits. -/
def magicDivisor (signed : Bool) (d : Nat) : Bool :=
  (if signed then decide (1 < d ∧ d < 2 ^ 31) else decide (1 < d)) && !hasSingleBit (BitVec.ofNat 64 d)

def expandDiv (ctx : BVContext) (signed : Bool) (a b w : Nat) : Make (Option Nat) :=
  let cb := ctx.node b
  let sh := countrZero cb.imm
  let d := (cb.imm &&& 0xFFFFFFFF).toNat
  if cb.op = .const ∧ cb.imm = 1 then pure (some a)
  else if a = b ∧ (ctx.interval b).umin > 0 then some <$> const 1 w
  else if cb.op = .const ∧ hasSingleBit cb.imm ∧ signed = false then do
    let s ← const (BitVec.ofNat 64 sh) w
    some <$> binary .lshr a s w
  else if cb.op = .const ∧ hasSingleBit cb.imm ∧ sh > 0 ∧ sh + 1 < w then do
    let s ← const (BitVec.ofNat 64 sh) w
    some <$> signedByUnsigned a w (fun x => binary .lshr x s w)
  else if w = 32 ∧ cb.op = .const ∧ magicDivisor signed d then
    if signed then
      some <$> signedByUnsigned a 32 (fun x => buildMagicUdivU32 x (computeMagicConstU32 d))
    else some <$> buildMagicUdivU32 a (computeMagicConstU32 d)
  else pure none

/-- The last part of `expandRem`: remainders by constants that are no powers of two. -/
def expandMagicRem (ctx : BVContext) (signed : Bool) (a b w : Nat) : Make (Option Nat) :=
  let cb := ctx.node b
  let d := (cb.imm &&& 0xFFFFFFFF).toNat
  if w = 32 ∧ cb.op = .const ∧ magicDivisor signed d then
    if signed then some <$> signedByUnsigned a 32 (magicRem b (computeMagicConstU32 d))
    else some <$> magicRem b (computeMagicConstU32 d) a
  else pure none

def expandRem (ctx : BVContext) (signed : Bool) (a b w : Nat) : Make (Option Nat) :=
  let cb := ctx.node b
  let sh := countrZero cb.imm
  if cb.op = .const ∧ cb.imm = 1 then some <$> const 0 w
  else if a = b ∧ (ctx.interval b).umin > 0 then some <$> const 0 w
  else if cb.op = .const ∧ hasSingleBit cb.imm then do
    let m ← const (cb.imm - 1) w
    if signed = false then some <$> binary .and a m w
    else if sh > 0 ∧ sh + 1 < w then
      some <$> signedByUnsigned a w (fun x => binary .and x m w)
    else expandMagicRem ctx signed a b w
  else expandMagicRem ctx signed a b w

/-! ## Binary operators -/

section Rules

variable (ctx : BVContext) (a b w : Nat) (m : U64)

def addRules : Option (Make Nat) :=
  let ca := ctx.node a
  let cb := ctx.node b
  if cb.op = .const ∧ cb.imm = 0 then some (pure a)
  else if a = b then
    some (if w = 1 then const 0 1 else do
      let one ← const 1 w
      binary .shl a one w)
  else if ca.op = .add ∧ (ctx.node ca.b).op = .const ∧ cb.op = .const then
    some do
      let c ← const ((ctx.node ca.b).imm + cb.imm) w
      binary .add ca.a c w
  else if ca.op = .sub ∧ (ctx.node ca.a).op = .const ∧ (ctx.node ca.a).imm = 0 then
    some (binary .sub b ca.b w)
  else if cb.op = .sub ∧ (ctx.node cb.a).op = .const ∧ (ctx.node cb.a).imm = 0 then
    some (binary .sub a cb.b w)
  else if ca.op = .sub ∧ ca.b = b then some (pure ca.a)
  else if cb.op = .sub ∧ cb.b = a then some (pure cb.a)
  else if ((ctx.interval a).knownZeros ||| (ctx.interval b).knownZeros) &&& m = m then
    some (binary .or a b w)
  else none

def subRules : Option (Make Nat) :=
  let ca := ctx.node a
  let cb := ctx.node b
  if cb.op = .const ∧ cb.imm = 0 then some (pure a)
  else if a = b then some (const 0 w)
  else if cb.op = .const then
    some do
      let c ← const ((~~~cb.imm + 1) &&& m) w
      binary .add a c w
  else if ca.op = .add ∧ ca.a = b then some (pure ca.b)
  else if ca.op = .add ∧ ca.b = b then some (pure ca.a)
  else if cb.op = .add ∧ cb.a = a then
    some do
      let z ← const 0 w
      binary .sub z cb.b w
  else if cb.op = .add ∧ cb.b = a then
    some do
      let z ← const 0 w
      binary .sub z cb.a w
  else none

def mulRules : Option (Make Nat) :=
  let ca := ctx.node a
  let cb := ctx.node b
  if cb.op = .const ∧ cb.imm = 0 then some (const 0 w)
  else if cb.op = .const ∧ cb.imm = 1 then some (pure a)
  else if cb.op = .const ∧ cb.imm = m then
    some do
      let z ← const 0 w
      binary .sub z a w
  else if cb.op = .const ∧ hasSingleBit cb.imm ∧ countrZero cb.imm < w then
    some do
      let s ← const (BitVec.ofNat 64 (countrZero cb.imm)) w
      binary .shl a s w
  else if ca.op = .mul ∧ (ctx.node ca.b).op = .const ∧ cb.op = .const then
    some do
      let c ← const ((ctx.node ca.b).imm * cb.imm) w
      binary .mul ca.a c w
  else if ca.op = .add ∧ (ctx.node ca.b).op = .const then
    some do
      let t1 ← binary .mul ca.a b w
      let t2 ← binary .mul b ca.b w
      binary .add t1 t2 w
  else if cb.op = .add ∧ (ctx.node cb.b).op = .const then
    some do
      let t1 ← binary .mul a cb.a w
      let t2 ← binary .mul a cb.b w
      binary .add t1 t2 w
  else none

def andRules : Option (Make Nat) :=
  let ca := ctx.node a
  let cb := ctx.node b
  if a = b then some (pure a)
  else if cb.op = .const ∧ cb.imm = 0 then some (const 0 w)
  else if cb.op = .const ∧ cb.imm = m then some (pure a)
  else if cb.op = .const ∧
      (ctx.interval a).knownZeros ||| ~~~cb.imm = (ctx.interval a).knownZeros then some (pure a)
  else if cb.op = .const ∧ (ctx.interval a).knownZeros &&& cb.imm = cb.imm then some (const 0 w)
  else if ca.op = .not ∧ ca.a = b then some (const 0 w)
  else if cb.op = .not ∧ cb.a = a then some (const 0 w)
  else if ca.op = .and ∧ (ctx.node ca.b).op = .const ∧ cb.op = .const then
    some do
      let c ← const ((ctx.node ca.b).imm &&& cb.imm) w
      binary .and ca.a c w
  else none

/-- `x & y | x & z = x & (y | z)` -/
def orOfAnds (x y z : Nat) : Make Nat := do
  let r ← binary .or y z w
  binary .and x r w

def orRules : Option (Make Nat) :=
  let ca := ctx.node a
  let cb := ctx.node b
  if a = b then some (pure a)
  else if cb.op = .const ∧ cb.imm = 0 then some (pure a)
  else if cb.op = .const ∧ cb.imm = m then some (const m w)
  else if ca.op = .not ∧ ca.a = b then some (const m w)
  else if cb.op = .not ∧ cb.a = a then some (const m w)
  else if ca.op = .or ∧ (ctx.node ca.b).op = .const ∧ cb.op = .const then
    some do
      let c ← const ((ctx.node ca.b).imm ||| cb.imm) w
      binary .or ca.a c w
  else if ca.op = .and ∧ cb.op = .and ∧ ca.a = cb.a then some (orOfAnds w ca.a ca.b cb.b)
  else if ca.op = .and ∧ cb.op = .and ∧ ca.a = cb.b then some (orOfAnds w ca.a ca.b cb.a)
  else if ca.op = .and ∧ cb.op = .and ∧ ca.b = cb.a then some (orOfAnds w ca.b ca.a cb.b)
  else if ca.op = .and ∧ cb.op = .and ∧ ca.b = cb.b then some (orOfAnds w ca.b ca.a cb.a)
  else none

def xorRules : Option (Make Nat) :=
  let ca := ctx.node a
  let cb := ctx.node b
  if a = b then some (const 0 w)
  else if cb.op = .const ∧ cb.imm = 0 then some (pure a)
  else if cb.op = .const ∧ cb.imm = m then some (unary .not a w)
  else if ca.op = .xor ∧ ca.a = b then some (pure ca.b)
  else if ca.op = .xor ∧ ca.b = b then some (pure ca.a)
  else if cb.op = .xor ∧ cb.a = a then some (pure cb.b)
  else if cb.op = .xor ∧ cb.b = a then some (pure cb.a)
  else if ca.op = .xor ∧ (ctx.node ca.b).op = .const ∧ cb.op = .const then
    some do
      let c ← const ((ctx.node ca.b).imm ^^^ cb.imm) w
      binary .xor ca.a c w
  else none

/-- The rules of `Shl`, `LShr` and `AShr` for a constant amount. -/
def shiftRules (op : BVOp) : Option (Make Nat) :=
  let ca := ctx.node a
  let cb := ctx.node b
  let mask := BitVec.ofNat 64 (shiftMask w)
  let sh := cb.imm &&& mask
  let prev := (ctx.node ca.b).imm &&& mask
  if cb.op ≠ .const then none
  else if sh ≠ cb.imm then
    some do
      let c ← const sh cb.width
      binary op a c w
  else if sh = 0 then some (pure a)
  else if sh.toNat ≥ w ∧ op ≠ .ashr then some (const 0 w)
  else if ca.op = op ∧ (ctx.node ca.b).op = .const ∧ prev.toNat + sh.toNat < w then
    some do
      let c ← const (prev + sh) w
      binary op ca.a c w
  else if ca.op = op ∧ (ctx.node ca.b).op = .const ∧ op ≠ .ashr then some (const 0 w)
  else if op = .shl ∧ sh.toNat < w ∧ ca.op = .add ∧ (ctx.node ca.b).op = .const then
    some do
      let t1 ← binary .shl ca.a b w
      let t2 ← const (((ctx.node ca.b).imm <<< sh.toNat) &&& m) w
      binary .add t1 t2 w
  else if op = .shl ∧ sh.toNat < w ∧ ca.op = .lshr ∧ (ctx.node ca.b).op = .const ∧
      (ctx.node ca.b).imm = sh then
    some do
      let c ← const ((m <<< sh.toNat) &&& m) w
      binary .and ca.a c w
  else if op = .lshr ∧ sh.toNat < w ∧ ca.op = .shl ∧ (ctx.node ca.b).op = .const ∧
      (ctx.node ca.b).imm = sh then
    some do
      let c ← const (m >>> sh.toNat) w
      binary .and ca.a c w
  else none

/-- The intervals say that the two values differ. -/
def intervalsApart (ia ib : BVInterval) : Bool :=
  decide (ia.umax < ib.umin) || decide (ib.umax < ia.umin) || decide (ia.smax < ib.smin) ||
    decide (ib.smax < ia.smin) || (ia.knownOnes &&& ib.knownZeros != 0) ||
    (ib.knownOnes &&& ia.knownZeros != 0)

def eqRules : Option (Make Nat) :=
  let ca := ctx.node a
  let cb := ctx.node b
  if a = b then some (const 1 1)
  else if ca.op = .add ∧ cb.op = .add ∧ ca.a = cb.a then some (binary .eq ca.b cb.b 1)
  else if ca.op = .add ∧ cb.op = .add ∧ ca.b = cb.b then some (binary .eq ca.a cb.a 1)
  else if ca.op = .add ∧ cb.op = .add ∧ ca.a = cb.b then some (binary .eq ca.b cb.a 1)
  else if ca.op = .add ∧ cb.op = .add ∧ ca.b = cb.a then some (binary .eq ca.a cb.b 1)
  else if ca.op = .add ∧ (ctx.node ca.b).op = .const ∧ cb.op = .const then
    some do
      let c ← const ((cb.imm - (ctx.node ca.b).imm) &&& m) ca.width
      binary .eq ca.a c 1
  else if (ca.op = .zext ∧ cb.op = .zext ∧ ctx.width ca.a = ctx.width cb.a) ∨
      (ca.op = .sext ∧ cb.op = .sext ∧ ctx.width ca.a = ctx.width cb.a) then
    some (binary .eq ca.a cb.a 1)
  else if ca.op = .zext ∧ ctx.width ca.a = 1 ∧ cb.op = .const then
    some (if cb.imm = 0 then unary .not ca.a 1
      else if cb.imm = 1 then pure ca.a
      else const 0 1)
  else if intervalsApart (ctx.interval a) (ctx.interval b) then some (const 0 1)
  else none

def ultRules : Option (Make Nat) :=
  let ca := ctx.node a
  let cb := ctx.node b
  let ia := ctx.interval a
  let ib := ctx.interval b
  if a = b then some (const 0 1)
  else if ia.umax < ib.umin then some (const 1 1)
  else if ia.umin ≥ ib.umax then some (const 0 1)
  else if ca.op = .zext ∧ cb.op = .zext ∧ ctx.width ca.a = ctx.width cb.a then
    some (binary .ult ca.a cb.a 1)
  else none

def sltRules : Option (Make Nat) :=
  let ca := ctx.node a
  let cb := ctx.node b
  let ia := ctx.interval a
  let ib := ctx.interval b
  if a = b then some (const 0 1)
  else if ia.smax < ib.smin then some (const 1 1)
  else if ia.smin ≥ ib.smax then some (const 0 1)
  else if ca.op = .sext ∧ cb.op = .sext ∧ ctx.width ca.a = ctx.width cb.a then
    some (binary .slt ca.a cb.a 1)
  else none

end Rules

def isPred (op : BVOp) : Bool :=
  op == .eq || op == .ne || op == .ult || op == .ule || op == .ugt || op == .uge || op == .slt ||
    op == .sle || op == .sgt || op == .sge || op == .uaddOvf || op == .usubOvf || op == .umulOvf ||
    op == .saddOvf || op == .ssubOvf || op == .smulOvf

def isCommutative (op : BVOp) : Bool :=
  op == .and || op == .or || op == .xor || op == .add || op == .mul || op == .eq || op == .ne ||
    op == .uaddOvf || op == .saddOvf || op == .umulOvf || op == .smulOvf

/-- The node as it is, when no rule applies. -/
def internBinary (op : BVOp) (a b w : Nat) : Make Nat :=
  intern { op := op, width := w, a := a, b := b }

def orIntern (rules : Option (Make Nat)) (op : BVOp) (a b w : Nat) : Make Nat :=
  match rules with
  | some p => p
  | none => internBinary op a b w

def expandOrIntern (p : Make (Option Nat)) (op : BVOp) (a b w : Nat) : Make Nat := do
  let r ← p
  match r with
  | some id => pure id
  | none => internBinary op a b w

/-- The `switch` of `make_binary`. -/
def simplifyBinary (ctx : BVContext) (op : BVOp) (a b w : Nat) (m : U64) : Make Nat :=
  match op with
  | .add => orIntern (addRules ctx a b w m) op a b w
  | .sub => orIntern (subRules ctx a b w m) op a b w
  | .mul => orIntern (mulRules ctx a b w m) op a b w
  | .and => orIntern (andRules ctx a b w m) op a b w
  | .or => orIntern (orRules ctx a b w m) op a b w
  | .xor => orIntern (xorRules ctx a b w m) op a b w
  | .shl => orIntern (shiftRules ctx a b w m .shl) op a b w
  | .lshr => orIntern (shiftRules ctx a b w m .lshr) op a b w
  | .ashr => orIntern (shiftRules ctx a b w m .ashr) op a b w
  | .udiv => expandOrIntern (expandDiv ctx false a b w) op a b w
  | .sdiv => expandOrIntern (expandDiv ctx true a b w) op a b w
  | .urem => expandOrIntern (expandRem ctx false a b w) op a b w
  | .srem => expandOrIntern (expandRem ctx true a b w) op a b w
  | .eq => orIntern (eqRules ctx a b m) op a b w
  | .ult => orIntern (ultRules ctx a b) op a b w
  | .slt => orIntern (sltRules ctx a b) op a b w
  | _ => internBinary op a b w

/-- The operands are to be exchanged: a constant goes to the right, otherwise the older
node to the left. -/
def swapOperands (ctx : BVContext) (op : BVOp) (a b : Nat) : Bool :=
  let ka := decide ((ctx.node a).op = .const)
  let kb := decide ((ctx.node b).op = .const)
  isCommutative op && ((ka && !kb) || (ka == kb && decide (a > b)))

def makeNot (p : Make Nat) : Make Nat := do
  let r ← p
  unary .not r 1

def makeBinary (ctx : BVContext) (op : BVOp) (a b resWidth : Nat) : Make Nat :=
  let wa := ctx.width a
  let wb := ctx.width b
  let w := if resWidth ≠ 0 then resWidth else if isPred op then 1 else max wa wb
  let m := widthMask wa
  match op with
  | .ugt => binary .ult b a 1
  | .uge => makeNot (binary .ult a b 1)
  | .ule => makeNot (binary .ult b a 1)
  | .sgt => binary .slt b a 1
  | .sge => makeNot (binary .slt a b 1)
  | .sle => makeNot (binary .slt b a 1)
  | .ne => makeNot (binary .eq a b 1)
  | op =>
    let (a, b) := if swapOperands ctx op a b then (b, a) else (a, b)
    if (ctx.node a).op = .const ∧ (ctx.node b).op = .const then
      const (evalNodeConcrete ctx.nodes { op := op, width := w, a := a, b := b }
        (ctx.node a).imm (ctx.node b).imm 0) w
    else simplifyBinary ctx op a b w m

/-! ## If-then-else -/

/-- The part of `make_ite` after the arms that repeat the condition are opened. -/
def makeIteArms (ctx : BVContext) (cond tVal fVal : Nat) : Make Nat :=
  let nt := ctx.node tVal
  let nf := ctx.node fVal
  if tVal = fVal then pure tVal
  else if nt.width = 1 ∧ nt.op = .const ∧ nf.op = .const ∧ nt.imm = 1 ∧ nf.imm = 0 then pure cond
  else if nt.width = 1 ∧ nt.op = .const ∧ nf.op = .const ∧ nt.imm = 0 ∧ nf.imm = 1 then
    unary .not cond 1
  else intern { op := .ite, width := nt.width, a := cond, b := tVal, c := fVal }

def makeIte (ctx : BVContext) (cond tVal fVal : Nat) : Make Nat :=
  let nc := ctx.node cond
  let nt := ctx.node tVal
  let nf := ctx.node fVal
  if tVal = fVal then pure tVal
  else if nc.op = .const then pure (if nc.imm ≠ 0 then tVal else fVal)
  else if nc.op = .not then ite nc.a fVal tVal
  else
    makeIteArms ctx cond (if nt.op = .ite ∧ nt.a = cond then nt.b else tVal)
      (if nf.op = .ite ∧ nf.a = cond then nf.c else fVal)

/-! ## The calls -/

def body (q : Call) : Make Nat := do
  let ctx ← Prog.getState
  match q with
  | .extract a hi lo => makeExtract ctx a hi lo
  | .concat hi lo => makeConcat ctx hi lo
  | .zext a extBits => makeZext ctx a extBits
  | .sext a extBits => makeSext ctx a extBits
  | .unary op a w => makeUnary ctx op a w
  | .binary op a b w => makeBinary ctx op a b w
  | .ite cond tVal fVal => makeIte ctx cond tVal fVal

/-- A call of the public interface, with fuel for the nested calls. -/
def run (fuel : Nat) (ctx : BVContext) (q : Call) : Option (Nat × BVContext) :=
  Prog.runCall body fuel q ctx

end Brass.Verify.Bv
