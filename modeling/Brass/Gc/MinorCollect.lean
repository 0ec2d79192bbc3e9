import Brass.Gc.HeapModel

/-!
# The minor collection

`gc/heap_collect.cpp` and `gc/heap_cards.cpp`, on one thread: the objects that the stacks
name are pinned, the roots and the dirty cards are visited, the copies are scanned until
none is grey, and the young spaces are reclaimed.

A slot is visited through `minorVisit`, which copies what the slot names, redirects the
slot and, within a budget of bytes and a depth, scans the copy before it returns. The
depth that is left is the argument of `scanObject` that its recursion is on.

The running time, the statistics, weak slots, ephemerons and finalizers are left out. A
failure is what stops the program (`gc_fatal`), or the use of a header where there is no
object.
-/

namespace Brass.Gc.Heap

def kCopyBudget : Nat := 4096

def kCopyDepth : Nat := 16

inductive Fatal where
  /-- "the old generation's reservation is exhausted while promoting a young object" -/
  | oldExhausted
  /-- "the to-space holds objects no evacuation left there" -/
  | toSpaceHeld
  /-- "an evacuation began with objects still pinned by the last" -/
  | stillPinned
  | noObject
  | outOfFuel
  deriving DecidableEq, Repr

/-- A free range of a young space. -/
structure YoungFragment where
  lo : Nat
  hi : Nat
  deriving DecidableEq, Repr

/-- A root: a slot word, or a raw address that `visit_address` visits under the raw tag. -/
inductive Root where
  | slot (w : Nat)
  | address (a : Nat)
  deriving DecidableEq, Repr

def Root.word (g : Geometry) : Root → Nat
  | .slot w => w
  | .address a => retarget (g.rawTag * 2 ^ kTagShift) (addressOf a)

def Root.set : Root → Nat → Root
  | .slot _, w => .slot w
  | .address _, w => .address (addressOf w)

/-- A word that a tracer visits: a root, a word of an object, or a copy of a reference that
is dropped after the visit. -/
inductive Slot where
  | root (k : Nat)
  | field (x : Nat) (i : Nat)
  | local_ (w : Nat)
  deriving DecidableEq, Repr

structure Tracer where
  owner : Nat
  ownerOld : Bool

def Tracer.none : Tracer := ⟨0, false⟩

/-- The marking cycle's part: `shade` marks an object grey. -/
structure Marker (M : Type) where
  shade : M → Nat → M
  Marked : M → Nat → Prop
  marked_shade : ∀ m a, Marked (shade m a) a
  marked_mono : ∀ m a b, Marked m b → Marked (shade m a) b

/-- What a collection reads and does not change. -/
structure Setup (A M : Type) where
  geo : Geometry
  layouts : Nat → Layout
  space : OldSpace A geo
  marker : Marker M
  /-- The survivor space collected from; the other one is copied into. -/
  fromSpace : Bool
  edenTop : Nat
  fromTop : Nat
  /-- `gc_to_resident_span`. -/
  toResidentSpan : Nat
  tenureAge : Nat
  /-- Whether a marking cycle is open. -/
  shade : Bool

/-- The heap and the collection's own state. -/
structure State (A M : Type) where
  heap : Nat → Option Obj
  old : A
  cards : Nat → Card
  regions : Nat → Bool
  roots : List Root
  marks : M
  /-- The to-space's fragments after the one that is being filled. -/
  toFrags : List YoungFragment
  toCursor : Nat
  toLimit : Nat
  toCopiedHi : Nat
  gray : List Nat
  copyBudget : Nat
  survivorOverflow : Bool

variable {A M : Type}

def inFrom (c : Setup A M) (heap : Nat → Option Obj) (a : Nat) : Bool :=
  decide (c.geo.edenLo ≤ a ∧ a < c.edenTop) ||
  decide (c.geo.survivorLo c.fromSpace ≤ a ∧ a < c.fromTop) ||
  (decide (c.geo.survivorLo (!c.fromSpace) ≤ a ∧
      a < c.geo.survivorLo (!c.fromSpace) + c.toResidentSpan) &&
    (heap a).any (·.resident))

/-! ## Slots and cards -/

def readSlot (c : Setup A M) (s : State A M) : Slot → Nat
  | .root k => ((s.roots[k]?).map (·.word c.geo)).getD 0
  | .field x i => ((s.heap x).map (·.words i)).getD 0
  | .local_ w => w

def Obj.setWord (o : Obj) (i : Nat) (w : Nat) : Obj :=
  { o with words := Function.update o.words i w }

def writeSlot (s : State A M) (w : Nat) : Slot → State A M
  | .root k => { s with roots := s.roots.modify k (·.set w) }
  | .field x i =>
    { s with heap := Function.update s.heap x ((s.heap x).map (·.setWord i w)) }
  | .local_ _ => s

def markCard (g : Geometry) (a : Nat) (value : Card) (s : State A M) : State A M :=
  { s with
    cards := Function.update s.cards (g.cardOf a) value
    regions := Function.update s.regions (g.regionOf a) true }

/-- `remember_slot`. A slot outside the payload is remembered by the whole object. -/
def rememberSlot (g : Geometry) (owner : Nat) (slot : Slot) (s : State A M) : State A M :=
  if !g.inLarge owner then markCard g owner .dirty s
  else
    match slot with
    | .field x i =>
      let at_ := x + kGranuleBytes * i
      if x ≠ owner ∨ kGranuleBytes * i ≥ ((s.heap owner).map (·.size)).getD 0 then
        markCard g owner .dirty s
      else if g.cardOf at_ ≠ g.cardOf owner then markCard g at_ .dirty s
      else if s.cards (g.cardOf at_) ≠ .dirty then markCard g at_ .dirtyRange s
      else s
    | _ => markCard g owner .dirty s

/-! ## Copying -/

/-- `to_space_allocate`: the fragment that the copying is in moves on even when none of the
rest has the room. -/
def toSpaceAllocate (total : Nat) : List YoungFragment → Nat → Nat →
    Option Nat × List YoungFragment × Nat × Nat
  | rest, cursor, limit =>
    if limit - cursor < total then
      match rest with
      | [] => (none, [], cursor, limit)
      | f :: rest => toSpaceAllocate total rest f.lo f.hi
    else (some cursor, rest, cursor + total, limit)

/-- The copy's header: neither forwarded nor a resident, and of age zero once it is old. -/
def Obj.copied (o : Obj) (age : Nat) (promoted : Bool) : Obj :=
  { o with forwarded := false, resident := false, age := if promoted then 0 else age }

/-- The object left behind, with its new address in payload word 0. -/
def Obj.forwardedTo (o : Obj) (moved : Nat) : Obj :=
  { o.setWord 0 moved with forwarded := true }

/-- The copy of `o`, from `object` to the header address `dest`. -/
def placeCopy (c : Setup A M) (object : Nat) (o : Obj) (dest : Nat) (age : Nat)
    (promoted : Bool) (s : State A M) : Nat × State A M :=
  let moved := dest + kHeaderBytes
  let heap := Function.update s.heap moved (some (o.copied age promoted))
  let s := { s with heap := Function.update heap object (some (o.forwardedTo moved)) }
  let s := if promoted then { s with old := c.space.noteLargeAllocated s.old dest } else s
  let s := if promoted && c.shade then { s with marks := c.marker.shade s.marks moved } else s
  (moved, { s with gray := moved :: s.gray })

def promote (c : Setup A M) (object : Nat) (o : Obj) (age : Nat) (s : State A M) :
    Except Fatal (Nat × State A M) :=
  match c.space.allocate s.old (kHeaderBytes + o.size) with
  | none => .error .oldExhausted
  | some (dest, old) => .ok (placeCopy c object o dest age true { s with old := old })

def evacuateYoung (c : Setup A M) (object : Nat) (s : State A M) :
    Except Fatal (Nat × State A M) :=
  match s.heap object with
  | none => .error .noObject
  | some o =>
    -- Pinned by this evacuation: it stays, and was made grey when it was pinned.
    if o.pinned then .ok (object, s)
    else
      let age := min (o.age + 1) 7
      if age < c.tenureAge then
        match toSpaceAllocate (kHeaderBytes + o.size) s.toFrags s.toCursor s.toLimit with
        | (some dest, rest, cursor, limit) =>
          .ok (placeCopy c object o dest age false
            { s with toFrags := rest, toCursor := cursor, toLimit := limit, toCopiedHi := cursor })
        | (none, rest, cursor, limit) =>
          promote c object o age
            { s with toFrags := rest, toCursor := cursor, toLimit := limit, survivorOverflow := true }
      else promote c object o age s

/-! ## Visiting -/

/-- A scan of an object, for the copies that are scanned as they are made. -/
abbrev Scan (A M : Type) := Nat → Bool → State A M → Except Fatal (State A M)

/-- The copy made just now is scanned at once, when the budget and the depth allow it. -/
def scanFresh (c : Setup A M) (nested : Option (Scan A M)) (fresh : Bool) (now : Nat)
    (s : State A M) : Except Fatal (State A M) :=
  match nested, s.heap now with
  | some scan, some o =>
    let total := kHeaderBytes + o.size
    if fresh && decide (total ≤ s.copyBudget) then
      scan now (c.geo.isOld now)
        { s with copyBudget := s.copyBudget - total, gray := s.gray.tail }
    else .ok s
  | _, _ => .ok s

/-- The last step of a visit: a slot of an old object that names a young one. -/
def rememberYoung (c : Setup A M) (t : Tracer) (slot : Slot) (now : Nat) (s : State A M) :
    State A M :=
  if t.ownerOld && c.geo.isYoung now then rememberSlot c.geo t.owner slot s else s

def minorVisit (c : Setup A M) (nested : Option (Scan A M)) (t : Tracer) (slot : Slot)
    (word : Nat) (s : State A M) : Except Fatal (State A M) :=
  if !c.geo.isReferenceTag word then .ok s
  else
    let a := addressOf word
    if inFrom c s.heap a then
      match s.heap a with
      | none => .error .noObject
      | some h =>
        let fresh := !h.forwarded && !h.pinned
        match if h.forwarded then .ok (h.words 0, s) else evacuateYoung c a s with
        | .error e => .error e
        | .ok (now, s) =>
          match scanFresh c nested fresh now (writeSlot s (retarget word now) slot) with
          | .error e => .error e
          | .ok s => .ok (rememberYoung c t slot now s)
    else if c.shade && !c.geo.isYoung a then
      .ok (if t.ownerOld then { s with marks := c.marker.shade s.marks a } else s)
    else .ok (rememberYoung c t slot a s)

/-- `Tracer::visit`: the range is the young generation, or the heap while a cycle is open. -/
def visit (c : Setup A M) (nested : Option (Scan A M)) (t : Tracer) (slot : Slot)
    (s : State A M) : Except Fatal (State A M) :=
  let word := readSlot c s slot
  let hit := if c.shade then c.geo.contains (addressOf word) else c.geo.isYoung (addressOf word)
  if hit then minorVisit c nested t slot word s else .ok s

def visitFields (c : Setup A M) (nested : Option (Scan A M)) (t : Tracer) :
    List Nat → State A M → Except Fatal (State A M)
  | [], s => .ok s
  | i :: rest, s =>
    match visit c nested t (.field t.owner i) s with
    | .error e => .error e
    | .ok s => visitFields c nested t rest s

def scanWith (c : Setup A M) (nested : Option (Scan A M)) : Scan A M := fun object old s =>
  match s.heap object with
  | none => .error .noObject
  | some o => visitFields c nested ⟨object, old⟩ (slotsOf c.layouts o) s

/-- `scan_object`, with the depth that is left for copies scanned as they are made. -/
def scanObject (c : Setup A M) : Nat → Scan A M
  | 0 => scanWith c none
  | depth + 1 => scanWith c (some (scanObject c depth))

def scanObjectRange (c : Setup A M) (object lo hi : Nat) (s : State A M) :
    Except Fatal (State A M) :=
  match s.heap object with
  | none => .error .noObject
  | some o =>
    visitFields c (some (scanObject c (kCopyDepth - 1))) ⟨object, true⟩
      (rangeSlotsOf c.layouts o lo hi) s

def drain (c : Setup A M) : Nat → State A M → Except Fatal (State A M)
  | 0, s => if s.gray.isEmpty then .ok { s with copyBudget := 0 } else .error .outOfFuel
  | fuel + 1, s =>
    match s.gray with
    | [] => .ok { s with copyBudget := 0 }
    | object :: rest =>
      match scanObject c kCopyDepth object (c.geo.isOld object)
          { s with gray := rest, copyBudget := kCopyBudget } with
      | .error e => .error e
      | .ok s => drain c fuel s

/-! ## The dirty cards -/

def scanStarts (c : Setup A M) (lo : Nat) (card : Nat) :
    List Nat → State A M → Except Fatal (State A M)
  | [], s => .ok s
  | bit :: rest, s =>
    match scanObject c kCopyDepth (lo + (card * 64 + bit) * kGranuleBytes) true s with
    | .error e => .error e
    | .ok s => scanStarts c lo card rest s

/-- The cards of block `i`: each is cleaned before the objects that start in it are
scanned. -/
def scanBlockCards (c : Setup A M) (i : Nat) : List Nat → State A M → Except Fatal (State A M)
  | [], s => .ok s
  | card :: rest, s =>
    let index := c.geo.cardOf (c.geo.blockBase i) + card
    if s.cards index = .dirty then
      let s := { s with cards := Function.update s.cards index .clean }
      match scanStarts c (c.geo.blockBase i) card (c.space.starts s.old i card) s with
      | .error e => .error e
      | .ok s => scanBlockCards c i rest s
    else scanBlockCards c i rest s

/-- One block of `scan_mature_cards`, whose region is cleared before its cards are
scanned. -/
def scanBlock (c : Setup A M) (i : Nat) (s : State A M) : Except Fatal (State A M) :=
  if s.regions i then
    let s := { s with regions := Function.update s.regions i false }
    if c.space.inUse s.old i then scanBlockCards c i (List.range kCardsPerBlock) s else .ok s
  else .ok s

/-- The walk over the blocks `i, …, count - 1`, at most `fuel` steps; eight region bytes
that are all zero are passed over in one. -/
def scanBlocks (c : Setup A M) (count : Nat) : Nat → Nat → State A M → Except Fatal (State A M)
  | 0, i, s => if i < count then .error .outOfFuel else .ok s
  | fuel + 1, i, s =>
    if i < count then
      if i % 8 = 0 ∧ i + 8 ≤ count ∧ (List.range 8).all fun k => !s.regions (i + k) then
        scanBlocks c count fuel (i + 8) s
      else
        match scanBlock c i s with
        | .error e => .error e
        | .ok s => scanBlocks c count fuel (i + 1) s
    else .ok s

def scanMatureCards (c : Setup A M) (s : State A M) : Except Fatal (State A M) :=
  scanBlocks c (c.space.blockCount s.old) (c.space.blockCount s.old) 0 s

/-- The payload bytes `[lo, hi)` of a large object. -/
structure CardRange where
  object : Nat
  lo : Nat
  hi : Nat
  deriving DecidableEq, Repr

/-- The loop variables of `gather_large_ranges`: `out` from the back, and `wholeEnd`, the
end of the last object gathered whole when the cards are not cleaned. -/
structure Gather where
  cards : Nat → Card
  regions : Nat → Bool
  out : List CardRange
  wholeEnd : Nat

/-- A range appended, joined with the last one when it continues it. -/
def pushRange (out : List CardRange) (object lo hi : Nat) : List CardRange :=
  match out with
  | ⟨last, first, end_⟩ :: rest =>
    if last = object ∧ end_ = lo then ⟨object, first, hi⟩ :: rest else ⟨object, lo, hi⟩ :: out
  | [] => [⟨object, lo, hi⟩]

def cleanCards (cards : Nat → Card) (first n k : Nat) : Card :=
  if first ≤ k ∧ k < first + n then .clean else cards k

def gatherDirty (c : Setup A M) (s : State A M) (clean : Bool) (cardLo : Nat) (g : Gather) :
    Except Fatal Gather :=
  let cleaned := Function.update g.cards (c.geo.cardOf cardLo) .clean
  match c.space.pageHead s.old ((cardLo - c.geo.largeLo) / kPageBytes) with
  -- A card left behind by a freed object.
  | none => .ok { g with cards := cleaned }
  | some head =>
    let object := c.geo.largeObjectAt head
    match s.heap object with
    | none => .error .noObject
    | some o =>
      let first := c.geo.cardOf (object - kHeaderBytes)
      if g.cards first = .dirty then
        let pages := c.space.runPages s.old head
        let out := ⟨object, 0, o.size⟩ :: g.out
        if clean then
          .ok { g with cards := cleanCards g.cards first (pages * kCardsPerPage), out := out }
        else .ok { g with wholeEnd := object - kHeaderBytes + pages * kPageBytes, out := out }
      else
        let cards := if clean then cleaned else g.cards
        let lo := max cardLo object
        let hi := min (cardLo + kCardBytes) (object + o.size)
        if hi ≤ lo then .ok { g with cards := cards }
        else .ok { g with cards := cards, out := pushRange g.out object (lo - object) (hi - object) }

def gatherCards (c : Setup A M) (s : State A M) (clean : Bool) (regionLo : Nat) :
    List Nat → Gather → Except Fatal Gather
  | [], g => .ok g
  | k :: rest, g =>
    let cardLo := regionLo + k * kCardBytes
    if g.cards (c.geo.cardOf cardLo) = .clean ∨ cardLo < g.wholeEnd then
      gatherCards c s clean regionLo rest g
    else
      match gatherDirty c s clean cardLo g with
      | .error e => .error e
      | .ok g => gatherCards c s clean regionLo rest g

def gatherRegions (c : Setup A M) (s : State A M) (clean : Bool) :
    List Nat → Gather → Except Fatal Gather
  | [], g => .ok g
  | r :: rest, g =>
    let regionLo := c.geo.largeLo + r * kRegionBytes
    let index := c.geo.regionOf regionLo
    if g.regions index then
      let g := if clean then { g with regions := Function.update g.regions index false } else g
      match gatherCards c s clean regionLo (List.range kCardsPerRegion) g with
      | .error e => .error e
      | .ok g => gatherRegions c s clean rest g
    else gatherRegions c s clean rest g

/-- `gather_large_ranges`: the ranges in order, and the cards and regions after. -/
def gatherLargeRanges (c : Setup A M) (clean : Bool) (s : State A M) :
    Except Fatal (List CardRange × State A M) :=
  let count := (c.space.largeFrontier s.old + kPagesPerRegion - 1) / kPagesPerRegion
  match gatherRegions c s clean (List.range count) ⟨s.cards, s.regions, [], 0⟩ with
  | .error e => .error e
  | .ok g => .ok (g.out.reverse, { s with cards := g.cards, regions := g.regions })

def scanRanges (c : Setup A M) : List CardRange → State A M → Except Fatal (State A M)
  | [], s => .ok s
  | r :: rest, s =>
    let whole := r.lo = 0 ∧ r.hi = ((s.heap r.object).map (·.size)).getD 0
    match if whole then scanObject c kCopyDepth r.object true s
      else scanObjectRange c r.object r.lo r.hi s with
    | .error e => .error e
    | .ok s => scanRanges c rest s

def scanDirtyCards (c : Setup A M) (s : State A M) : Except Fatal (State A M) :=
  match scanMatureCards c s with
  | .error e => .error e
  | .ok s =>
    match gatherLargeRanges c true s with
    | .error e => .error e
    | .ok (ranges, s) => scanRanges c ranges s

/-! ## Roots -/

def visitSlots (c : Setup A M) : List Slot → State A M → Except Fatal (State A M)
  | [], s => .ok s
  | slot :: rest, s =>
    match visit c (some (scanObject c (kCopyDepth - 1))) .none slot s with
    | .error e => .error e
    | .ok s => visitSlots c rest s

/-- `visit_roots`: the root slots, and then a copy of each reference that the stacks hold. -/
def visitRoots (c : Setup A M) (stackObjects : List Nat) (s : State A M) :
    Except Fatal (State A M) :=
  visitSlots c ((List.range s.roots.length).map .root ++
    stackObjects.map fun a => .local_ (retarget (c.geo.rawTag * 2 ^ kTagShift) a)) s

/-! ## The collection -/

/-- The heap between collections. A resident is an object that the last evacuation left in
place, with its payload's size: its bytes stay out of the to-space's fragments even when it
is dead and no longer an object. -/
structure HeapState (A M : Type) where
  heap : Nat → Option Obj
  old : A
  cards : Nat → Card
  regions : Nat → Bool
  roots : List Root
  marks : M
  /-- `eden_end()`. -/
  edenEnd : Nat
  survivorTop : Bool → Nat
  fromSurvivor : Bool
  residents : List (Nat × Nat)
  pinned : List Nat

/-- The fragments between the residents of the to-space, from `at_`, and where the last
resident ends. -/
def toFragments (g : Geometry) (toSpace : Bool) : List (Nat × Nat) → Nat → List YoungFragment × Nat
  | [], at_ => ([], at_)
  | (r, size) :: rest, at_ =>
    if g.inSurvivor toSpace r then
      let (frags, end_) := toFragments g toSpace rest (r + size)
      if at_ < r - kHeaderBytes then (⟨at_, r - kHeaderBytes⟩ :: frags, end_) else (frags, end_)
    else toFragments g toSpace rest at_

/-- `setup_to_space`: the fragments and `gc_to_resident_span`. -/
def setupToSpace (g : Geometry) (h : HeapState A M) (toSpace : Bool) :
    Except Fatal (List YoungFragment × Nat) :=
  let lo := g.survivorLo toSpace
  let (frags, end_) := toFragments g toSpace h.residents lo
  if end_ = lo ∧ h.survivorTop toSpace ≠ lo then .error .toSpaceHeld
  else
    let frags := if end_ < g.survivorHi toSpace ∨ frags.isEmpty then frags ++ [⟨end_, g.survivorHi toSpace⟩]
      else frags
    .ok (frags, end_ - lo)

/-- Whether `pin_stack_objects` pins an object that the stacks name. -/
def pins (c : Setup A M) (heap : Nat → Option Obj) (a : Nat) : Bool :=
  c.geo.isYoung a && inFrom c heap a && (heap a).any fun o => !o.pinned && !o.forwarded

def Obj.pin (o : Obj) : Obj := { o with pinned := true }

def pinStackObjects (c : Setup A M) : List Nat → (Nat → Option Obj) →
    (Nat → Option Obj) × List Nat
  | [], heap => (heap, [])
  | a :: rest, heap =>
    if pins c heap a then
      let (heap, pinned) := pinStackObjects c rest (Function.update heap a ((heap a).map Obj.pin))
      (heap, a :: pinned)
    else pinStackObjects c rest heap

/-- A bound on the objects that can become grey: the pinned ones, and one copy for each
address that is collected. -/
def drainFuel (c : Setup A M) (s : State A M) : Nat :=
  s.gray.length + (c.edenTop - c.geo.edenLo) +
    (c.fromTop - c.geo.survivorLo c.fromSpace) + c.toResidentSpan

/-- `evacuate`, from the state with the stacks' objects pinned and grey. -/
def evacuate (c : Setup A M) (stackObjects : List Nat) (s : State A M) :
    Except Fatal (State A M) :=
  match visitRoots c stackObjects s with
  | .error e => .error e
  | .ok s =>
    match scanDirtyCards c s with
    | .error e => .error e
    | .ok s => drain c (drainFuel c s) s

/-- The residents' extents: an unpinned object that stays in place. -/
def Obj.settle (o : Obj) : Obj := { o with pinned := false, resident := true }

/-- The heap once the evacuated spaces are reclaimed: of what they held the pinned objects
are left, as residents. -/
def reclaimHeap (c : Setup A M) (heap : Nat → Option Obj) (pinned : List Nat) (a : Nat) :
    Option Obj :=
  if a ∈ pinned then (heap a).map Obj.settle
  else if inFrom c heap a then none
  else heap a

/-- Where the last resident of a space ends, or `lo` when there is none. -/
def lastEnd (inSpace : Nat → Bool) (lo : Nat) (residents : List (Nat × Nat)) : Nat :=
  residents.foldl (fun hi r => if inSpace r.1 then r.1 + r.2 else hi) lo

/-- The highest end of a resident of a space, or `lo` when there is none. -/
def highestEnd (inSpace : Nat → Bool) (lo : Nat) (residents : List (Nat × Nat)) : Nat :=
  residents.foldl (fun hi r => if inSpace r.1 then max hi (r.1 + r.2) else hi) lo

def reclaimYoung (c : Setup A M) (pinned : List Nat) (s : State A M) : HeapState A M :=
  let g := c.geo
  let toSpace := !c.fromSpace
  let residents := pinned.map fun p => (p, ((s.heap p).map (·.size)).getD 0)
  let fromHi := lastEnd (g.inSurvivor c.fromSpace) (g.survivorLo c.fromSpace) residents
  let toHi := highestEnd (fun p => !g.inEden p && !g.inSurvivor c.fromSpace p)
    (g.survivorLo toSpace) residents
  { heap := reclaimHeap c s.heap pinned
    old := s.old
    cards := s.cards
    regions := s.regions
    roots := s.roots
    marks := s.marks
    edenEnd := lastEnd g.inEden g.edenLo residents
    survivorTop := fun which => if which = c.fromSpace then fromHi else max s.toCopiedHi toHi
    fromSurvivor := toSpace
    residents := residents
    pinned := [] }

/-- What the runtime chooses for one minor collection, and the layouts and spaces that it
works with. -/
structure Env (A M : Type) where
  geo : Geometry
  layouts : Nat → Layout
  space : OldSpace A geo
  marker : Marker M
  tenureAge : Nat
  shade : Bool

def Env.setup (e : Env A M) (h : HeapState A M) (toResidentSpan : Nat) : Setup A M :=
  { geo := e.geo, layouts := e.layouts, space := e.space, marker := e.marker
    fromSpace := h.fromSurvivor
    edenTop := h.edenEnd
    fromTop := h.survivorTop h.fromSurvivor
    toResidentSpan := toResidentSpan
    tenureAge := e.tenureAge
    shade := e.shade }

/-- The state as the evacuation starts: the stacks' objects pinned, and grey. -/
def startState (h : HeapState A M) (lo : Nat) (frags : List YoungFragment)
    (heap : Nat → Option Obj) (pinned : List Nat) : State A M :=
  let first := frags.headD ⟨lo, lo⟩
  { heap := heap
    old := h.old
    cards := h.cards
    regions := h.regions
    roots := h.roots
    marks := h.marks
    toFrags := frags.tail
    toCursor := first.lo
    toLimit := first.hi
    toCopiedHi := lo
    gray := pinned.reverse
    copyBudget := 0
    survivorOverflow := false }

/-- `Collector::collect(Minor)`, with the objects that the stacks name. -/
def collectMinor (e : Env A M) (stackObjects : List Nat) (h : HeapState A M) :
    Except Fatal (HeapState A M) :=
  match setupToSpace e.geo h (!h.fromSurvivor) with
  | .error f => .error f
  | .ok (frags, span) =>
    if !h.pinned.isEmpty then .error .stillPinned
    else
      let c := e.setup h span
      let (heap, pinned) := pinStackObjects c stackObjects h.heap
      match evacuate c stackObjects
          (startState h (e.geo.survivorLo (!h.fromSurvivor)) frags heap pinned) with
      | .error f => .error f
      | .ok s => .ok (reclaimYoung c pinned s)

end Brass.Gc.Heap
