import Brass.Gc.MinorStart

/-!
# The marking cycle

`gc/heap_mark.cpp`, `gc/heap_mark_incremental.cpp` and the barrier of `gc/heap.hpp`: the marks
and the grey entries of an open cycle, its start, its slices, what the mutator does between
them, and the finish that marks the young generation in place.

The workers' mark stacks and the pool are one list of grey entries. The schedule says which
entry is scanned next and where a slice stops; it is an argument of the slice and of the
drain.

Weak slots, ephemerons, statistics and verification are left out, and a trace function is
taken to visit the same slots whatever the purpose of the tracer.
-/

namespace Brass.Gc.Heap

def kLineBytes : Nat := 256

def kSliceBytes : Nat := 16 * 1024

def kCardWorkSliceBytes : Nat := 32 * 1024

/-- A mark-stack entry: an object; a slice of a large one past its first; and what the
finish scans again although it is marked, an object or a dirty range of a large one. -/
inductive Grey where
  | object (a : Nat)
  | slice (a i : Nat)
  | rescan (a : Nat)
  | range (r : CardRange)
  deriving DecidableEq, Repr

def Grey.owner : Grey → Nat
  | .object a => a
  | .slice a _ => a
  | .rescan a => a
  | .range r => r.object

structure Marks where
  /-- The blocks' mark bitmaps and the large objects' mark bits. -/
  marked : Nat → Bool
  /-- `young_marks`. -/
  young : Nat → Bool
  /-- `line_mark`, by the number of the line from `mature_lo` on. -/
  line : Nat → Bool
  grey : List Grey

inductive MarkFatal where
  /-- "a reference to %p names no block in use of the mature space" -/
  | badReference
  | noObject
  | outOfFuel
  deriving DecidableEq, Repr

variable {A : Type}

/-- Claims the mark bit of an old object, which becomes grey when the bit was clear. -/
def Marks.shade (m : Marks) (a : Nat) : Marks :=
  if m.marked a then m
  else { m with marked := Function.update m.marked a true, grey := .object a :: m.grey }

/-- The same with a young object's bit in `young_marks`. -/
def Marks.shadeYoung (m : Marks) (a : Nat) : Marks :=
  if m.young a then m
  else { m with young := Function.update m.young a true, grey := .object a :: m.grey }

/-- The cycle as a minor collection sees it. -/
def cycleMarker : Marker Marks where
  shade := Marks.shade
  Marked m a := m.marked a = true
  marked_shade m a := by
    unfold Marks.shade
    split
    · assumption
    · exact Function.update_self _ _ _
  marked_mono m a b h := by
    unfold Marks.shade
    split
    · exact h
    · by_cases hb : b = a
      · subst hb
        exact Function.update_self _ _ _
      · exact (Function.update_of_ne hb _ _).trans h

/-! ## Visiting and scanning -/

/-- `mark_visit`, through a tracer whose range is the old generation, or the heap once the
young generation is marked in place. -/
def markVisit (e : Env A Marks) (old : A) (inPlace : Bool) (word : Nat) (m : Marks) :
    Except MarkFatal Marks :=
  let a := addressOf word
  if !(if inPlace then e.geo.contains a else e.geo.isOld a) || !e.geo.isReferenceTag word then .ok m
  else if e.geo.isYoung a then .ok (m.shadeYoung a)
  else if e.geo.inLarge a then .ok (m.shade a)
  else
    let index := (a - e.geo.matureLo) / kBlockBytes
    if index < e.space.blockCount old ∧ e.space.inUse old index = true then .ok (m.shade a)
    else .error .badReference

def markWords (e : Env A Marks) (old : A) (inPlace : Bool) :
    List Nat → Marks → Except MarkFatal Marks
  | [], m => .ok m
  | word :: rest, m =>
    match markVisit e old inPlace word m with
    | .error f => .error f
    | .ok m => markWords e old inPlace rest m

def sliceBytesFor (size : Nat) : Nat :=
  max kSliceBytes (((size + 0xFFFE) / 0xFFFF + (kGranuleBytes - 1)) / kGranuleBytes * kGranuleBytes)

def sliceable : Layout → Bool
  | .leaf => false
  | .mask _ => true
  | .words => true
  | .custom _ traceRange => traceRange.isSome

/-- Whether the marker scans an object in slices. -/
def sliced (layouts : Nat → Layout) (o : Obj) : Bool :=
  decide (kSliceBytes < o.size) && sliceable (layouts o.layout)

/-- The slots that a mark-stack entry's scan visits. -/
def Grey.slots (layouts : Nat → Layout) (o : Obj) : Grey → List Nat
  | .object _ =>
    if sliced layouts o then rangeSlotsOf layouts o 0 (sliceBytesFor o.size) else slotsOf layouts o
  | .slice _ i =>
    let begin_ := i * sliceBytesFor o.size
    rangeSlotsOf layouts o begin_ (min o.size (begin_ + sliceBytesFor o.size))
  | .rescan _ =>
    if sliced layouts o then rangeSlotsOf layouts o 0 (min o.size (sliceBytesFor o.size))
    else slotsOf layouts o
  | .range r => rangeSlotsOf layouts o r.lo r.hi

def firstLine (g : Geometry) (a : Nat) : Nat := (a - kHeaderBytes - g.matureLo) / kLineBytes

def lastLine (g : Geometry) (a size : Nat) : Nat :=
  (a - kHeaderBytes + (kHeaderBytes + size) - 1 - g.matureLo) / kLineBytes

def account (g : Geometry) (a : Nat) (o : Obj) (m : Marks) : Marks :=
  if g.isOld a && !g.inLarge a then
    { m with line := fun l => m.line l || decide (firstLine g a ≤ l ∧ l ≤ lastLine g a o.size) }
  else m

/-- The slices past the first, pushed from the last one on. -/
def Marks.pushSlices (m : Marks) (a count : Nat) : Marks :=
  { m with grey := (List.range' 1 (count - 1)).map (.slice a) ++ m.grey }

/-- What the scan of an entry does before it visits the slots. -/
def Grey.enter (e : Env A Marks) (o : Obj) (m : Marks) : Grey → Marks
  | .object a =>
    let bytes := sliceBytesFor o.size
    let m := account e.geo a o m
    if sliced e.layouts o then m.pushSlices a ((o.size + bytes - 1) / bytes) else m
  | _ => m

def scanEntry (e : Env A Marks) (h : HeapState A Marks) (inPlace : Bool) (entry : Grey)
    (m : Marks) : Except MarkFatal Marks :=
  match h.heap entry.owner with
  | none => .error .noObject
  | some o => markWords e h.old inPlace ((entry.slots e.layouts o).map o.words) (entry.enter e o m)

def markStep (e : Env A Marks) (h : HeapState A Marks) (inPlace : Bool) (k : Nat) (m : Marks) :
    Except MarkFatal Marks :=
  match m.grey[k]? with
  | none => .ok m
  | some entry => scanEntry e h inPlace entry { m with grey := m.grey.eraseIdx k }

/-- A mark slice that stops once it has scanned the entries of a schedule. -/
def runSlice (e : Env A Marks) (h : HeapState A Marks) :
    List Nat → Marks → Except MarkFatal Marks
  | [], m => .ok m
  | k :: rest, m =>
    match markStep e h false k m with
    | .error f => .error f
    | .ok m => runSlice e h rest m

/-- The finish's drain, with the schedule `pick`. -/
def drainGrey (e : Env A Marks) (h : HeapState A Marks) (pick : Nat → Nat) :
    Nat → Marks → Except MarkFatal Marks
  | 0, m => if m.grey.isEmpty then .ok m else .error .outOfFuel
  | fuel + 1, m =>
    if m.grey.isEmpty then .ok m
    else
      match markStep e h true (pick fuel % m.grey.length) m with
      | .error f => .error f
      | .ok m => drainGrey e h pick fuel m

/-! ## The start -/

def rootWords (g : Geometry) (roots : List Root) (stackObjects : List Nat) : List Nat :=
  roots.map (·.word g) ++ stackObjects.map (retarget (g.rawTag * 2 ^ kTagShift))

def scanPinned (e : Env A Marks) (h : HeapState A Marks) (inPlace : Bool) :
    List Nat → Marks → Except MarkFatal Marks
  | [], m => .ok m
  | a :: rest, m =>
    match h.heap a with
    | none => .error .noObject
    | some o =>
      match markWords e h.old inPlace ((slotsOf e.layouts o).map o.words) m with
      | .error f => .error f
      | .ok m => scanPinned e h inPlace rest m

def markRoots (e : Env A Marks) (h : HeapState A Marks) (inPlace : Bool)
    (stackObjects : List Nat) (m : Marks) : Except MarkFatal Marks :=
  match markWords e h.old inPlace (rootWords e.geo h.roots stackObjects) m with
  | .error f => .error f
  | .ok m => scanPinned e h inPlace h.pinned m

/-- The marks once the last cycle's sweep is complete. -/
def Marks.clear : Marks := ⟨fun _ => false, fun _ => false, fun _ => false, []⟩

/-- `Collector::start_cycle`, which leaves the young generation where it is. -/
def startCycle (e : Env A Marks) (stackObjects : List Nat) (h : HeapState A Marks) :
    Except MarkFatal (HeapState A Marks) :=
  match markRoots e h false stackObjects .clear with
  | .error f => .error f
  | .ok m => .ok { h with marks := m }

/-! ## The mutator -/

def HeapState.markCard (g : Geometry) (a : Nat) (value : Card) (h : HeapState A Marks) :
    HeapState A Marks :=
  { h with
    cards := Function.update h.cards (g.cardOf a) value
    regions := Function.update h.regions (g.regionOf a) true }

/-- `remember_slot`, of the payload byte `offset` of `owner`. -/
def HeapState.rememberByte (g : Geometry) (owner offset : Nat) (h : HeapState A Marks) :
    HeapState A Marks :=
  if !g.inLarge owner then h.markCard g owner .dirty
  else if offset ≥ ((h.heap owner).map (·.size)).getD 0 then h.markCard g owner .dirty
  else if g.cardOf (owner + offset) ≠ g.cardOf owner then h.markCard g (owner + offset) .dirty
  else if h.cards (g.cardOf (owner + offset)) ≠ .dirty then
    h.markCard g (owner + offset) .dirtyRange
  else h

/-- `shade`, which passes over what is no old object's start. -/
def HeapState.shade (g : Geometry) (a : Nat) (h : HeapState A Marks) : HeapState A Marks :=
  if g.isOld a && (h.heap a).isSome then { h with marks := h.marks.shade a } else h

/-- Whether the barrier takes its slow path for a store: the range of the values is the heap
while a cycle is open. -/
def slowStore (g : Geometry) (object value : Nat) : Bool :=
  g.isOld object && g.refers value

def writeBarrier (g : Geometry) (object value : Nat) (h : HeapState A Marks) :
    HeapState A Marks :=
  if slowStore g object value then
    if g.isYoung (addressOf value) then h.markCard g object .dirty
    else h.shade g (addressOf value)
  else h

/-- `write_barrier_interior`, for the address of payload byte `offset` of `object`. -/
def writeBarrierInterior (g : Geometry) (object offset value : Nat) (h : HeapState A Marks) :
    HeapState A Marks :=
  if slowStore g object value then
    if g.isYoung (addressOf value) then h.rememberByte g object offset
    else h.shade g (addressOf value)
  else h

def remember (g : Geometry) (object : Nat) (h : HeapState A Marks) : HeapState A Marks :=
  if g.isOld object then h.markCard g object .dirty else h

/-- The payload bytes that `remember_range_old` remembers for the addresses `[lo, hi)`: the
first in each card. -/
def rangeBytes (g : Geometry) (object lo hi : Nat) : List Nat :=
  (List.range' (g.cardOf lo) ((hi - g.matureLo + (kCardBytes - 1)) / kCardBytes - g.cardOf lo)).map
    fun k => max (g.matureLo + kCardBytes * k) lo - object

/-- `remember_range`, of the payload bytes `[lo, hi)`. The old generation starts on a page, so
that rounding an address down to a card is the same from zero and from its start. -/
def rememberRange (g : Geometry) (object lo hi : Nat) (h : HeapState A Marks) :
    HeapState A Marks :=
  if !g.isOld object then h
  else if !g.inLarge object || decide (hi ≤ lo) ||
      decide (((h.heap object).map (·.size)).getD 0 < hi) then h.markCard g object .dirty
  else
    (rangeBytes g object (object + lo) (object + hi)).foldl
      (fun h offset => h.rememberByte g object offset) h

def shadeReference (g : Geometry) (word : Nat) (h : HeapState A Marks) : HeapState A Marks :=
  if g.refers word && !g.isYoung (addressOf word) then h.shade g (addressOf word) else h

def allocatedOld (g : Geometry) (object : Nat) (h : HeapState A Marks) : HeapState A Marks :=
  (h.shade g object).markCard g object .dirty

def HeapState.setObject (x : Nat) (o : Obj) (h : HeapState A Marks) : HeapState A Marks :=
  { h with heap := Function.update h.heap x (some o) }

/-- Whether the references of an object's slots name objects. -/
def Closed (e : Env A Marks) (heap : Nat → Option Obj) (o : Obj) : Prop :=
  ∀ i ∈ slotsOf e.layouts o, e.geo.refers (o.words i) = true →
    (heap (addressOf (o.words i))).isSome = true

structure Obj.Fresh (o : Obj) : Prop where
  least : kGranuleBytes ≤ o.size
  granules : o.size % kGranuleBytes = 0
  forwarded : o.forwarded = false
  pinned : o.pinned = false

/-- The heap while a cycle is open, and the old objects allocated since the last minor
collection, which the mutator may fill without a barrier. -/
structure Cycle (A : Type) where
  state : HeapState A Marks
  fresh : List Nat

/-- A step between the start and the finish of a cycle: the mutator's stores and allocations,
a change of the roots, a mark slice or a minor collection. A store of one word reveals no
slot of a custom layout but its own. -/
inductive Step (e : Env A Marks) : Cycle A → Cycle A → Prop where
  | store {c : Cycle A} {x i w : Nat} {o : Obj} (hobject : c.state.heap x = some o)
      (hold : e.geo.isOld x = true)
      (hclosed : e.geo.refers w = true → (c.state.heap (addressOf w)).isSome = true)
      (hvisible : ∀ j ∈ slotsOf e.layouts (o.setWord i w), j ≠ i → j ∈ slotsOf e.layouts o) :
      Step e c { c with
        state := writeBarrier e.geo x w (c.state.setObject x (o.setWord i w)) }
  | storeInterior {c : Cycle A} {x i w : Nat} {o : Obj} (hobject : c.state.heap x = some o)
      (hold : e.geo.isOld x = true) (hinside : kGranuleBytes * i < o.size)
      (hclosed : e.geo.refers w = true → (c.state.heap (addressOf w)).isSome = true)
      (hvisible : ∀ j ∈ slotsOf e.layouts (o.setWord i w), j ≠ i → j ∈ slotsOf e.layouts o) :
      Step e c { c with
        state := writeBarrierInterior e.geo x (kGranuleBytes * i) w
          (c.state.setObject x (o.setWord i w)) }
  | bulk {c : Cycle A} {x : Nat} {o : Obj} {words : Nat → Nat} (hobject : c.state.heap x = some o)
      (hclosed : Closed e c.state.heap { o with words := words }) :
      Step e c { c with
        state := remember e.geo x (c.state.setObject x { o with words := words }) }
  | bulkRange {c : Cycle A} {x lo hi : Nat} {o : Obj} {words : Nat → Nat}
      (hobject : c.state.heap x = some o)
      (hclosed : Closed e c.state.heap { o with words := words })
      (houtside : ∀ i, ¬ (lo ≤ kGranuleBytes * i ∧ kGranuleBytes * i < hi) → words i = o.words i)
      (hvisible : ∀ j ∈ slotsOf e.layouts { o with words := words },
        ¬ (lo ≤ kGranuleBytes * j ∧ kGranuleBytes * j < hi) → j ∈ slotsOf e.layouts o) :
      Step e c { c with
        state := rememberRange e.geo x lo hi (c.state.setObject x { o with words := words }) }
  | fill {c : Cycle A} {x : Nat} {o : Obj} {words : Nat → Nat} (hobject : c.state.heap x = some o)
      (hunbarriered : e.geo.isYoung x = true ∨ x ∈ c.fresh)
      (hclosed : Closed e c.state.heap { o with words := words }) :
      Step e c { c with state := c.state.setObject x { o with words := words } }
  | roots {c : Cycle A} {roots : List Root}
      (hclosed : ∀ r ∈ roots, e.geo.refers (r.word e.geo) = true →
        (c.state.heap (addressOf (r.word e.geo))).isSome = true) :
      Step e c { c with state := { c.state with roots := roots } }
  | shadeReference {c : Cycle A} {w : Nat} :
      Step e c { c with state := shadeReference e.geo w c.state }
  | allocateYoung {c : Cycle A} {a : Nat} {o : Obj} (hheader : o.Fresh)
      (hroom : e.geo.edenLo + kHeaderBytes ≤ a ∧ a + o.size ≤ e.geo.edenHi)
      (hapart : ∀ x ox, c.state.heap x = some ox → Apart a o.size x ox.size)
      (hclosed : Closed e c.state.heap o) :
      Step e c { c with
        state := { c.state.setObject a o with edenEnd := max c.state.edenEnd (a + o.size) } }
  | allocateOld {c : Cycle A} {dest : Nat} {old : A} {o : Obj} (hheader : o.Fresh)
      (hallocate : e.space.allocate c.state.old (kHeaderBytes + o.size) = some (dest, old))
      (hclosed : Closed e c.state.heap o) :
      Step e c
        { state := allocatedOld e.geo (dest + kHeaderBytes)
            { c.state.setObject (dest + kHeaderBytes) o with
              old := e.space.noteLargeAllocated old dest }
          fresh := (dest + kHeaderBytes) :: c.fresh }
  | slice {c : Cycle A} {schedule : List Nat} {m : Marks}
      (hslice : runSlice e c.state schedule c.state.marks = .ok m) :
      Step e c { c with state := { c.state with marks := m } }
  | minor {c : Cycle A} {tenureAge : Nat} {stackObjects : List Nat} {h : HeapState A Marks}
      (hnames : c.state.Names stackObjects)
      (hcollect : collectMinor { e with tenureAge := tenureAge } stackObjects c.state = .ok h) :
      Step e c { state := h, fresh := [] }

/-! ## The finish -/

/-- The number of a young address's word in the young bitmaps. -/
def youngWord (g : Geometry) (a : Nat) : Nat := (a - g.base) / kGranuleBytes / 64

/-- Whether the bitmap words of the young addresses `[lo, hi)` have the one of `a`. -/
def inWords (g : Geometry) (lo hi a : Nat) : Bool :=
  decide (lo < hi) && decide (youngWord g lo ≤ youngWord g a) &&
    decide (youngWord g a < ((hi - g.base) / kGranuleBytes + 63) / 64)

/-- The bitmap words of what the young spaces hold, of both survivor spaces. -/
def youngWords (g : Geometry) (h : HeapState A Marks) (a : Nat) : Bool :=
  inWords g g.edenLo h.edenEnd a ||
  inWords g (g.survivorLo h.fromSurvivor) (h.survivorTop h.fromSurvivor) a ||
  inWords g (g.survivorLo (!h.fromSurvivor)) (h.survivorTop (!h.fromSurvivor)) a

/-- Card work: the objects that start in a mature card, or a range of a large object. -/
inductive CardWork where
  | starts (objects : List Nat)
  | piece (r : CardRange)

/-- `gather_mature_cards`, with the cards left as they are; that it passes over eight regions
at once when none of them is set changes nothing. -/
def gatherMatureCards (e : Env A Marks) (h : HeapState A Marks) : List CardWork :=
  (List.range (e.space.blockCount h.old)).flatMap fun i =>
    if h.regions i && e.space.inUse h.old i then
      (List.range kCardsPerBlock).filterMap fun card =>
        let starts := e.space.starts h.old i card
        if h.cards (e.geo.cardOf (e.geo.blockBase i) + card) = .dirty ∧ starts ≠ [] then
          some (.starts (starts.map fun bit =>
            e.geo.blockBase i + (card * 64 + bit) * kGranuleBytes))
        else none
    else []

def scansRanges : Layout → Bool
  | .custom _ traceRange => traceRange.isSome
  | _ => true

def isCustom : Layout → Bool
  | .custom _ _ => true
  | _ => false

/-- A range cut into pieces of at most `kCardWorkSliceBytes`. -/
def cutRange (r : CardRange) : List CardRange :=
  (List.range ((r.hi - r.lo + (kCardWorkSliceBytes - 1)) / kCardWorkSliceBytes)).map fun k =>
    ⟨r.object, r.lo + k * kCardWorkSliceBytes,
      min r.hi (r.lo + k * kCardWorkSliceBytes + kCardWorkSliceBytes)⟩

/-- The large objects' half of `gather_card_work`. `done` is the last object that no range of
scans, which is one piece. -/
def cardPieces (e : Env A Marks) (h : HeapState A Marks) :
    Nat → List CardRange → Except MarkFatal (List CardRange)
  | _, [] => .ok []
  | done, r :: rest =>
    if r.object = done then cardPieces e h done rest
    else
      match h.heap r.object with
      | none => .error .noObject
      | some o =>
        let layout := e.layouts o.layout
        let (pieces, done) :=
          if !scansRanges layout then ([⟨r.object, 0, o.size⟩], r.object)
          else if decide (r.lo = 0 ∧ r.hi = o.size) && isCustom layout then
            ([⟨r.object, 0, o.size⟩], 0)
          else (cutRange r, 0)
        match cardPieces e h done rest with
        | .error f => .error f
        | .ok more => .ok (pieces ++ more)

/-- `collect_dirty_cards`, with the cards after: those that a freed object left are cleaned. -/
def collectDirtyCards (e : Env A Marks) (h : HeapState A Marks) :
    Except MarkFatal (List CardWork × (Nat → Card)) :=
  match gatherLargeRanges (e.setup h 0) false (startState h 0 [] h.heap []) with
  | .error _ => .error .noObject
  | .ok (ranges, s) =>
    match cardPieces e h 0 ranges with
    | .error f => .error f
    | .ok pieces => .ok (gatherMatureCards e h ++ pieces.map .piece, s.cards)

/-- The loop variables of `push_card_rescans`. -/
structure Rescans where
  grey : List Grey
  lastObject : Nat
  lastSlice : Nat

def kNoSlice : Nat := 2 ^ 64 - 1

/-- Slice `i` of an object that is rescanned whole. -/
def pushSliceRescan (a : Nat) (s : Rescans) (i : Nat) : Rescans :=
  if a = s.lastObject ∧ i ≤ s.lastSlice then s
  else ⟨(if i = 0 then .rescan a else .slice a i) :: s.grey, a, i⟩

def pushPiece (layouts : Nat → Layout) (o : Obj) (r : CardRange) (s : Rescans) : Rescans :=
  if sliced layouts o && !decide (r.lo = 0 ∧ r.hi = o.size) then { s with grey := .range r :: s.grey }
  else if !sliced layouts o then
    ⟨if r.object = s.lastObject then s.grey else .rescan r.object :: s.grey, r.object, kNoSlice⟩
  else
    let bytes := sliceBytesFor o.size
    (List.range' (r.lo / bytes) ((r.hi + (bytes - 1)) / bytes - r.lo / bytes)).foldl
      (pushSliceRescan r.object) s

def pushCardRescans (e : Env A Marks) (h : HeapState A Marks) :
    List CardWork → Rescans → Except MarkFatal Rescans
  | [], s => .ok s
  | .starts objects :: rest, s =>
    pushCardRescans e h rest
      { s with grey := ((objects.filter h.marks.marked).map .rescan).reverse ++ s.grey }
  | .piece r :: rest, s =>
    if !h.marks.marked r.object then pushCardRescans e h rest s
    else
      match h.heap r.object with
      | none => .error .noObject
      | some o => pushCardRescans e h rest (pushPiece e.layouts o r s)

/-- What the sweep and the reset of the young start bits leave. -/
def reclaimInPlace (g : Geometry) (h : HeapState A Marks) (m : Marks) (a : Nat) : Option Obj :=
  if g.isYoung a then
    if youngWords g h a && !m.young a then none else h.heap a
  else if m.marked a then h.heap a
  else none

/-- `Collector::finish_cycle` with a rescan: the young generation is marked in place, the roots
are visited again and the grey entries are drained, with the schedule `pick`. -/
def finishCycle (e : Env A Marks) (pick : Nat → Nat) (fuel : Nat) (stackObjects : List Nat)
    (h : HeapState A Marks) : Except MarkFatal (HeapState A Marks) :=
  match collectDirtyCards e h with
  | .error f => .error f
  | .ok (work, cards) =>
    match pushCardRescans e h work ⟨h.marks.grey, 0, 0⟩ with
    | .error f => .error f
    | .ok rescans =>
      match markRoots e h true stackObjects { h.marks with
          young := fun a => h.marks.young a && !youngWords e.geo h a, grey := rescans.grey } with
      | .error f => .error f
      | .ok m =>
        match drainGrey e h pick fuel m with
        | .error f => .error f
        | .ok m => .ok { h with heap := reclaimInPlace e.geo h m, cards := cards, marks := m }

end Brass.Gc.Heap
