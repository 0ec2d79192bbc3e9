import Brass.Gc.StackMap
import Brass.Util.PartitionPoint

/-!
# The code stack-map registry

The process-wide index of `gc/code_stack_maps.cpp`: which function's stack map belongs to
a code address. A registration publishes one segment of entries and merges it with its
neighbours of similar size; dropping its token only clears an alive flag, and the dead
entries leave the index when their segment is next merged.

The writers hold `write_mutex`, so a run is a sequence of `Op`s. A `RegistrationData`
lives in `Registry.regs`; its position there stands for its address, and is what an entry
stores as `owner` and a token as `data`. Addresses are natural numbers, and a sum of
addresses is taken modulo `2 ^ 64` (`uintptr_t`). The counters are `Int`, so that a
subtraction that would wrap in `size_t` is visible.
-/

namespace Brass.Gc.CodeStackMaps

open Brass.Util

/-- One function's map still encoded; it is decoded by the first lookup that needs it. -/
structure LazyMap where
  encoded : List UInt8
  codeStart : UInt64
  codeSize : UInt32
  deriving DecidableEq, Repr

structure RegistrationData where
  maps : List FunctionStackMap
  lazy : List LazyMap
  alive : Bool
  deriving DecidableEq, Repr

def RegistrationData.entryCount (d : RegistrationData) : Nat := d.maps.length + d.lazy.length

/-- What an entry points to: a decoded map, or one to decode on first use. -/
inductive EntryMap where
  | map (fn : FunctionStackMap)
  | lazy (l : LazyMap)
  deriving DecidableEq, Repr

structure Entry where
  start : Nat
  stop : Nat
  target : EntryMap
  owner : Nat
  deriving DecidableEq, Repr

/-- The decoded map of a lazy entry. A map whose bytes do not decode has no records. -/
def resolve (l : LazyMap) : FunctionStackMap :=
  let fresh :=
    match decodeStackMapsInto l.encoded 0 with
    | (true, one) => one.functions.head?.getD .empty
    | (false, _) => .empty
  FunctionStackMap.sortRecords
    { fresh with functionAddress := l.codeStart, codeSize := l.codeSize }

def entryMap (e : Entry) : FunctionStackMap :=
  match e.target with
  | .map fn => fn
  | .lazy l => resolve l

structure Segment where
  entries : List Entry
  owners : List Nat
  deriving DecidableEq, Repr

structure Registry where
  liveEntries : Int
  deadEntries : Int
  segments : List Segment
  regs : List RegistrationData
  deriving DecidableEq, Repr

def Registry.empty : Registry := ⟨0, 0, [], []⟩

/-- `fatal_overlap`: the process aborts and names the two functions. -/
structure FatalOverlap where
  fn : FunctionStackMap
  other : FunctionStackMap
  deriving DecidableEq, Repr

/-- `a + n` in `uintptr_t`. -/
def addressPlus (a n : Nat) : Nat := (a + n) % 2 ^ 64

/-- The code range of a function: `none` for a function that is not indexed. Without a
size, the code is known to extend past its last record. -/
def codeRange (fn : FunctionStackMap) : Option (Nat × Nat) :=
  if fn.functionAddress = 0 ∨ fn.records = [] then none
  else if 0 < fn.codeSize then
    some (fn.functionAddress.toNat, addressPlus fn.functionAddress.toNat fn.codeSize.toNat)
  else
    let last := fn.records.foldl (fun last r => max last r.instructionOffset) 0
    some (fn.functionAddress.toNat, addressPlus fn.functionAddress.toNat (last.toNat + 1))

/-! ## Segments -/

/-- `owner->alive`, for the owner at position `id`. -/
def aliveIn (regs : List RegistrationData) (id : Nat) : Bool :=
  match regs[id]? with
  | some d => d.alive
  | none => false

def isAlive (regs : List RegistrationData) (e : Entry) : Bool := aliveIn regs e.owner

/-- The walk of `live_overlap` from the last entry that starts before the range's end
towards the first one. -/
def liveOverlapWalk (regs : List RegistrationData) (start : Nat) : List Entry → Option Entry
  | [] => none
  | e :: rest =>
    if e.stop ≤ start then none
    else if isAlive regs e then some e
    else liveOverlapWalk regs start rest

def liveOverlap (regs : List RegistrationData) (seg : Segment) (start stop : Nat) :
    Option Entry :=
  let it := partitionPoint seg.entries (fun e => e.start < stop)
  liveOverlapWalk regs start (seg.entries.take it).reverse

def uniqueAdjacent : List Nat → List Nat
  | [] => []
  | [a] => [a]
  | a :: b :: rest => if a = b then uniqueAdjacent (b :: rest) else a :: uniqueAdjacent (b :: rest)

def sortEntries (es : List Entry) : List Entry :=
  es.mergeSort (fun a b => decide (a.start ≤ b.start))

/-- Merges segments into one and drops the dead entries; also their number. -/
def merge (regs : List RegistrationData) (parts : List Segment) : Segment × Nat :=
  let all := parts.flatMap (·.entries)
  let owners := (parts.flatMap (·.owners)).filter (aliveIn regs)
  (⟨sortEntries (all.filter (isAlive regs)),
    uniqueAdjacent (owners.mergeSort (fun a b => decide (a ≤ b)))⟩,
   (all.filter (fun e => !isAlive regs e)).length)

/-- The merging loop of `publish_segments`, on the segments with the newest first. -/
def mergeNewest (regs : List RegistrationData) (dead : Int) (newestFirst : List Segment) :
    List Segment × Int :=
  match newestFirst with
  | top :: below :: rest =>
    if below.entries.length ≤ 2 * top.entries.length then
      let m := merge regs [below, top]
      mergeNewest regs (dead - m.2) (if m.1.entries.isEmpty then rest else m.1 :: rest)
    else (newestFirst, dead)
  | _ => (newestFirst, dead)
  termination_by newestFirst.length
  decreasing_by
    split
    · simp only [List.length_cons]
      omega
    · simp only [List.length_cons]
      omega

/-- Dead entries outnumber live ones: the whole index is compacted. -/
def compactionDue (r : Registry) : Bool := decide (r.deadEntries > 64 ∧ r.deadEntries > r.liveEntries)

def publishSegments (r : Registry) (segs : List Segment) : Registry :=
  let compacted : List Segment × Int :=
    if compactionDue r ∧ segs ≠ [] then
      let m := merge r.regs segs
      (if m.1.entries.isEmpty then [] else [m.1], r.deadEntries - m.2)
    else (segs, r.deadEntries)
  let merged := mergeNewest r.regs compacted.2 compacted.1.reverse
  { r with deadEntries := merged.2, segments := merged.1.reverse }

/-! ## Registering and unregistering -/

/-- The entries of a registration, in the order `publish` makes them. -/
def entriesOf (id : Nat) (d : RegistrationData) : List Entry :=
  d.maps.filterMap (fun fn => (codeRange fn).map (fun r => ⟨r.1, r.2, .map fn, id⟩)) ++
  d.lazy.map (fun l =>
    ⟨l.codeStart.toNat, addressPlus l.codeStart.toNat l.codeSize.toNat, .lazy l, id⟩)

/-- The first entry that starts before the end of the one before it. -/
def adjacentOverlap : List Entry → Option (Entry × Entry)
  | a :: b :: rest => if b.start < a.stop then some (b, a) else adjacentOverlap (b :: rest)
  | _ => none

/-- The first entry of `es` that overlaps a live entry of a segment. -/
def registeredOverlap (r : Registry) (es : List Entry) : Option (Entry × Entry) :=
  es.findSome? fun e =>
    r.segments.findSome? fun s => (liveOverlap r.regs s e.start e.stop).map (fun o => (e, o))

def fatalOverlap (p : Entry × Entry) : FatalOverlap := ⟨entryMap p.1, entryMap p.2⟩

def publish (r : Registry) (d : RegistrationData) : Except FatalOverlap Registry :=
  let id := r.regs.length
  let entries := sortEntries (entriesOf id d)
  match adjacentOverlap entries with
  | some p => .error (fatalOverlap p)
  | none =>
    match registeredOverlap r entries with
    | some p => .error (fatalOverlap p)
    | none =>
      let r' : Registry :=
        { r with liveEntries := r.liveEntries + entries.length, regs := r.regs ++ [d] }
      .ok (publishSegments r' (r.segments ++ [⟨entries, [id]⟩]))

def RegistrationData.kill (d : RegistrationData) : RegistrationData := { d with alive := false }

/-- `Token::~Token`. A token is dropped once: its registration is alive until then. -/
def dropToken (r : Registry) (token : Nat) : Registry :=
  match r.regs[token]? with
  | none => r
  | some d =>
    if d.alive then
      let n : Int := d.entryCount
      let r' : Registry :=
        { r with
          regs := r.regs.set token d.kill
          liveEntries := r.liveEntries - n
          deadEntries := r.deadEntries + n }
      if compactionDue r' then publishSegments r' r'.segments else r'
    else r

structure EncodedCodeStackMap where
  codeStart : UInt64
  codeSize : UInt32
  map : Option (List UInt8)
  deriving DecidableEq, Repr

/-- What a range of encoded maps is. -/
inductive RangeKind where
  | skipped
  | onFirstUse
  | now
  deriving DecidableEq, Repr

def rangeKind (r : EncodedCodeStackMap) : RangeKind :=
  match r.map with
  | none => .skipped
  | some bytes =>
    if bytes = [] ∨ r.codeStart = 0 then .skipped
    else
      match peekStackMaps bytes with
      | none => .skipped
      | some (functions, records) =>
        if functions = 1 ∧ records = 0 then .skipped
        else if functions = 1 ∧ 0 < r.codeSize then .onFirstUse
        else .now

/-- The maps of a range that is decoded now. -/
def decodedNow (r : EncodedCodeStackMap) : List FunctionStackMap :=
  match decodeStackMapsInto (r.map.getD []) 0 with
  | (false, _) => []
  | (true, one) =>
    (one.functions.map fun fn =>
      { fn with functionAddress := r.codeStart, codeSize := r.codeSize }).filterMap fun fn =>
        if (codeRange fn).isSome then some fn.sortRecords else none

/-- The registrations of the program and the dropping of the tokens they returned. -/
inductive Op where
  | registerCodeStackMaps (maps : ModuleStackMap)
  | registerCodeStackMap (map : FunctionStackMap)
  | registerEncodedCodeStackMaps (ranges : List EncodedCodeStackMap)
  | unregister (token : Nat)

def dataOfMaps (maps : ModuleStackMap) : RegistrationData :=
  ⟨maps.functions.filterMap fun fn =>
    if (codeRange fn).isSome then some fn.sortRecords else none, [], true⟩

def dataOfMap (map : FunctionStackMap) : RegistrationData :=
  ⟨if (codeRange map).isSome then [map.sortRecords] else [], [], true⟩

def dataOfEncoded (ranges : List EncodedCodeStackMap) : RegistrationData :=
  ⟨(ranges.filter (fun r => rangeKind r = .now)).flatMap decodedNow,
   (ranges.filter (fun r => rangeKind r = .onFirstUse)).map
     (fun r => ⟨r.map.getD [], r.codeStart, r.codeSize⟩), true⟩

/-- A registration without an entry returns null and publishes nothing. -/
def register (r : Registry) (d : RegistrationData) : Except FatalOverlap Registry :=
  if d.entryCount = 0 then .ok r else publish r d

def step (r : Registry) : Op → Except FatalOverlap Registry
  | .registerCodeStackMaps maps => register r (dataOfMaps maps)
  | .registerCodeStackMap map => register r (dataOfMap map)
  | .registerEncodedCodeStackMaps ranges => register r (dataOfEncoded ranges)
  | .unregister token => .ok (dropToken r token)

def run : Registry → List Op → Except FatalOverlap Registry
  | r, [] => .ok r
  | r, op :: ops =>
    match step r op with
    | .error e => .error e
    | .ok r' => run r' ops

/-! ## Looking up -/

/-- The entry a segment finds: the last one that starts at or before `ip`. -/
def findInSegment (regs : List RegistrationData) (ip : Nat) (seg : Segment) : Option Entry :=
  let it := partitionPoint seg.entries (fun e => !(ip < e.start))
  match (seg.entries.take it).getLast? with
  | none => none
  | some e => if ip < e.stop ∧ isAlive regs e = true then some e else none

/-- The live entry that contains `ip`; the newest segment is searched first. -/
def findEntry (r : Registry) (ip : Nat) : Option Entry :=
  r.segments.reverse.findSome? (findInSegment r.regs ip)

def findCodeStackMap (r : Registry) (ip : Nat) : Option FunctionStackMap :=
  (findEntry r ip).map entryMap

def codeStackMapsCover (r : Registry) (ip : Nat) : Bool := (findEntry r ip).isSome

end Brass.Gc.CodeStackMaps
