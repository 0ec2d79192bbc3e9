import Mathlib.Data.List.Basic
import Mathlib.Tactic.Ring

/-!
# The generational heap

The data that the collections of `gc/heap_collect.cpp` work on: slot words and their
tags (`gc/tracer.hpp`), object headers and layouts (`gc/object.hpp`), the spaces of the
reservation (`gc/heap.cpp`), and the cards and regions of the old generation
(`gc/heap_internal.hpp`).

An object is found by the address of its payload, and its header is the eight bytes before
it. Words and addresses are natural numbers: the reservation ends below `2 ^ 48`, so no
address arithmetic wraps. The words of an object past its payload stand for the slots
that a host's trace function visits outside the payload.
-/

namespace Brass.Gc.Heap

def kHeaderBytes : Nat := 8

def kGranuleBytes : Nat := 8

def kTagShift : Nat := 48

def kBlockBytes : Nat := 32768

def kPageBytes : Nat := 4096

def kCardBytes : Nat := 512

def kCardsPerBlock : Nat := 64

def kCardsPerPage : Nat := 8

def kPagesPerRegion : Nat := 8

def kRegionBytes : Nat := 32768

def kCardsPerRegion : Nat := 64

/-- `word & kAddressMask`. -/
def addressOf (w : Nat) : Nat := w % 2 ^ kTagShift

/-- `word >> kTagShift`. -/
def tagOf (w : Nat) : Nat := w / 2 ^ kTagShift

/-- `(word & ~kAddressMask) | a`. -/
def retarget (w : Nat) (a : Nat) : Nat := tagOf w * 2 ^ kTagShift + a

@[simp] theorem addressOf_retarget {w : Nat} {a : Nat} (h : a < 2 ^ kTagShift) :
    addressOf (retarget w a) = a := by
  rw [addressOf, retarget, Nat.mul_comm, Nat.mul_add_mod, Nat.mod_eq_of_lt h]

@[simp] theorem tagOf_retarget {w : Nat} {a : Nat} (h : a < 2 ^ kTagShift) :
    tagOf (retarget w a) = tagOf w := by
  rw [tagOf, retarget, Nat.mul_comm, Nat.mul_add_div (Nat.two_pow_pos _),
    Nat.div_eq_of_lt h, Nat.add_zero]

@[simp] theorem retarget_addressOf (w : Nat) : retarget w (addressOf w) = w := by
  rw [retarget, tagOf, addressOf, Nat.div_add_mod']

/-! ## The reservation -/

/-- The spaces of a heap, one after the other from `base`: eden, the two survivor spaces,
the mature blocks and the large objects' pages. -/
structure Geometry where
  base : Nat
  edenBytes : Nat
  survivorBytes : Nat
  matureBlocks : Nat
  largeRegions : Nat
  /-- `is_reference_tag`, of a tag. -/
  referenceTag : Nat → Bool
  /-- `raw_address_tag`, not yet shifted into place. -/
  rawTag : Nat
  base_pos : 0 < base
  raw_reference : referenceTag rawTag = true
  addressable : base + edenBytes + 2 * survivorBytes + (matureBlocks + largeRegions) * kBlockBytes ≤
    2 ^ kTagShift

namespace Geometry

variable (g : Geometry)

def edenLo : Nat := g.base

def edenHi : Nat := g.base + g.edenBytes

/-- `survivor_lo[0]` for `false`, `survivor_lo[1]` for `true`. -/
def survivorLo (which : Bool) : Nat := g.edenHi + if which then g.survivorBytes else 0

def survivorHi (which : Bool) : Nat := g.survivorLo which + g.survivorBytes

def matureLo : Nat := g.base + g.edenBytes + 2 * g.survivorBytes

def largeLo : Nat := g.matureLo + g.matureBlocks * kBlockBytes

def heapHi : Nat := g.largeLo + g.largeRegions * kBlockBytes

def isYoung (a : Nat) : Bool := decide (g.base ≤ a ∧ a < g.matureLo)

def isOld (a : Nat) : Bool := decide (g.matureLo ≤ a ∧ a < g.heapHi)

def contains (a : Nat) : Bool := decide (g.base ≤ a ∧ a < g.heapHi)

def inEden (a : Nat) : Bool := decide (g.edenLo ≤ a ∧ a < g.edenHi)

def inSurvivor (which : Bool) (a : Nat) : Bool :=
  decide (g.survivorLo which ≤ a ∧ a < g.survivorHi which)

def inLarge (a : Nat) : Bool := decide (g.largeLo ≤ a ∧ a < g.heapHi)

/-- `is_reference_tag`, of a word. -/
def isReferenceTag (w : Nat) : Bool := g.referenceTag (tagOf w)

/-- The card of an old address, `card_of`. -/
def cardOf (a : Nat) : Nat := (a - g.matureLo) / kCardBytes

def regionOf (a : Nat) : Nat := (a - g.matureLo) / kRegionBytes

def blockBase (index : Nat) : Nat := g.matureLo + index * kBlockBytes

/-- The payload address of the large object whose run starts at page `head`. -/
def largeObjectAt (head : Nat) : Nat := g.largeLo + head * kPageBytes + kHeaderBytes

end Geometry

/-! ## Objects -/

/-- How the references of an object are found. A `custom` layout's trace function is the
host's: from the payload's size and words, the slots that it visits, in order. -/
inductive Layout where
  | leaf
  | mask (bits : Nat)
  | words
  | custom (trace : Nat → (Nat → Nat) → List Nat)
      (traceRange : Option (Nat → (Nat → Nat) → Nat → Nat → List Nat))

/-- An object: its header and its words. The mark of a large object is the old spaces'. -/
structure Obj where
  size : Nat
  layout : Nat
  hostBits : Nat
  age : Nat
  forwarded : Bool
  pinned : Bool
  resident : Bool
  words : Nat → Nat

def Obj.count (o : Obj) : Nat := o.size / kGranuleBytes

/-- Whether payload word `i` is a slot under a mask: bit `i`, and bit 63 for the words from
63 on. -/
def maskBit (bits i : Nat) : Bool := bits.testBit (min i 63)

/-- The slots that `scan_object` visits, in order. -/
def slotsOf (layouts : Nat → Layout) (o : Obj) : List Nat :=
  match layouts o.layout with
  | .leaf => []
  | .words => List.range o.count
  | .mask bits => (List.range o.count).filter (maskBit bits)
  | .custom trace _ => trace o.size o.words

/-- The slots that `scan_object_range` visits for the payload bytes `[lo, hi)`. -/
def rangeSlotsOf (layouts : Nat → Layout) (o : Obj) (lo hi : Nat) : List Nat :=
  let first := lo / kGranuleBytes
  let last := min o.count ((hi + kGranuleBytes - 1) / kGranuleBytes)
  match layouts o.layout with
  | .leaf => []
  | .words => List.range' first (last - first)
  | .mask bits => (List.range' first (last - first)).filter (maskBit bits)
  | .custom trace none => trace o.size o.words
  | .custom _ (some traceRange) => traceRange o.size o.words lo hi

/-- A slot word before and after a collection: the same, or a reference that moved. -/
def Redirected (g : Geometry) (w w' : Nat) : Prop :=
  w' = w ∨ (tagOf w' = tagOf w ∧ g.contains (addressOf w) = true ∧ g.contains (addressOf w') = true)

/-- What the contract of `object.hpp` asks of a host's trace functions: the slots visited
are those of the object's state, the same after a collection redirects some of them; and a
range's visit covers the payload's slots in the range, and visits slots of the object
only. -/
structure Layout.Lawful (g : Geometry) (l : Layout) : Prop where
  stable : ∀ trace range, l = .custom trace range → ∀ size words words',
    (∀ i, i ∉ trace size words → words' i = words i) →
    (∀ i ∈ trace size words, Redirected g (words i) (words' i)) →
    trace size words' = trace size words
  covers : ∀ trace range, l = .custom trace (some range) → ∀ size words lo hi i,
    i ∈ trace size words → kGranuleBytes * i < size → lo ≤ kGranuleBytes * i →
    kGranuleBytes * i < hi → i ∈ range size words lo hi
  within : ∀ trace range, l = .custom trace (some range) → ∀ size words lo hi i,
    i ∈ range size words lo hi → i ∈ trace size words

/-! ## Cards -/

inductive Card where
  | clean
  | dirty
  | dirtyRange
  deriving DecidableEq, Repr

/-! ## The old spaces -/

/-- Two objects, at `a` with a payload of `n` bytes and at `b` with `m`, that share no byte,
headers included. -/
def Apart (a n b m : Nat) : Prop := a + n + kHeaderBytes ≤ b ∨ b + m + kHeaderBytes ≤ a

theorem Apart.symm {a n b m : Nat} (h : Apart a n b m) : Apart b m a n := Or.symm h

/-- What a collection uses of the mature and the large-object space, over their state `A`.
`Fits s sizes` says that the old objects are just those of `sizes`, which gives an
object's payload bytes; an object that the last cycle found dead and whose memory is not
yet swept is none of them. -/
structure OldSpace (A : Type) (g : Geometry) where
  /-- `old_allocate`: the header's address, or `none` when the reservation is exhausted. -/
  allocate : A → Nat → Option (Nat × A)
  noteLargeAllocated : A → Nat → A
  /-- `blocks.size()`. -/
  blockCount : A → Nat
  inUse : A → Nat → Bool
  /-- The start bits in a card of a block, under the marks where the block is unswept. -/
  starts : A → Nat → Nat → List Nat
  largeFrontier : A → Nat
  /-- `large_page_head`, as the head page itself. -/
  pageHead : A → Nat → Option Nat
  /-- The pages of the run that starts at a page. -/
  runPages : A → Nat → Nat
  Fits : A → (Nat → Option Nat) → Prop
  fits_congr : ∀ {s sizes sizes'}, Fits s sizes →
    (∀ a, g.isOld a = true → sizes' a = sizes a) → Fits s sizes'
  allocate_fits : ∀ {s sizes total dest s'}, Fits s sizes → 2 * kGranuleBytes ≤ total →
    total % kGranuleBytes = 0 → allocate s total = some (dest, s') →
    Fits (noteLargeAllocated s' dest)
      (Function.update sizes (dest + kHeaderBytes) (some (total - kHeaderBytes)))
  allocate_apart : ∀ {s sizes total dest s'}, Fits s sizes → 2 * kGranuleBytes ≤ total →
    total % kGranuleBytes = 0 → allocate s total = some (dest, s') →
    g.matureLo ≤ dest ∧ dest + total ≤ g.heapHi ∧
    ∀ a n, g.isOld a = true → sizes a = some n →
      Apart (dest + kHeaderBytes) (total - kHeaderBytes) a n
  /-- An allocation makes no run dead. -/
  allocate_head : ∀ {s sizes total dest s'}, Fits s sizes → 2 * kGranuleBytes ≤ total →
    total % kGranuleBytes = 0 → allocate s total = some (dest, s') → ∀ {p head},
    pageHead (noteLargeAllocated s' dest) p = some head →
    pageHead s p = some head ∨ g.largeObjectAt head = dest + kHeaderBytes
  mature_start : ∀ {s sizes a n}, Fits s sizes → g.isOld a = true → g.inLarge a = false →
    sizes a = some n → ∃ i c b, i < blockCount s ∧ inUse s i = true ∧ c < kCardsPerBlock ∧
      b ∈ starts s i c ∧ a = g.blockBase i + (c * 64 + b) * kGranuleBytes
  start_mature : ∀ {s sizes i c b}, Fits s sizes → c < kCardsPerBlock → b ∈ starts s i c →
    b < 64 ∧ i < g.matureBlocks ∧
      (sizes (g.blockBase i + (c * 64 + b) * kGranuleBytes)).isSome
  blocks_le : ∀ {s sizes}, Fits s sizes → blockCount s ≤ g.matureBlocks
  large_run : ∀ {s sizes a n}, Fits s sizes → g.inLarge a = true → sizes a = some n →
    ∃ head, a = g.largeObjectAt head ∧ n + kHeaderBytes ≤ runPages s head * kPageBytes ∧
      ∀ p, head ≤ p → p < head + runPages s head → pageHead s p = some head
  page_run : ∀ {s sizes p head}, Fits s sizes → pageHead s p = some head →
    head ≤ p ∧ p < head + runPages s head ∧ p < largeFrontier s
  frontier_le : ∀ {s sizes}, Fits s sizes →
    g.largeLo + largeFrontier s * kPageBytes ≤ g.heapHi

end Brass.Gc.Heap
