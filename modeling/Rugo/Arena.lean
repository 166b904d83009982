import Rugo.Lib.Exec
import Rugo.Lib.Words

/- The per-shard slab allocator (`rugo-arena/src/lib.rs`, `src/segment.rs`).

   A `Ref` is four bytes. With the top bit clear it names a segment and a four
   byte unit within it; with the bit set it indexes a table of oversized blocks.
   Small blocks are cut off the newest segment, or come off the free list of
   their class, whose links lie in the first four bytes of the free blocks
   themselves. `Platform` is what `segment.rs` decides at build time, and
   `granted` whether the operating system gives a segment when one is asked for.

   Each definition is the source function of the same name. The fields `live`,
   `dead`, `largeLive` and `segmentBytes` are the totals the source keeps; every
   subtraction from one is checked here, so a total that would go below zero
   stops the run with `Panic.underflow`. -/
namespace Rugo
open Exec Words

/-! ## Where a segment's bytes come from -/

abbrev Segment := List UInt8

/-- What holds a segment: a mapping, rounded up to pages, or a boxed slice. On
every platform the source runs on a page divides the smallest segment. -/
inductive Platform where
  | mapped (page : Nat) (h : page ∣ 1024 * 1024)
  | boxed

def nextMultipleOf (x n : Nat) : Nat := if x % n = 0 then x else x + (n - x % n)

namespace Platform

/-- Whether a byte of a segment that has not been written to is free. -/
def lazy : Platform → Bool
  | mapped .. => true
  | boxed => false

/-- The unit an untouched byte is charged in. -/
def granule : Platform → Nat
  | mapped page _ => page
  | boxed => 1

/-- `Segment::new`: at least `size` zeroed bytes, or nothing where the
operating system refuses the mapping. A boxed slice is never refused. -/
def newSegment (p : Platform) (granted : Bool) (size : Nat) : Option Segment :=
  match p with
  | mapped .. => if granted then some (List.replicate (nextMultipleOf size p.granule) 0) else none
  | boxed => some (List.replicate size 0)

/-- The first segment a shard allocates. -/
def minSegment (p : Platform) : Nat := if p.lazy then 1024 * 1024 else 4 * 1024

/-- The largest a segment grows to. -/
def maxSegment (p : Platform) : Nat := if p.lazy then 8 * 1024 * 1024 else 2 * 1024 * 1024

/-- The reciprocal of how much a new segment adds to what is held. -/
def growth (p : Platform) : Nat := if p.lazy then 1 else 16

/-- How large the next segment should be. -/
def nextSegmentSize (p : Platform) (held : Nat) : Nat :=
  let share := held / p.growth
  if share ≥ p.maxSegment then p.maxSegment
  else
    let wanted := nextMultipleOf share p.minSegment
    if wanted < p.minSegment then p.minSegment else wanted

end Platform

/-! ## References -/

/-- The allocation grain. -/
def grain : Nat := 4

/-- The largest allocation the slab serves. -/
def smallMax : Nat := 2048

/-- Bits of a `Ref` naming a segment. -/
def segBits : UInt32 := 10

/-- Bits of a `Ref` naming a four byte unit within a segment. -/
def offBits : UInt32 := 21

/-- The mask that takes the unit offset out of a `Ref`. -/
def offMask : UInt32 := ((1 : UInt32) <<< offBits) - 1

/-- Segments one shard may have. -/
def maxSegments : Nat := 1 <<< segBits.toNat

/-- How many segments an arena holds inside itself. -/
def inlineSegments : Nat := 4

/-- The top bit of a `Ref`, set when it indexes the oversized table. -/
def LARGE : UInt32 := (1 : UInt32) <<< 31

/-- `u32::MAX`, the link of a free list's last block. -/
def u32Max : UInt32 := 0xffffffff

/-- A reference to bytes in an arena. -/
@[ext]
structure Ref where
  bits : UInt32
  deriving DecidableEq, Repr

namespace Ref

/-- The absence of a reference. -/
def NONE : Ref := ⟨u32Max⟩

def isNone (at_ : Ref) : Bool := at_.bits == u32Max

/-- Whether the reference indexes the oversized table. -/
def isLarge (at_ : Ref) : Bool := at_.bits &&& LARGE != 0

def index (at_ : Ref) : Nat := (at_.bits &&& ~~~LARGE).toNat

end Ref

/-- Why an allocation could not be served. -/
inductive Full where
  | slab
  | large
  | memory
  deriving DecidableEq, Repr

def narrow (count : Nat) : UInt32 := UInt32.ofNat count

/-! ## The allocator -/

structure Arena where
  head : Vector Segment inlineSegments
  tail : List Segment
  made : Nat
  seg : UInt32
  off : UInt32
  /-- Free list heads, one per size class in use (`free`). -/
  heads : List UInt32
  large : List (List UInt8)
  /-- Indices into `large` that are holes, the next to be reused first. -/
  largeFree : List UInt32
  live : Nat
  dead : Nat
  largeLive : Nat
  segmentBytes : Nat

namespace Arena

def new : Arena where
  head := .replicate _ []
  tail := []
  made := 0
  seg := 0
  off := 0
  heads := []
  large := []
  largeFree := []
  live := 0
  dead := 0
  largeLive := 0
  segmentBytes := 0

/-- The size class an allocation falls in, or nothing if it is oversized. -/
def classOf (len : Nat) : Option Nat :=
  if len = 0 ∨ len > smallMax then none else some ((len + grain - 1) / grain - 1)

/-- A reference out of a segment number and a unit offset within it. -/
def make (seg off : UInt32) : Ref := ⟨(seg <<< offBits) ||| off⟩

/-- Where a small reference lands: which segment, how many bytes into it. -/
def place (at_ : Ref) : Nat × Nat :=
  ((at_.bits >>> offBits).toNat, (at_.bits &&& offMask).toNat * grain)

/-- The bytes of segment number `seg`, or none if there is no such segment. -/
def segment (a : Arena) (seg : Nat) : Segment :=
  if h : seg < inlineSegments then a.head[seg] else (a.tail[seg - inlineSegments]?).getD []

/-- Segment number `seg` with other bytes, for what is written through
`segment_mut`. -/
def setSegment (a : Arena) (seg : Nat) (bytes : Segment) : Arena :=
  if h : seg < inlineSegments then { a with head := a.head.set seg bytes }
  else { a with tail := a.tail.set (seg - inlineSegments) bytes }

/-- The bytes behind `at_`, which must be a live reference of length `len`. -/
def get (a : Arena) (at_ : Ref) (len : Nat) : Exec (List UInt8) :=
  if at_.isLarge then index a.large at_.index
  else
    let (seg, off) := place at_
    slice (a.segment seg) off (off + len)

/-- The bytes behind `at_`, changed by `edit`. -/
def getMut (a : Arena) (at_ : Ref) (len : Nat) (edit : List UInt8 → Exec (List UInt8)) :
    Exec Arena :=
  if at_.isLarge then do
    let block ← index a.large at_.index
    let block ← edit block
    let large ← update a.large at_.index block
    pure { a with large }
  else do
    let (seg, off) := place at_
    let bytes ← slice (a.segment seg) off (off + len)
    let bytes ← edit bytes
    let bytes ← splice (a.segment seg) off bytes
    pure (a.setSegment seg bytes)

/-- Up to `len` bytes behind `at_`, however many of them are there. -/
def peek (a : Arena) (at_ : Ref) (len : Nat) : Exec (List UInt8) :=
  if at_.isLarge then do
    let block ← index a.large at_.index
    slice block 0 (min len block.length)
  else
    let (seg, off) := place at_
    let segment := a.segment seg
    slice segment off (min (off + len) segment.length)

/-- Read the free list link stored inside a free block. -/
def nextFree (a : Arena) (at_ : Ref) : Exec UInt32 := do
  let (seg, off) := place at_
  let buf ← slice (a.segment seg) off (off + 4)
  pure (u32OfBytes buf)

def setNextFree (a : Arena) (at_ : Ref) (next : UInt32) : Exec Arena := do
  let (seg, off) := place at_
  let bytes ← splice (a.segment seg) off (u32Bytes next)
  pure (a.setSegment seg bytes)

def pushFree (a : Arena) (at_ : Ref) (len : Nat) : Exec Arena := do
  let cls ← minus (len / grain) 1
  let head ← index a.heads cls
  let a ← { a with dead := a.dead + len }.setNextFree at_ head
  let heads ← update a.heads cls at_.bits
  pure { a with heads }

/-- Append a segment, inline while there is room. -/
def push (a : Arena) (segment : Segment) : Arena :=
  if h : a.made < inlineSegments then { a with head := a.head.set a.made segment }
  else { a with tail := a.tail ++ [segment] }

def grow (p : Platform) (granted : Bool) (a : Arena) : Except Full Arena :=
  if a.made ≥ maxSegments then .error .slab
  else match p.newSegment granted (p.nextSegmentSize a.segmentBytes) with
    | none => .error .memory
    | some segment => .ok
        { a.push segment with
          segmentBytes := a.segmentBytes + segment.length
          seg := narrow a.made
          made := a.made + 1
          off := 0 }

/-- A slot of the oversized table: a hole, or one past the end. -/
def largeSlot (a : Arena) : Except Full (UInt32 × Arena) :=
  match a.largeFree with
  | hole :: rest => .ok (hole, { a with largeFree := rest })
  | [] =>
    let at_ := narrow a.large.length
    if a.large.length > u32Max.toNat then .error .large
    else if at_ &&& LARGE ≠ 0 then .error .large
    else .ok (at_, { a with large := a.large ++ [[]] })

/-- Reserve an oversized allocation. -/
def allocLarge (a : Arena) (len : Nat) : Exec (Except Full Ref × Arena) :=
  match a.largeSlot with
  | .error full => pure (.error full, a)
  | .ok (at_, a) => do
    let large ← update a.large at_.toNat (List.replicate len 0)
    pure (.ok ⟨at_ ||| LARGE⟩,
      { a with live := a.live + len, largeLive := a.largeLive + len, large })

def reach (a : Arena) (cls : Nat) : Arena :=
  if cls ≥ a.heads.length then
    { a with heads := a.heads ++ List.replicate (cls + 1 - a.heads.length) u32Max }
  else a

def takeFree (a : Arena) (cls : Nat) (head : UInt32) : Exec (Ref × Arena) := do
  let rounded := (cls + 1) * grain
  let next ← a.nextFree ⟨head⟩
  let heads ← update a.heads cls next
  let dead ← minus a.dead rounded
  pure (⟨head⟩, { a with heads, dead, live := a.live + rounded })

/-- Units left uncut in the current segment. -/
def room (a : Arena) : Exec Nat :=
  match a.segment a.seg.toNat with
  | [] => pure 0
  | segment => minus (narrow (segment.length / grain)).toNat a.off.toNat

/-- A tail too short for the request goes on the free list of its class. -/
def abandon (a : Arena) (room : Nat) : Exec Arena :=
  if room > 0 then a.pushFree (make a.seg a.off) (room * grain) else pure a

def bump (a : Arena) (rounded : Nat) : Ref × Arena :=
  (make a.seg a.off,
    { a with off := a.off + narrow (rounded / grain), live := a.live + rounded })

def cutGrown (p : Platform) (granted : Bool) (a : Arena) (rounded : Nat) : Except Full Ref × Arena :=
  match a.grow p granted with
  | .error full => (.error full, a)
  | .ok a => (.ok (a.bump rounded).1, (a.bump rounded).2)

/-- A block cut fresh: the tail that is too short for it is given up before the
segment that replaces it is asked for. -/
def cut (p : Platform) (granted : Bool) (a : Arena) (rounded : Nat) :
    Exec (Except Full Ref × Arena) := do
  let room ← a.room
  if room < (narrow (rounded / grain)).toNat then do
    let a ← a.abandon room
    pure (a.cutGrown p granted rounded)
  else pure (.ok (a.bump rounded).1, (a.bump rounded).2)

/-- Reserve `len` bytes. What an error leaves behind is returned with it. -/
def alloc (p : Platform) (granted : Bool) (a : Arena) (len : Nat) :
    Exec (Except Full Ref × Arena) :=
  match classOf len with
  | none => a.allocLarge len
  | some cls => do
    let a := a.reach cls
    let head ← index a.heads cls
    if head ≠ u32Max then do
      let (at_, a) ← a.takeFree cls head
      pure (.ok at_, a)
    else a.cut p granted ((cls + 1) * grain)

/-- Give `at_`, which must have been `len` bytes from `alloc`, back. -/
def free (a : Arena) (at_ : Ref) (len : Nat) : Exec Arena :=
  if at_.isNone then pure a
  else match classOf len with
    | none => do
      let held ← index a.large at_.index
      let live ← minus a.live held.length
      let largeLive ← minus a.largeLive held.length
      let large ← update a.large at_.index []
      pure { a with live, largeLive, large, largeFree := (at_.bits &&& ~~~LARGE) :: a.largeFree }
    | some cls => do
      let rounded := (cls + 1) * grain
      let live ← minus a.live rounded
      { a with live }.pushFree at_ rounded

/-! ## What is charged for -/

/-- Bytes of segment that are being charged for. -/
def held (p : Platform) (a : Arena) : Exec Nat :=
  if !p.lazy then pure a.segmentBytes
  else if a.made = 0 then pure 0
  else do
    let last := a.segment (a.made - 1)
    let written := nextMultipleOf (a.off.toNat * grain) p.granule
    let whole ← minus a.segmentBytes last.length
    pure (whole + min written last.length)

/-- What the lists' own allocations hold: `Vec::capacity` of each. -/
structure Capacities where
  tail : Nat
  large : Nat
  largeFree : Nat
  heads : Nat

/-- What this arena's own lists cost. -/
def tables (c : Capacities) : Nat := c.tail * 16 + c.large * 16 + c.largeFree * 4 + c.heads * 4

/-- Every byte this arena is being charged for. -/
def residentBytes (p : Platform) (c : Capacities) (a : Arena) : Exec Nat := do
  let held ← a.held p
  pure (held + a.largeLive + tables c)

/-- Every byte of address space this arena holds. -/
def mappedBytes (c : Capacities) (a : Arena) : Nat := a.segmentBytes + a.largeLive + tables c

end Arena
end Rugo
