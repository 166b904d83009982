import Rugo.Entry
import Rugo.Group
import Rugo.Arena
import Rugo.Hash

/- One shard's table (`rugo-map/src/table.rs`): control bytes, slots, and the
   arena the entries live in. `imp` is the group probe the target compiled,
   `p` the platform the arena is on, and `granted` the operating system's answer
   should an allocation need a segment.

   Every read of a slice is checked, every counter's decrement is checked, and
   a probe that has walked every group without an answer stops with
   `Panic.spin`: the source would walk them again for ever. -/
namespace Rugo
open Exec Words

/-- The smallest table, in slots. -/
def minCapacity : Nat := 16

/-- The longest entry header. -/
def maxHeader : Nat := 11

/-- Occupancy at which the table grows, as a fraction. -/
def loadNum : Nat := 7
@[inherit_doc loadNum] def loadDen : Nat := 8

inductive Wrote where
  | inserted
  | replaced
  deriving DecidableEq, Repr

structure Table where
  /-- One byte per slot: a tag, `EMPTY` or `DELETED`. -/
  ctrl : List UInt8
  /-- One `Ref` per slot, meaningful only where the control byte is a tag. -/
  slots : List UInt32
  arena : Arena
  /-- Live entries. -/
  len : Nat
  /-- Slots holding `DELETED`. -/
  tombstones : Nat
  /-- Entries carrying an expiry. -/
  timed : Nat
  /-- Inserts remaining before the table has to be rebuilt. -/
  growthLeft : Nat
  seed : UInt64

/-- The low bits of a hash as a group number, in a table of `mask + 1` groups. -/
def groupOf (hash : UInt64) (mask : Nat) : Nat := hash.toNat &&& mask

/-- The splitmix64 finaliser. -/
def mix (x : UInt64) : UInt64 :=
  let x := (x ^^^ (x >>> 30)) * 0xbf58476d1ce4e5b9
  let x := (x ^^^ (x >>> 27)) * 0x94d049bb133111eb
  x ^^^ (x >>> 31)

/-- A slot number drawn from the top half of `bits`. -/
def spot (bits : UInt64) (capacity : Nat) : Nat := (bits >>> 32).toNat &&& (capacity - 1)

/-- `usize::next_power_of_two`. -/
def nextPowerOfTwo (n : Nat) : Nat := if n ≤ 1 then 1 else 2 ^ ((n - 1).log2 + 1)

/-- Walk the groups of `ctrl` from `group` on, `step` further each time, to the
first lane `pick` lights. -/
def walkTo (imp : Imp) (pick : List UInt8 → BitMask) (ctrl : List UInt8) (mask : Nat) :
    Nat → Nat → Nat → Exec Nat
  | 0, _, _ => .error .spin
  | fuel + 1, group, step => do
    let base := group * imp.width
    let probe ← slice ctrl base (base + imp.width)
    match imp.lowest (pick probe) with
    | some lane => pure (base + lane)
    | none => walkTo imp pick ctrl mask fuel ((group + step) &&& mask) (step + 1)

namespace Table

/-- An empty table that owns no slots and no arena. -/
def new (seed : UInt64) : Table where
  ctrl := []
  slots := []
  arena := Arena.new
  len := 0
  tombstones := 0
  timed := 0
  growthLeft := 0
  seed

def groups (imp : Imp) (t : Table) : Nat := t.slots.length / imp.width

def groupAt (imp : Imp) (t : Table) (at_ : Nat) : Exec (List UInt8) :=
  slice t.ctrl at_ (at_ + imp.width)

/-! ## Reading an entry -/

def headAt (t : Table) (at_ : Ref) : Exec Entry.Head := do
  let bytes ← t.arena.peek at_ maxHeader
  Entry.head bytes

/-- The header of the entry at `at_`, and the bytes it describes. -/
def entryAt (t : Table) (at_ : Ref) : Exec (Entry.Head × List UInt8) := do
  let head ← t.headAt at_
  let bytes ← t.arena.get at_ head.size
  pure (head, bytes)

/-- When the entry at `at_` expires, if it does. -/
def expiryOf (t : Table) (at_ : Ref) (head : Entry.Head) : Exec (Option UInt32) :=
  if head.flags &&& Entry.hasExpiry = 0 then pure none
  else do
    let bytes ← t.arena.get at_ head.size
    head.expiry bytes

/-- `is_some_and(|when| when <= now)`. -/
def passed (expiry : Option UInt32) (now : UInt32) : Bool :=
  match expiry with
  | some when => decide (when ≤ now)
  | none => false

/-- Record that an entry which did or did not carry an expiry now does or does not. -/
def retime (t : Table) (was now : Bool) : Exec Table :=
  if was && !now then do
    let timed ← minus t.timed 1
    pure { t with timed }
  else if !was && now then pure { t with timed := t.timed + 1 }
  else pure t

/-- The first of these lanes whose entry has the key. -/
def matchKey (t : Table) (key : List UInt8) (base : Nat) :
    List Nat → Exec (Option (Nat × Entry.Head))
  | [] => pure none
  | lane :: rest => do
    let slot ← index t.slots (base + lane)
    let (head, bytes) ← t.entryAt ⟨slot⟩
    let held ← head.key bytes
    if held = key then pure (some (base + lane, head)) else t.matchKey key base rest

def findLoop (imp : Imp) (t : Table) (key : List UInt8) (tag : UInt8) (mask : Nat) :
    Nat → Nat → Nat → Exec (Option (Nat × Entry.Head))
  | 0, _, _ => .error .spin
  | fuel + 1, group, step => do
    let base := group * imp.width
    let probe ← t.groupAt imp base
    let found ← t.matchKey key base (imp.lanes (imp.matchByte probe tag))
    match found with
    | some hit => pure (some hit)
    | none =>
      if Imp.any (imp.matchEmpty probe) then pure none
      else findLoop imp t key tag mask fuel ((group + step) &&& mask) (step + 1)

def find (imp : Imp) (t : Table) (key : List UInt8) (hash : UInt64) :
    Exec (Option (Nat × Entry.Head)) :=
  if t.slots.isEmpty then pure none
  else do
    let mask ← minus (t.groups imp) 1
    t.findLoop imp key (Ctrl.tagOf hash) mask (t.groups imp) (groupOf hash mask) 1

/-- The first slot in `hash`'s probe sequence a new entry may be placed in. -/
def freeSlot (imp : Imp) (t : Table) (hash : UInt64) : Exec Nat := do
  let mask ← minus (t.groups imp) 1
  walkTo imp imp.matchFree t.ctrl mask (t.groups imp) (groupOf hash mask) 1

def isExpired (t : Table) (at_ : Nat) (now : UInt32) : Exec Bool := do
  let slot ← index t.slots at_
  let head ← t.headAt ⟨slot⟩
  let expiry ← t.expiryOf ⟨slot⟩ head
  pure (passed expiry now)

/-! ## Dropping an entry -/

/-- The control byte of an erased slot, with the count it moves. -/
def vacate (imp : Imp) (t : Table) (at_ : Nat) : Exec Table := do
  let probe ← t.groupAt imp (at_ - at_ % imp.width)
  if Imp.any (imp.matchEmpty probe) then do
    let ctrl ← update t.ctrl at_ Ctrl.empty
    pure { t with ctrl, growthLeft := t.growthLeft + 1 }
  else do
    let ctrl ← update t.ctrl at_ Ctrl.deleted
    pure { t with ctrl, tombstones := t.tombstones + 1 }

/-- Drop the entry in slot `at_`, leaving the slot reusable. -/
def erase (imp : Imp) (t : Table) (at_ : Nat) : Exec Table := do
  let slot ← index t.slots at_
  let head ← t.headAt ⟨slot⟩
  let t ← t.vacate imp at_
  let slots ← update t.slots at_ Ref.NONE.bits
  let arena ← t.arena.free ⟨slot⟩ head.size
  let len ← minus t.len 1
  { t with slots, arena, len }.retime head.timed false

/-! ## Lookups -/

/-- The slot of `key` and its header; an entry found to have expired is dropped
and not reported. -/
def lookup (imp : Imp) (t : Table) (key : List UInt8) (hash : UInt64) (now : UInt32) :
    Exec (Option (Nat × Ref × Entry.Head) × Table) := do
  let found ← t.find imp key hash
  match found with
  | none => pure (none, t)
  | some (at_, head) => do
    let slot ← index t.slots at_
    let expiry ← t.expiryOf ⟨slot⟩ head
    if passed expiry now then do
      let t ← t.erase imp at_
      pure (none, t)
    else pure (some (at_, ⟨slot⟩, head), t)

/-- The value stored under `key`, if it is there and has not expired. -/
def get (imp : Imp) (t : Table) (key : List UInt8) (hash : UInt64) (now : UInt32) :
    Exec (Option (List UInt8) × Table) := do
  let (found, t) ← t.lookup imp key hash now
  match found with
  | none => pure (none, t)
  | some (_, entry, head) => do
    let bytes ← t.arena.get entry head.size
    let value ← head.value bytes
    pure (some value, t)

def view (imp : Imp) (t : Table) (key : List UInt8) (hash : UInt64) (now : UInt32) :
    Exec (Option Entry.View × Table) := do
  let (found, t) ← t.lookup imp key hash now
  match found with
  | none => pure (none, t)
  | some (_, entry, head) => do
    let bytes ← t.arena.get entry head.size
    let view ← head.view bytes
    pure (some view, t)

def contains (imp : Imp) (t : Table) (key : List UInt8) (hash : UInt64) (now : UInt32) :
    Exec (Bool × Table) := do
  let (found, t) ← t.lookup imp key hash now
  pure (found.isSome, t)

/-- Remove `key`, reporting whether it was there. -/
def remove (imp : Imp) (t : Table) (key : List UInt8) (hash : UInt64) : Exec (Bool × Table) := do
  let found ← t.find imp key hash
  match found with
  | none => pure (false, t)
  | some (at_, _) => do
    let t ← t.erase imp at_
    pure (true, t)

/-! ## Rebuilding -/

/-- The arrays being built. -/
structure Arrays where
  ctrl : List UInt8
  slots : List UInt32

/-- One slot of the old arrays placed in the new ones. -/
def place (imp : Imp) (t : Table) (mask : Nat) (at_ : Nat) (new : Arrays) : Exec Arrays := do
  let byte ← index t.ctrl at_
  if !Ctrl.isFull byte then pure new
  else do
    let slot ← index t.slots at_
    let (head, bytes) ← t.entryAt ⟨slot⟩
    let key ← head.key bytes
    let hash := Hash.hash key t.seed
    let put ← walkTo imp imp.matchEmpty new.ctrl mask (mask + 1) (groupOf hash mask) 1
    let ctrl ← update new.ctrl put (Ctrl.tagOf hash)
    let slots ← update new.slots put slot
    pure { ctrl, slots }

/-- Rebuild the table at `capacity` slots. -/
def rehash (imp : Imp) (t : Table) (capacity : Nat) : Exec Table := do
  let mask ← minus (capacity / imp.width) 1
  let new ← forRange t.slots.length (t.place imp mask)
    { ctrl := List.replicate capacity Ctrl.empty, slots := List.replicate capacity Ref.NONE.bits }
  let growthLeft ← minus (capacity * loadNum / loadDen) t.len
  pure { t with ctrl := new.ctrl, slots := new.slots, tombstones := 0, growthLeft }

/-- Make room for at least one more insert. -/
def reserve (imp : Imp) (t : Table) : Exec Table :=
  let wanted :=
    if t.slots.isEmpty then minCapacity
    else if t.tombstones ≥ t.len then t.slots.length
    else t.slots.length * 2
  t.rehash imp wanted

/-- Give back index slots the table has stopped needing, reporting whether it did. -/
def shrink (imp : Imp) (t : Table) : Exec (Bool × Table) :=
  if t.slots.length ≤ minCapacity then pure (false, t)
  else
    let wanted := max (nextPowerOfTwo (t.len * 2)) minCapacity
    if wanted ≥ t.slots.length then pure (false, t)
    else do
      let t ← t.rehash imp wanted
      pure (true, t)

/-! ## Writing -/

/-- A new block with a whole entry in it. -/
def store (p : Platform) (granted : Bool) (t : Table) (size : Nat) (key value : List UInt8)
    (expiry userFlags : Option UInt32) : Exec (Except Full Ref × Table) := do
  let (res, arena) ← t.arena.alloc p granted size
  match res with
  | .error full => pure (.error full, { t with arena })
  | .ok new => do
    let arena ← arena.getMut new size fun into => Entry.write into key value expiry userFlags
    pure (.ok new, { t with arena })

/-- The entry in slot `at_` moved to the block it has just been written in. -/
def swap (t : Table) (at_ : Nat) (old new : Ref) (size : Nat) (was now : Bool) : Exec Table := do
  let arena ← t.arena.free old size
  let slots ← update t.slots at_ new.bits
  { t with arena, slots }.retime was now

/-- `set` of a key that is there. -/
def replace (p : Platform) (granted : Bool) (t : Table) (at_ : Nat) (head : Entry.Head) (size : Nat)
    (key value : List UInt8) (expiry userFlags : Option UInt32) :
    Exec (Except Full Wrote × Table) := do
  let slot ← index t.slots at_
  if head.size = size then do
    let arena ← t.arena.getMut ⟨slot⟩ size fun into => Entry.write into key value expiry userFlags
    let t ← { t with arena }.retime head.timed expiry.isSome
    pure (.ok .replaced, t)
  else do
    let (res, t) ← t.store p granted size key value expiry userFlags
    match res with
    | .error full => pure (.error full, t)
    | .ok new => do
      let t ← t.swap at_ ⟨slot⟩ new head.size head.timed expiry.isSome
      pure (.ok .replaced, t)

/-- A slot taken: a tombstone was already counted as used, an empty slot was not. -/
def occupy (t : Table) (at_ : Nat) : Exec Table := do
  let byte ← index t.ctrl at_
  if byte = Ctrl.deleted then do
    let tombstones ← minus t.tombstones 1
    pure { t with tombstones }
  else do
    let growthLeft ← minus t.growthLeft 1
    pure { t with growthLeft }

def ensure (imp : Imp) (t : Table) : Exec Table :=
  if t.growthLeft = 0 then t.reserve imp else pure t

/-- `set` of a key that is not there. -/
def insert (imp : Imp) (p : Platform) (granted : Bool) (t : Table) (hash : UInt64) (size : Nat)
    (key value : List UInt8) (expiry userFlags : Option UInt32) :
    Exec (Except Full Wrote × Table) := do
  let t ← t.ensure imp
  let (res, t) ← t.store p granted size key value expiry userFlags
  match res with
  | .error full => pure (.error full, t)
  | .ok new => do
    let at_ ← t.freeSlot imp hash
    let t ← t.occupy at_
    let ctrl ← update t.ctrl at_ (Ctrl.tagOf hash)
    let slots ← update t.slots at_ new.bits
    let t ← { t with ctrl, slots, len := t.len + 1 }.retime false expiry.isSome
    pure (.ok .inserted, t)

def set (imp : Imp) (p : Platform) (granted : Bool) (t : Table) (key value : List UInt8)
    (hash : UInt64) (expiry userFlags : Option UInt32) : Exec (Except Full Wrote × Table) := do
  let size := Entry.sizeOfEntry key.length value.length expiry.isSome userFlags.isSome
  let found ← t.find imp key hash
  match found with
  | some (at_, head) => t.replace p granted at_ head size key value expiry userFlags
  | none => t.insert imp p granted hash size key value expiry userFlags

/-- An entry whose trailer changes width, rewritten where it fits. -/
def rewrite (p : Platform) (granted : Bool) (t : Table) (at_ : Nat) (entry : Ref) (head : Entry.Head)
    (expiry : Option UInt32) : Exec (Except Full Bool × Table) := do
  let bytes ← t.arena.get entry head.size
  let decoded ← Entry.head bytes
  let userFlags ← decoded.userFlags bytes
  let size := Entry.sizeOfEntry decoded.klen decoded.vlen expiry.isSome userFlags.isSome
  let key ← decoded.key bytes
  let value ← decoded.value bytes
  let (res, t) ← t.store p granted size key value expiry userFlags
  match res with
  | .error full => pure (.error full, t)
  | .ok new => do
    let t ← t.swap at_ entry new head.size head.timed expiry.isSome
    pure (.ok true, t)

/-- Change when `key` expires, reporting whether the key was there to change. -/
def expire (imp : Imp) (p : Platform) (granted : Bool) (t : Table) (key : List UInt8) (hash : UInt64)
    (expiry : Option UInt32) (now : UInt32) : Exec (Except Full Bool × Table) := do
  let (found, t) ← t.lookup imp key hash now
  match found with
  | none => pure (.ok false, t)
  | some (at_, entry, head) =>
    match head.timed, expiry with
    | true, some when => do
      let arena ← t.arena.getMut entry head.size fun into =>
        splice into (head.header + head.klen + head.vlen) (u32Bytes when)
      pure (.ok true, { t with arena })
    | false, none => pure (.ok true, t)
    | _, _ => t.rewrite p granted at_ entry head expiry

/-! ## Whole-table operations -/

def release (t : Table) (at_ : Nat) : Exec Arena := do
  let byte ← index t.ctrl at_
  if Ctrl.isFull byte then do
    let slot ← index t.slots at_
    let head ← t.headAt ⟨slot⟩
    t.arena.free ⟨slot⟩ head.size
  else pure t.arena

def clearSlot (at_ : Nat) (t : Table) : Exec Table := do
  let arena ← t.release at_
  let ctrl ← update t.ctrl at_ Ctrl.empty
  let slots ← update t.slots at_ Ref.NONE.bits
  pure { t with arena, ctrl, slots }

/-- Drop every entry, keeping the slots. -/
def clear (t : Table) : Exec Table := do
  let t ← forRange t.slots.length clearSlot t
  pure { t with
    len := 0
    tombstones := 0
    timed := 0
    growthLeft := t.slots.length * loadNum / loadDen }

/-- Whether the sweep drops slot `at_`. -/
def due (t : Table) (at_ : Nat) (now : UInt32) : Exec Bool := do
  let byte ← index t.ctrl at_
  if Ctrl.isFull byte then t.isExpired at_ now else pure false

/-- Where a sweep stands. -/
structure Sweep where
  at_ : Nat
  removed : Nat
  table : Table

/-- One slot of `sweep`. -/
def sweepSlot (imp : Imp) (now : UInt32) (capacity : Nat) (s : Sweep) : Exec Sweep := do
  let gone ← s.table.due s.at_ now
  if gone then do
    let table ← s.table.erase imp s.at_
    pure { at_ := (s.at_ + 1) % capacity, removed := s.removed + 1, table }
  else pure { s with at_ := (s.at_ + 1) % capacity }

/-- Remove entries that expired at or before `now`, visiting at most `budget`
slots from `from_`: where to resume and how many went. -/
def sweep (imp : Imp) (t : Table) (from_ budget : Nat) (now : UInt32) :
    Exec ((Nat × Nat) × Table) :=
  if t.timed = 0 then pure ((from_, 0), t)
  else if t.slots.isEmpty then pure ((0, 0), t)
  else do
    let capacity := t.slots.length
    let s ← forRange (min budget capacity) (fun _ => sweepSlot imp now capacity)
      { at_ := from_ % capacity, removed := 0, table := t }
    pure ((s.at_, s.removed), s.table)

/-- When the entry in slot `at_` expires, with no expiry reading as never. -/
def deadline (t : Table) (at_ : Nat) : Exec UInt32 := do
  let slot ← index t.slots at_
  let head ← t.headAt ⟨slot⟩
  let expiry ← t.expiryOf ⟨slot⟩ head
  pure (expiry.getD u32Max)

/-- The first of these slots that is occupied and is not `spare`. -/
def firstFull (t : Table) (spare : Option Nat) : List Nat → Exec (Option Nat)
  | [] => pure none
  | at_ :: rest => do
    let byte ← index t.ctrl at_
    if Ctrl.isFull byte ∧ some at_ ≠ spare then pure (some at_) else t.firstFull spare rest

/-- The first occupied slot at or after `from_` that is not `spare`, wrapping once. -/
def nearestFull (t : Table) (from_ : Nat) (spare : Option Nat) : Exec (Option Nat) :=
  let capacity := t.slots.length
  t.firstFull spare ((List.range capacity).map fun step => (from_ + step) % capacity)

/-- Drop one entry chosen by sampling, never choosing `spare`. -/
def evictOne (imp : Imp) (t : Table) (roll : UInt64) (spare : Option Nat) : Exec (Bool × Table) :=
  if t.len = 0 then pure (false, t)
  else do
    let capacity := t.slots.length
    let once := mix roll
    let twice := mix once
    let first ← t.nearestFull (spot once capacity) spare
    let second ← t.nearestFull (spot twice capacity) spare
    match first, second with
    | some first, some second => do
      let d1 ← t.deadline first
      let d2 ← t.deadline second
      let t ← t.erase imp (if d1 ≤ d2 then first else second)
      pure (true, t)
    | _, _ => pure (false, t)

/-- Which slot holds `key`, or nothing if it is not here. -/
def slotOf (imp : Imp) (t : Table) (key : List UInt8) (hash : UInt64) : Exec (Option Nat) := do
  let found ← t.find imp key hash
  pure (found.map Prod.fst)

def liveBytes (t : Table) : Nat := t.arena.live

end Table
end Rugo
