import Rugo.Table
import Rugo.Resp

/- The sharded map (`rugo-map/src/lib.rs`): a power of two of tables, each behind
   its own lock, picked by the top bits of the key's hash.

   What runs under a shard's lock is a function of its table and of the clock's
   reading; `withKey` runs one and publishes what the table then holds. A `Sky` is
   what the operating system has to say meanwhile: the second the clock reads, and
   whether a segment is granted, should the arena ask for one. -/
namespace Rugo
open Exec

/-- What an operation cannot know by itself. -/
structure Sky where
  now : UInt32
  granted : Bool

/-- What a conditional write asks about the key it is about to overwrite. -/
inductive When where
  | always
  | absent
  | present
  deriving DecidableEq, Repr

/-- What a write does about the expiry. -/
inductive Expiry where
  | at_ (when_ : UInt32)
  | never
  | keep
  deriving DecidableEq, Repr

/-- Why an increment did not happen. -/
inductive Uncounted where
  | notANumber
  | outOfRange
  | full
  deriving DecidableEq, Repr

/-! ## Numbers -/

/-- The digits of a decimal, accumulated negative. -/
def decimalFrom : List UInt8 → Int → Option Int
  | [], value => some value
  | byte :: rest, value =>
    if !Resp.isDigit byte then none
    else match (Signed.checkedMul value 10).bind (Signed.checkedSub · (byte.toNat - 48)) with
      | some value => decimalFrom rest value
      | none => none

/-- The sign of a decimal and its digits. -/
def minusOf : List UInt8 → Bool × List UInt8
  | 45 :: rest => (true, rest)
  | text => (false, text)

/-- Read a decimal integer. A nought stands alone and unsigned. -/
def decimal (text : List UInt8) : Option Int :=
  if text.isEmpty ∨ text.length > 20 then none
  else
    let (negative, digits) := minusOf text
    if digits.isEmpty ∨ digits.head? = some 48 ∧ (negative ∨ digits.length > 1) then none
    else match decimalFrom digits 0 with
      | none => none
      | some value => if negative then some value else Signed.checkedNeg value

/-- Write a number as decimal. -/
def digits (value : Int) : List UInt8 :=
  (if value < 0 then [45] else []) ++ (Resp.Encoder.digitsOf value.natAbs).reverse

/-! ## Under the lock -/

namespace Table

def indexBytes (t : Table) : Nat := t.ctrl.length + t.slots.length * 4

/-- The index and the entries, and nothing a later write can reuse. -/
def chargedBytes (t : Table) : Nat := t.indexBytes + t.arena.live

/-- One step of the generator eviction samples with. -/
def stir (roll : UInt64) : UInt64 :=
  let roll := roll ^^^ (roll <<< 13)
  let roll := roll ^^^ (roll >>> 7)
  roll ^^^ (roll <<< 17)

/-- The loop of `evict_to_fit`, which gives up after `fuel` entries: how many went. -/
def evictLoop (imp : Imp) (budget : Nat) (spare : Option Nat) :
    Nat → UInt64 → Nat → Table → Exec (Nat × Table)
  | 0, _, went, t => pure (went, t)
  | fuel + 1, roll, went, t =>
    if t.chargedBytes > budget then do
      let roll := stir roll
      let (gone, t) ← t.evictOne imp roll spare
      if gone then evictLoop imp budget spare fuel roll (went + 1) t else pure (went, t)
    else pure (went, t)

/-- Evict until the table fits in `budget`, sparing whatever `key` holds. -/
def evictToFit (imp : Imp) (t : Table) (budget : Nat) (key : List UInt8) (hash : UInt64) : Exec Table :=
  if budget = 0 ∨ t.chargedBytes ≤ budget then pure t
  else do
    let spare ← t.slotOf imp key hash
    let (went, t) ← evictLoop imp budget spare 64 (hash ||| 1) 0 t
    if went > 0 then do
      let (_, t) ← t.shrink imp
      pure t
    else pure t

/-- `Map::set`, with the lock held. -/
def put (imp : Imp) (p : Platform) (granted : Bool) (budget : Nat) (t : Table) (key value : List UInt8)
    (hash : UInt64) (expiry userFlags : Option UInt32) : Exec (Except Full Wrote × Table) := do
  let (res, t) ← t.set imp p granted key value hash expiry userFlags
  match res with
  | .error full => pure (.error full, t)
  | .ok wrote => do
    let t ← t.evictToFit imp budget key hash
    pure (.ok wrote, t)

end Table

/-- Whether the condition refuses, where the key is held or is not. -/
def When.refuses : When → Bool → Bool
  | .absent, true => true
  | .present, false => true
  | _, _ => false

/-- The expiry to write, where the key held this one. -/
def Expiry.over : Expiry → Option (Option UInt32) → Option UInt32
  | .at_ when_, _ => some when_
  | .never, _ => none
  | .keep, held => held.join

namespace Table

/-- `Map::set_when`, with the lock held. -/
def putWhen (imp : Imp) (p : Platform) (sky : Sky) (budget : Nat) (t : Table) (key value : List UInt8)
    (hash : UInt64) (when_ : When) (expiry : Expiry) (userFlags : Option UInt32) :
    Exec (Except Full (Option Wrote) × Table) := do
  let (seen, t) ← t.view imp key hash sky.now
  let held := seen.map Entry.View.expiry
  if when_.refuses held.isSome then pure (.ok none, t)
  else do
    let (res, t) ← t.put imp p sky.granted budget key value hash (expiry.over held) userFlags
    pure (res.map some, t)

/-- What a count starts from: the number under the key, and what is kept with it. -/
def counted : Option Entry.View → Option (Int × Option UInt32 × Option UInt32)
  | some view => (decimal view.value).map fun current => (current, view.expiry, view.userFlags)
  | none => some (0, none, none)

/-- `Map::increment`, with the lock held. -/
def increment (imp : Imp) (p : Platform) (sky : Sky) (budget : Nat) (t : Table) (key : List UInt8)
    (hash : UInt64) (by_ : Int) : Exec (Except Uncounted Int × Table) := do
  let (seen, t) ← t.view imp key hash sky.now
  match counted seen with
  | none => pure (.error .notANumber, t)
  | some (current, expiry, userFlags) =>
    match Signed.checkedAdd current by_ with
    | none => pure (.error .outOfRange, t)
    | some next => do
      let (res, t) ← t.put imp p sky.granted budget key (digits next) hash expiry userFlags
      match res with
      | .error _ => pure (.error .full, t)
      | .ok _ => pure (.ok next, t)

/-- `Map::deadline`, with the lock held. -/
def deadlineOf (imp : Imp) (t : Table) (key : List UInt8) (hash : UInt64) (now : UInt32) :
    Exec (Option (Option UInt32) × Table) := do
  let (seen, t) ← t.view imp key hash now
  pure (seen.map Entry.View.expiry, t)

end Table

/-! ## The map -/

/-- The most shards a map will make. -/
def maxShards : Nat := 4096

/-- One shard: a table, and what its readers may look at without its lock. -/
structure Shard where
  table : Table
  /-- Live entries, as of the last time somebody held the lock. -/
  len : Nat
  /-- Bytes this shard is charged for, as of the last time somebody held the lock. -/
  charged : Nat
  /-- The slot a background sweep should resume at. -/
  sweepAt : Nat

def Shard.publish (shard : Shard) (table : Table) : Shard :=
  { shard with table, len := table.len, charged := table.chargedBytes }

structure Map where
  shards : List Shard
  /-- How far to shift a hash to get a shard index. -/
  shardShift : Nat
  seed : UInt64
  /-- The ceiling eviction defends, or zero for none. -/
  maxmemory : Nat
  /-- One shard's share of that ceiling, or zero for none. -/
  shardBudget : Nat
  /-- Which shard the next background sweep should visit. -/
  sweepShard : Nat

namespace Map

/-- How many shards a map makes that is asked for `shards`. -/
def shardCount (shards : Nat) : Nat := nextPowerOfTwo (min (max shards 1) maxShards)

/-- A map whose seed is given. -/
def withSeed (shards maxmemory : Nat) (seed : UInt64) : Map where
  shards := List.replicate (shardCount shards) ⟨Table.new seed, 0, 0, 0⟩
  shardShift := 64 - (shardCount shards).log2
  seed
  maxmemory
  shardBudget := maxmemory / shardCount shards
  sweepShard := 0

def hash (m : Map) (key : List UInt8) : UInt64 := Hash.hash key m.seed

def shardOf (m : Map) (hash : UInt64) : Nat :=
  if m.shards.length = 1 then 0 else (hash >>> UInt64.ofNat m.shardShift).toNat

/-- Run `each` against the table `hash` belongs to, holding its lock. -/
def withKey {R : Type} (m : Map) (hash : UInt64) (each : Table → Exec (R × Table)) : Exec (R × Map) := do
  let shard ← index m.shards (m.shardOf hash)
  let (out, table) ← each shard.table
  let shards ← update m.shards (m.shardOf hash) (shard.publish table)
  pure (out, { m with shards })

/-- Live entries across every shard. -/
def len (m : Map) : Nat := (m.shards.map Shard.len).sum

def chargedBytes (m : Map) : Nat := (m.shards.map Shard.charged).sum

section operations
variable (imp : Imp) (p : Platform) (sky : Sky) (m : Map) (key : List UInt8)

def get : Exec (Option (List UInt8) × Map) :=
  m.withKey (m.hash key) fun table => table.get imp key (m.hash key) sky.now

def view : Exec (Option Entry.View × Map) :=
  m.withKey (m.hash key) fun table => table.view imp key (m.hash key) sky.now

def contains : Exec (Bool × Map) :=
  m.withKey (m.hash key) fun table => table.contains imp key (m.hash key) sky.now

def set (value : List UInt8) (expiry userFlags : Option UInt32) : Exec (Except Full Wrote × Map) :=
  m.withKey (m.hash key) fun table =>
    table.put imp p sky.granted m.shardBudget key value (m.hash key) expiry userFlags

def setWhen (value : List UInt8) (when_ : When) (expiry : Expiry) (userFlags : Option UInt32) :
    Exec (Except Full (Option Wrote) × Map) :=
  m.withKey (m.hash key) fun table =>
    table.putWhen imp p sky m.shardBudget key value (m.hash key) when_ expiry userFlags

def expire (expiry : Option UInt32) : Exec (Except Full Bool × Map) :=
  m.withKey (m.hash key) fun table =>
    table.expire imp p sky.granted key (m.hash key) expiry sky.now

def deadline : Exec (Option (Option UInt32) × Map) :=
  m.withKey (m.hash key) fun table => table.deadlineOf imp key (m.hash key) sky.now

def increment (by_ : Int) : Exec (Except Uncounted Int × Map) :=
  m.withKey (m.hash key) fun table => table.increment imp p sky m.shardBudget key (m.hash key) by_

def remove : Exec (Bool × Map) :=
  m.withKey (m.hash key) fun table => table.remove imp key (m.hash key)

end operations

def clearShard (imp : Imp) (shard : Shard) : Exec Shard := do
  let table ← shard.table.clear
  let (_, table) ← table.shrink imp
  pure (shard.publish table)

def clear (imp : Imp) (m : Map) : Exec Map := do
  let shards ← m.shards.mapM (clearShard imp)
  pure { m with shards }

/-- Visit at most `budget` slots of the next shard looking for expired entries. -/
def sweep (imp : Imp) (sky : Sky) (m : Map) (budget : Nat) : Exec (Nat × Map) := do
  let at_ := m.sweepShard % m.shards.length
  let shard ← index m.shards at_
  let ((next, removed), table) ← shard.table.sweep imp shard.sweepAt budget sky.now
  let table ← if removed > 0 then do
      let (_, table) ← table.shrink imp
      pure table
    else pure table
  let shards ← update m.shards at_ { shard.publish table with sweepAt := next }
  pure (removed, { m with shards, sweepShard := m.sweepShard + 1 })

end Map

/-! ## Every operation -/

/-- An operation on one key. -/
inductive KeyOp where
  | get
  | view
  | contains
  | set (value : List UInt8) (expiry userFlags : Option UInt32)
  | setWhen (value : List UInt8) (when_ : When) (expiry : Expiry) (userFlags : Option UInt32)
  | expire (expiry : Option UInt32)
  | deadline
  | increment (by_ : Int)
  | remove

namespace KeyOp

@[reducible] def Answer : KeyOp → Type
  | get => Option (List UInt8)
  | view => Option Entry.View
  | contains => Bool
  | set .. => Except Full Wrote
  | setWhen .. => Except Full (Option Wrote)
  | expire _ => Except Full Bool
  | deadline => Option (Option UInt32)
  | increment _ => Except Uncounted Int
  | remove => Bool

/-- An answer that the memory for it was refused. -/
def Refused : (op : KeyOp) → op.Answer → Prop
  | set .., answer => ∃ full, answer = .error full
  | setWhen .., answer => ∃ full, answer = .error full
  | expire _, answer => ∃ full, answer = .error full
  | increment _, answer => answer = .error .full
  | _, _ => False

/-- What runs under the lock. -/
def serve (imp : Imp) (p : Platform) (sky : Sky) (budget : Nat) (t : Table) (key : List UInt8) (hash : UInt64) :
    (op : KeyOp) → Exec (op.Answer × Table)
  | get => t.get imp key hash sky.now
  | view => t.view imp key hash sky.now
  | contains => t.contains imp key hash sky.now
  | set value expiry userFlags => t.put imp p sky.granted budget key value hash expiry userFlags
  | setWhen value when_ expiry userFlags =>
    t.putWhen imp p sky budget key value hash when_ expiry userFlags
  | expire expiry => t.expire imp p sky.granted key hash expiry sky.now
  | deadline => t.deadlineOf imp key hash sky.now
  | increment by_ => t.increment imp p sky budget key hash by_
  | remove => t.remove imp key hash

end KeyOp

namespace Map

/-- An operation of a map. `now` reads its clock. -/
inductive Op where
  | key (key : List UInt8) (op : KeyOp)
  | len
  | clear
  | now

namespace Op

@[reducible] def Answer : Op → Type
  | key _ op => op.Answer
  | len => Nat
  | clear => Unit
  | now => UInt32

def Refused : (op : Op) → op.Answer → Prop
  | key _ op, answer => op.Refused answer
  | _, _ => False

end Op

def perform (imp : Imp) (p : Platform) (sky : Sky) (m : Map) : (op : Op) → Exec (op.Answer × Map)
  | .key key .get => m.get imp sky key
  | .key key .view => m.view imp sky key
  | .key key .contains => m.contains imp sky key
  | .key key (.set value expiry userFlags) => m.set imp p sky key value expiry userFlags
  | .key key (.setWhen value when_ expiry userFlags) => m.setWhen imp p sky key value when_ expiry userFlags
  | .key key (.expire expiry) => m.expire imp p sky key expiry
  | .key key .deadline => m.deadline imp sky key
  | .key key (.increment by_) => m.increment imp p sky key by_
  | .key key .remove => m.remove imp key
  | .len => pure (m.len, m)
  | .clear => do
    let m ← m.clear imp
    pure ((), m)
  | .now => pure (sky.now, m)

/-- One key's operation is what runs under its shard's lock. -/
theorem perform_key (imp : Imp) (p : Platform) (sky : Sky) (m : Map) (key : List UInt8) (op : KeyOp) :
    m.perform imp p sky (.key key op) =
      m.withKey (m.hash key) fun table => op.serve imp p sky m.shardBudget table key (m.hash key) := by
  cases op <;> rfl

end Map
end Rugo
