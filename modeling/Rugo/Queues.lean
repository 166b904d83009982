import Rugo.Lib.Exec
import Rugo.Lib.Runs
import Rugo.Lib.Circular

/- The two queues of an `io_uring` (`Ring::next`, `Ring::submit_and_wait` and
   `Ring::reap` in `rugo-net/src/uring.rs`), and the kernel at their other ends.

   Four counters of 32 bits run free and are masked into slots. The submission
   queue is written at `tail`, which `submit_and_wait` publishes, and read by the
   kernel at `sqHead`, inside `io_uring_enter`; the completion queue is written by
   the kernel at `cqTail`, at any moment, and read at `cqHead`. `reap` is taken
   apart into its loads, its copies and its store, so that the kernel may post
   between any two of them. The words are read and written whole and in order,
   which is what their acquires and releases are for.

   `Queues` keeps beside the ring what was done with it: every submission as last
   written, what was published, what the kernel consumed, every completion posted
   and what `reap` has put out. No operation reads these.

     1. `Submits`, `Completes`: where each counter stands, past 2^32 or not, and
        what lies between two of them.
     2. `rings_run`: nothing unread is written over, and nothing read comes
        again, in every state of every run. -/
namespace Rugo.Net
open Exec Runs Circular

/-- One submission, in the fields that are ever set. -/
structure Sqe where
  opcode : UInt8
  ioprio : UInt16
  fd : Int32
  off : UInt64
  addr : UInt64
  len : UInt32
  rwFlags : UInt32
  userData : UInt64
  deriving DecidableEq, Repr

def Sqe.default : Sqe := ⟨0, 0, 0, 0, 0, 0, 0, 0⟩

structure Cqe where
  userData : UInt64
  res : Int32
  flags : UInt32
  deriving DecidableEq, Repr

/-- One finished operation, as the server reads it. -/
structure Done where
  userData : UInt64
  res : Int32
  flags : UInt32
  deriving DecidableEq, Repr

def Cqe.done (cqe : Cqe) : Done := ⟨cqe.userData, cqe.res, cqe.flags⟩

/-- The ring, and the memory it shares with the kernel. -/
structure Ring where
  /-- The kernel's read position in the submission ring. -/
  sqHead : UInt32
  /-- This thread's write position in the submission ring, as published. -/
  sqTail : UInt32
  sqMask : UInt32
  /-- Which entry each slot of the submission ring names. -/
  array : List UInt32
  sqes : List Sqe
  /-- How many submissions the ring holds. -/
  entries : UInt32
  /-- Where the next submission goes. -/
  tail : UInt32
  /-- How many submissions have been written and not yet handed to the kernel. -/
  pending : UInt32
  /-- This thread's read position in the completion ring. -/
  cqHead : UInt32
  /-- The kernel's write position in the completion ring. -/
  cqTail : UInt32
  cqMask : UInt32
  cqes : List Cqe

/-- What `io_uring_enter` fails with. -/
inductive ErrorKind where
  | interrupted
  | timedOut
  | other
  deriving DecidableEq, Repr

/-- What becomes of a call of `io_uring_enter`: how many submissions the kernel can take at
most, or a failure. -/
inductive Answer where
  | took (most : Nat)
  | failed (kind : ErrorKind)
  deriving DecidableEq, Repr

namespace Ring

/-- A ring as it is set up, with `2 ^ k` submissions and `2 ^ j` completions. -/
def new (k j : Nat) : Ring where
  sqHead := 0
  sqTail := 0
  sqMask := UInt32.ofNat (2 ^ k - 1)
  array := (List.range (2 ^ k)).map UInt32.ofNat
  sqes := List.replicate (2 ^ k) .default
  entries := UInt32.ofNat (2 ^ k)
  tail := 0
  pending := 0
  cqHead := 0
  cqTail := 0
  cqMask := UInt32.ofNat (2 ^ j - 1)
  cqes := List.replicate (2 ^ j) ⟨0, 0, 0⟩

/-- Somewhere to write the next submission, or nothing when the ring is full. -/
def next (r : Ring) : Exec (Option Nat × Ring) :=
  -- the difference of two words that wrap
  if r.tail - r.sqHead ≥ r.entries then pure (none, r)
  else do
    -- the count beside the words does not wrap
    let index := (r.tail &&& r.sqMask).toNat
    let pending ← if r.pending.toNat + 1 < 2 ^ 32 then .ok (r.pending + 1) else .error .overflow
    let sqes ← update r.sqes index .default
    pure (some index, { r with tail := r.tail + 1, pending, sqes })

/-- The kernel takes `n` submissions, oldest first, or as many as the tail in the memory it shares
has published. -/
def consume (r : Ring) : Nat → Exec (List Sqe × Ring)
  | 0 => pure ([], r)
  | n + 1 =>
    if r.sqHead = r.sqTail then pure ([], r)
    else do
      -- the slot names the entry, and here each names its own
      let at_ ← index r.array (r.sqHead &&& r.sqMask).toNat
      let sqe ← index r.sqes at_.toNat
      let (rest, r) ← { r with sqHead := r.sqHead + 1 }.consume n
      pure (sqe :: rest, r)

/-- Hand everything written to the kernel. Also what the kernel read of it, and whether the
call succeeded. -/
def submitAndWait (r : Ring) (want : UInt32) (answer : Answer) : Exec (List Sqe × Bool × Ring) :=
  -- published whether or not the kernel is entered
  let r := { r with sqTail := r.tail }
  if r.pending = 0 ∧ want = 0 then pure ([], true, r)
  else match answer with
    -- an interruption and a timeout are nothing having happened
    | .failed kind => pure ([], kind != .other, r)
    | .took most => do
      -- it is asked to take what is pending, and answers how many it took
      let (read, r) ← r.consume (min most r.pending.toNat)
      let rc := read.length
      -- an answer no word holds is taken for all of them, and no more than those are taken off
      let taken := if rc < 2 ^ 32 then UInt32.ofNat rc else r.pending
      pure (read, true, { r with pending := if taken ≤ r.pending then r.pending - taken else 0 })

def post (r : Ring) (cqe : Cqe) : Exec Ring := do
  let cqes ← update r.cqes (r.cqTail &&& r.cqMask).toNat cqe
  pure { r with cqes, cqTail := r.cqTail + 1 }

/-- It posts only where every slot is not full of what has not been released. -/
def HasRoom (r : Ring) : Prop := (r.cqTail - r.cqHead).toNat < r.cqes.length

instance (r : Ring) : Decidable r.HasRoom := inferInstanceAs (Decidable ((r.cqTail - r.cqHead).toNat < r.cqes.length))

/-- One completion read by the loop of `reap`. -/
def copy (r : Ring) (at_ : UInt32) : Exec Done := do
  let cqe ← index r.cqes (at_ &&& r.cqMask).toNat
  pure cqe.done

end Ring

/-- The ring, where its thread is in it, and what was done with it. -/
structure Queues where
  ring : Ring
  /-- The slot handed out last, while it may still be written. -/
  slot : Option Nat
  /-- Inside `reap`: where it is, and where it stops. -/
  reading : Option (UInt32 × UInt32)
  /-- Every submission, as last written. -/
  written : List Sqe
  /-- What was written as far as the tail in the shared memory went when it was last stored. -/
  published : List Sqe
  consumed : List Sqe
  posted : List Cqe
  /-- How many completions have been released to the kernel. -/
  released : Nat
  /-- What was posted when `reap` looked. -/
  due : List Cqe
  /-- The outputs of `reap`, one after the other. -/
  out : List Done

def Queues.new (k j : Nat) : Queues := ⟨.new k j, none, none, [], [], [], [], 0, [], []⟩

/-- What a tail that is stored in the shared memory publishes: everything up to as many past the
kernel's head as the wrapped difference of the two words says. -/
def Queues.upto (q : Queues) (sqTail : UInt32) : List Sqe :=
  q.written.take (q.consumed.length + (sqTail - q.ring.sqHead).toNat)

inductive Event where
  | next (given : Option Nat)
  | fill (sqe : Sqe)
  | submit (want : UInt32) (answer : Answer)
  | post (cqe : Cqe)
  | load
  | copy
  | release

/-- The thread is in one operation at a time, and writes a slot only until the next; the
kernel posts whenever there is room. -/
inductive RingMoves : Queues → Event → Queues → Prop
  | next {q given ring} : q.reading = none → q.ring.next = .ok (given, ring) →
      RingMoves q (.next given)
        { q with ring, slot := given, written := if given.isSome then q.written ++ [.default] else q.written }
  | fill {q i sqe sqes} : q.reading = none → q.slot = some i → update q.ring.sqes i sqe = .ok sqes →
      RingMoves q (.fill sqe) { q with ring := { q.ring with sqes }, written := q.written.dropLast ++ [sqe] }
  | submit {q want answer read good ring} : q.reading = none →
      q.ring.submitAndWait want answer = .ok (read, good, ring) →
      RingMoves q (.submit want answer)
        { q with ring, slot := none, published := q.upto ring.sqTail, consumed := q.consumed ++ read }
  | post {q cqe ring} : q.ring.HasRoom → q.ring.post cqe = .ok ring →
      RingMoves q (.post cqe) { q with ring, posted := q.posted ++ [cqe] }
  | load {q} : q.reading = none →
      RingMoves q .load { q with slot := none, reading := some (q.ring.cqHead, q.ring.cqTail), due := q.posted }
  | copy {q at_ tail done} : q.reading = some (at_, tail) → at_ ≠ tail → q.ring.copy at_ = .ok done →
      RingMoves q .copy { q with reading := some (at_ + 1, tail), out := q.out ++ [done] }
  | release {q at_ tail} : q.reading = some (at_, tail) → at_ = tail →
      RingMoves q .release
        { q with ring := { q.ring with cqHead := tail }, reading := none, released := q.out.length }

/-! ## Where the counters stand -/

/-- The submission queue: `consumed` of `written` are the kernel's, and the rest are in
their slots, of which there are `2 ^ k`. -/
structure Submits (k : Nat) (q : Queues) : Prop where
  size : q.ring.sqes.length = 2 ^ k
  entries : q.ring.entries.toNat = 2 ^ k
  mask : q.ring.sqMask.toNat = 2 ^ k - 1
  array : ∀ i < 2 ^ k, q.ring.array[i]? = some (UInt32.ofNat i)
  tail : q.ring.tail = UInt32.ofNat q.written.length
  head : q.ring.sqHead = UInt32.ofNat q.consumed.length
  shared : q.ring.sqTail = UInt32.ofNat q.published.length
  pending : q.ring.pending.toNat + q.consumed.length = q.written.length
  room : q.written.length ≤ q.consumed.length + 2 ^ k
  slots : Tail q.ring.sqes q.written q.consumed.length
  published : q.published <+: q.written
  consumed : q.consumed <+: q.published
  slot : ∀ i, q.slot = some i → q.published.length < q.written.length ∧ i = (q.written.length - 1) % 2 ^ k

/-- The completion queue: `released` of `posted` are the kernel's again, and the rest are in
their slots, of which there are `2 ^ j`. -/
structure Completes (j : Nat) (q : Queues) : Prop where
  size : q.ring.cqes.length = 2 ^ j
  mask : q.ring.cqMask.toNat = 2 ^ j - 1
  tail : q.ring.cqTail = UInt32.ofNat q.posted.length
  head : q.ring.cqHead = UInt32.ofNat q.released
  room : q.posted.length ≤ q.released + 2 ^ j
  slots : Tail q.ring.cqes q.posted q.released
  out : q.out <+: q.posted.map Cqe.done
  released : q.released ≤ q.out.length
  due : q.due <+: q.posted
  idle : q.reading = none → q.out.length = q.released ∧ q.out.length = q.due.length
  reading : ∀ at_ tail, q.reading = some (at_, tail) → at_ = UInt32.ofNat q.out.length ∧
    tail = UInt32.ofNat q.due.length ∧ q.out.length ≤ q.due.length

section submits
variable {k : Nat} {q q' : Queues}

theorem two_pow_lt (hk : k ≤ 31) : 2 ^ k < 2 ^ 32 := Nat.pow_lt_pow_right (by decide) (Nat.lt_succ_of_le hk)

theorem Submits.consumed_le (h : Submits k q) : q.consumed.length ≤ q.written.length :=
  (h.consumed.trans h.published).length_le

/-- The wrapped difference is what is written and not taken. -/
theorem Submits.distance (hk : k ≤ 31) (h : Submits k q) :
    (q.ring.tail - q.ring.sqHead).toNat = q.written.length - q.consumed.length := by
  have hroom := h.room
  have hpow := two_pow_lt hk
  rw [h.tail, h.head]
  exact counter_sub h.consumed_le (by omega)

theorem Submits.slot_of (h : Submits k q) {n : Nat} (hn : q.consumed.length ≤ n) (hlt : n < q.written.length) :
    q.ring.sqes[n % 2 ^ k]? = q.written[n]? := by
  have hroom := h.room
  have hsize := h.size
  rw [← hsize]
  exact h.slots.read (by omega) hn hlt

theorem Submits.next_cases (hk : k ≤ 31) (h : Submits k q) :
    q.written.length = q.consumed.length + 2 ^ k ∧ q.ring.next = .ok (none, q.ring) ∨
    q.written.length < q.consumed.length + 2 ^ k ∧ q.ring.next = .ok (some (q.written.length % 2 ^ k),
      { q.ring with
        tail := q.ring.tail + 1
        pending := q.ring.pending + 1
        sqes := q.ring.sqes.set (q.written.length % 2 ^ k) .default }) := by
  have hroom := h.room
  have hpending := h.pending
  have hpow := two_pow_lt hk
  have hle := h.consumed_le
  have hfull : q.ring.tail - q.ring.sqHead ≥ q.ring.entries ↔ q.written.length = q.consumed.length + 2 ^ k := by
    rw [ge_iff_le, UInt32.le_iff_toNat_le, h.entries, h.distance hk]
    omega
  rw [Ring.next]
  by_cases hall : q.written.length = q.consumed.length + 2 ^ k
  · rw [if_pos (hfull.mpr hall)]
    exact .inl ⟨hall, rfl⟩
  · have hslot : (q.ring.tail &&& q.ring.sqMask).toNat = q.written.length % 2 ^ k := by
      rw [h.tail]
      exact counter_slot rfl (Nat.le_succ_of_le hk) h.mask _
    have hin : q.written.length % 2 ^ k < q.ring.sqes.length := by
      rw [h.size]
      exact Nat.mod_lt _ (Nat.two_pow_pos k)
    rw [if_neg (fun hge => hall (hfull.mp hge)), if_pos (by omega), ok_bind, hslot, update_ok hin]
    exact .inr ⟨by omega, rfl⟩

theorem Submits.next (hk : k ≤ 31) (h : Submits k q) {given : Option Nat} {ring : Ring}
    (hnext : q.ring.next = .ok (given, ring)) :
    Submits k { q with
      ring, slot := given, written := if given.isSome then q.written ++ [.default] else q.written } := by
  have hpow := two_pow_lt hk
  have hsize := h.size
  have hpending := h.pending
  have hle := h.consumed_le
  obtain ⟨-, hnone⟩ | ⟨hroom, hsome⟩ := h.next_cases hk
  · rw [hnext] at hnone
    cases hnone
    exact { h with slot := fun i hi => by cases hi }
  · rw [hnext] at hsome
    -- the slot given out is the one that the kernel took its submission from the longest ago
    cases hsome
    have hlength : (q.written ++ [Sqe.default]).length = q.written.length + 1 := by
      rw [List.length_append, List.length_singleton]
    refine { h with
      size := ?size, tail := ?tail, pending := ?pending, room := ?room
      slots := ?slots, published := ?published, slot := ?slot }
    case size => rw [List.length_set, hsize]
    case tail =>
      show q.ring.tail + 1 = UInt32.ofNat (q.written ++ [Sqe.default]).length
      rw [hlength, h.tail, counter_succ]
    case pending =>
      show (q.ring.pending + 1).toNat + q.consumed.length = (q.written ++ [Sqe.default]).length
      rw [hlength, UInt32.toNat_add, UInt32.toNat_one]
      omega
    case room =>
      show (q.written ++ [Sqe.default]).length ≤ _
      rw [hlength]
      exact hroom
    case slots =>
      have hpush := h.slots.push hle (by omega) Sqe.default
      rw [hsize] at hpush
      exact hpush
    case published => exact h.published.trans (List.prefix_append _ _)
    case slot =>
      intro i hi
      cases hi
      show q.published.length < (q.written ++ [Sqe.default]).length ∧
        _ = ((q.written ++ [Sqe.default]).length - 1) % 2 ^ k
      rw [hlength]
      exact ⟨Nat.lt_succ_of_le h.published.length_le, rfl⟩

theorem Submits.fill (h : Submits k q) {i : Nat} {sqe : Sqe} {sqes : List Sqe} (hslot : q.slot = some i)
    (hset : update q.ring.sqes i sqe = .ok sqes) :
    Submits k { q with ring := { q.ring with sqes }, written := q.written.dropLast ++ [sqe] } := by
  have hsize := h.size
  have hroom := h.room
  obtain ⟨hfresh, hi⟩ := h.slot i hslot
  obtain ⟨-, rfl⟩ := update_eq_ok.mp hset
  have hconsumed := h.consumed.length_le
  have hlength : (q.written.dropLast ++ [sqe]).length = q.written.length := by
    rw [List.length_append, List.length_dropLast, List.length_singleton]
    omega
  refine { h with
    size := ?size, tail := ?tail, pending := ?pending, room := ?room
    slots := ?slots, published := ?published, slot := ?slot }
  case size => rw [List.length_set, hsize]
  case tail =>
    show q.ring.tail = UInt32.ofNat (q.written.dropLast ++ [sqe]).length
    rw [hlength, h.tail]
  case pending =>
    show _ = (q.written.dropLast ++ [sqe]).length
    rw [hlength, h.pending]
  case room =>
    show (q.written.dropLast ++ [sqe]).length ≤ _
    rw [hlength]
    exact hroom
  case slots =>
    -- the last submission taken back, and another in its slot
    have hless : q.written.dropLast.length = q.written.length - 1 := List.length_dropLast
    have hpush := (h.slots.dropLast (by omega) (by omega)).push (by omega) (by omega) sqe
    rw [hless, hsize, ← hi] at hpush
    exact hpush
  case published =>
    have hprefix : q.published <+: q.written.dropLast := by
      rw [List.dropLast_eq_take, List.prefix_take_iff]
      exact ⟨h.published, by omega⟩
    exact hprefix.trans (List.prefix_append _ _)
  case slot =>
    intro i' hi'
    show q.published.length < (q.written.dropLast ++ [sqe]).length ∧
    i' = ((q.written.dropLast ++ [sqe]).length - 1) % 2 ^ k
    rw [hlength]
    exact h.slot i' hi'

/-- The kernel reads through the array, which names each slot once, up to the tail. -/
theorem consume_ok (hk : k ≤ 31) {r : Ring} (hsize : r.sqes.length = 2 ^ k) (hmask : r.sqMask.toNat = 2 ^ k - 1)
    (harray : ∀ i < 2 ^ k, r.array[i]? = some (UInt32.ofNat i)) {c p : Nat} (n : Nat)
    (hhead : r.sqHead = UInt32.ofNat c)
    (htail : r.sqTail = UInt32.ofNat p) (hle : c ≤ p) (hroom : p ≤ c + 2 ^ k) :
    r.consume n = .ok (window r.sqes c (min n (p - c)), { r with sqHead := UInt32.ofNat (c + min n (p - c)) }) := by
  have hpow := two_pow_lt hk
  induction n generalizing r c with
  | zero =>
    rw [Nat.zero_min, Nat.add_zero, ← hhead]
    rfl
  | succ n ih =>
    have hend : r.sqHead = r.sqTail ↔ c = p := by
      rw [hhead, htail]
      exact counter_inj hle (by omega)
    rw [Ring.consume]
    by_cases heq : c = p
    · have hzero : min (n + 1) (p - c) = 0 := by omega
      rw [if_pos (hend.mpr heq), hzero, Nat.add_zero, ← hhead]
      rfl
    -- one more is taken, from the slot under the head
    · have hsucc : min (n + 1) (p - c) = min n (p - (c + 1)) + 1 := by omega
      have hslot : (r.sqHead &&& r.sqMask).toNat = c % 2 ^ k := by
        rw [hhead]
        exact counter_slot rfl (Nat.le_succ_of_le hk) hmask c
      have hlt : c % 2 ^ k < 2 ^ k := Nat.mod_lt _ (Nat.two_pow_pos k)
      have hnamed : (UInt32.ofNat (c % 2 ^ k)).toNat = c % 2 ^ k := UInt32.toNat_ofNat_of_lt' (Nat.lt_trans hlt hpow)
      obtain ⟨sqe, hsqe, hwindow⟩ := window_succ (show min n (p - (c + 1)) < r.sqes.length by omega) c
      rw [hsize] at hsqe
      have hrest : ({ r with sqHead := r.sqHead + 1 } : Ring).consume n =
          .ok (window r.sqes (c + 1) (min n (p - (c + 1))),
            { r with sqHead := UInt32.ofNat (c + 1 + min n (p - (c + 1))) }) :=
        @ih { r with sqHead := r.sqHead + 1 } hsize hmask harray (c + 1) (by rw [← counter_succ, ← hhead]) htail
          (by omega) (by omega)
      rw [if_neg (hend.not.mpr heq), hslot, index_of_getElem? (harray _ hlt), ok_bind, hnamed,
        index_of_getElem? hsqe, ok_bind, hrest, ok_bind, hsucc, hwindow,
        show c + 1 + min n (p - (c + 1)) = c + (min n (p - (c + 1)) + 1) by omega]
      rfl

/-- How many submissions a call takes, of those that are pending. -/
def Answer.taken (pending : Nat) : Answer → Nat
  | .took most => min most pending
  | .failed _ => 0

theorem Answer.taken_le (pending : Nat) (answer : Answer) : answer.taken pending ≤ pending := by
  cases answer with
  | took most => exact Nat.min_le_right _ _
  | failed kind => exact Nat.zero_le _

theorem Submits.submit_cases (hk : k ≤ 31) (h : Submits k q) (want : UInt32) (answer : Answer) :
    ∃ good, q.ring.submitAndWait want answer =
      .ok (window q.ring.sqes q.consumed.length (answer.taken q.ring.pending.toNat), good,
        { q.ring with
          sqTail := q.ring.tail
          sqHead := UInt32.ofNat (q.consumed.length + answer.taken q.ring.pending.toNat)
          pending := q.ring.pending - UInt32.ofNat (answer.taken q.ring.pending.toNat) }) := by
  have hroom := h.room
  have hpending := h.pending
  have hpow := two_pow_lt hk
  have hsame : q.ring.sqHead = UInt32.ofNat (q.consumed.length + 0) := h.head
  have hnone : q.ring.pending - UInt32.ofNat 0 = q.ring.pending := UInt32.sub_zero _
  unfold Ring.submitAndWait
  by_cases hidle : q.ring.pending = 0 ∧ want = 0
  · -- nothing to hand over and nothing to wait for: the kernel is not entered
    have hzero : q.ring.pending.toNat = 0 := by
      rw [hidle.1]
      rfl
    have htaken : answer.taken q.ring.pending.toNat = 0 := Nat.le_zero.mp (hzero ▸ answer.taken_le _)
    simp only [if_pos hidle]
    rw [htaken, ← hsame, hnone]
    exact ⟨true, rfl⟩
  · simp only [if_neg hidle]
    cases answer with
    | failed kind =>
      simp only [Answer.taken]
      rw [← hsame, hnone]
      exact ⟨kind != .other, rfl⟩
    | took most =>
      have hle := Answer.taken_le q.ring.pending.toNat (.took most)
      have hcount : min (min most q.ring.pending.toNat) (q.written.length - q.consumed.length) =
          (Answer.took most).taken q.ring.pending.toNat := by
        simp only [Answer.taken]
        omega
      have hconsume := @consume_ok k hk { q.ring with sqTail := q.ring.tail } h.size h.mask h.array _ q.written.length
        (min most q.ring.pending.toNat) h.head h.tail h.consumed_le hroom
      rw [hcount] at hconsume
      have hlength : (window q.ring.sqes q.consumed.length
          ((Answer.took most).taken q.ring.pending.toNat)).length = (Answer.took most).taken q.ring.pending.toNat :=
        window_length (by rw [h.size]; omega) _
      have htoNat : (UInt32.ofNat ((Answer.took most).taken q.ring.pending.toNat)).toNat =
          (Answer.took most).taken q.ring.pending.toNat := UInt32.toNat_ofNat_of_lt' (show _ < 2 ^ 32 by omega)
      have hword : UInt32.ofNat ((Answer.took most).taken q.ring.pending.toNat) ≤ q.ring.pending := by
        rw [UInt32.le_iff_toNat_le, htoNat]
        exact hle
      simp only [hconsume, ok_bind, hlength]
      rw [if_pos (show _ < 2 ^ 32 by omega), if_pos hword]
      exact ⟨true, rfl⟩

theorem Submits.upto_tail (hk : k ≤ 31) (h : Submits k q) : q.upto q.ring.tail = q.written := by
  have hle := h.consumed_le
  rw [Queues.upto, h.distance hk, Nat.add_sub_cancel' hle, List.take_length]

theorem Submits.published_length (hk : k ≤ 31) (h : Submits k q) :
    q.published.length = q.consumed.length + (q.ring.sqTail - q.ring.sqHead).toNat := by
  have hroom := h.room
  have hpow := two_pow_lt hk
  have hpublished := h.published.length_le
  have hconsumed := h.consumed.length_le
  rw [h.shared, h.head, counter_sub hconsumed (by omega)]
  omega

theorem Submits.submit (hk : k ≤ 31) (h : Submits k q) {want : UInt32} {answer : Answer} {read : List Sqe} {good : Bool}
    {ring : Ring} (hsubmit : q.ring.submitAndWait want answer = .ok (read, good, ring)) :
    Submits k { q with ring, slot := none, published := q.upto ring.sqTail, consumed := q.consumed ++ read } ∧
      read.length = answer.taken q.ring.pending.toNat ∧ ring.sqTail = q.ring.tail := by
  have hsize := h.size
  have hroom := h.room
  have hpending := h.pending
  have hpow := two_pow_lt hk
  have hasked := answer.taken_le q.ring.pending.toNat
  obtain ⟨good', hok⟩ := h.submit_cases hk want answer
  rw [hsubmit] at hok
  cases hok
  have hall := h.upto_tail hk
  generalize answer.taken q.ring.pending.toNat = n at hasked ⊢
  have hlength : (window q.ring.sqes q.consumed.length n).length = n := window_length (by omega) _
  have htotal : (q.consumed ++ window q.ring.sqes q.consumed.length n).length = q.consumed.length + n := by
    rw [List.length_append, hlength]
  -- so the kernel has the first submissions, as far as it took them
  have hfirst : q.consumed ++ window q.ring.sqes q.consumed.length n = q.written.take (q.consumed.length + n) := by
    rw [h.slots.first (by omega) (by omega), ← List.prefix_iff_eq_take.mp (h.consumed.trans h.published)]
  refine ⟨?_, hlength, rfl⟩
  simp only [hall]
  refine { h with
    head := ?head, shared := ?shared, pending := ?pending, room := ?room
    slots := ?slots, published := ?published, consumed := ?consumed, slot := ?slot }
  case head =>
    show UInt32.ofNat (q.consumed.length + n) = UInt32.ofNat (q.consumed ++ _).length
    rw [htotal]
  case pending =>
    have htoNat : (UInt32.ofNat n).toNat = n := UInt32.toNat_ofNat_of_lt' (show n < 2 ^ 32 by omega)
    have hsub : (q.ring.pending - UInt32.ofNat n).toNat = q.ring.pending.toNat - n := by
      rw [UInt32.toNat_sub_of_le _ _ (by rw [UInt32.le_iff_toNat_le, htoNat]; exact hasked), htoNat]
    show (q.ring.pending - UInt32.ofNat n).toNat + (q.consumed ++ _).length = q.written.length
    rw [hsub, htotal]
    omega
  case room =>
    show q.written.length ≤ (q.consumed ++ _).length + 2 ^ k
    rw [htotal]
    omega
  case slots =>
    show Tail q.ring.sqes q.written (q.consumed ++ _).length
    rw [htotal]
    exact h.slots.pop (by omega) (by omega)
  case shared => exact h.tail
  case published => exact List.prefix_rfl
  case consumed =>
    show q.consumed ++ _ <+: q.written
    rw [hfirst]
    exact List.take_prefix _ _
  case slot => exact fun i hi => by cases hi

end submits

section completes
variable {j : Nat} {q q' : Queues}

theorem Completes.released_le (h : Completes j q) : q.released ≤ q.posted.length := by
  have hout := h.out.length_le
  rw [List.length_map] at hout
  exact h.released.trans hout

theorem Completes.has_room (hj : j ≤ 31) (h : Completes j q) :
    q.ring.HasRoom ↔ q.posted.length < q.released + 2 ^ j := by
  have hroom := h.room
  have hle := h.released_le
  have hpow := two_pow_lt hj
  rw [Ring.HasRoom, h.tail, h.head, counter_sub hle (by omega), h.size]
  omega

theorem Completes.post (hj : j ≤ 31) (h : Completes j q) (hroom : q.ring.HasRoom) (cqe : Cqe) :
    ∃ ring, q.ring.post cqe = .ok ring ∧ Completes j { q with ring, posted := q.posted ++ [cqe] } := by
  have hsize := h.size
  have hle := h.released_le
  have hlt := (h.has_room hj).mp hroom
  have hslot : (q.ring.cqTail &&& q.ring.cqMask).toNat = q.posted.length % 2 ^ j := by
    rw [h.tail]
    exact counter_slot rfl (Nat.le_succ_of_le hj) h.mask _
  have hin : q.posted.length % 2 ^ j < q.ring.cqes.length := by
    rw [hsize]
    exact Nat.mod_lt _ (Nat.two_pow_pos j)
  have hlength : (q.posted ++ [cqe]).length = q.posted.length + 1 := by
    rw [List.length_append, List.length_singleton]
  rw [Ring.post, hslot, update_ok hin]
  refine ⟨_, rfl, ?_⟩
  refine { h with size := ?size, tail := ?tail, room := ?room, slots := ?slots, out := ?out, due := ?due }
  case size => rw [List.length_set, hsize]
  case tail =>
    show q.ring.cqTail + 1 = UInt32.ofNat (q.posted ++ [cqe]).length
    rw [hlength, h.tail, counter_succ]
  case room =>
    show (q.posted ++ [cqe]).length ≤ _
    rw [hlength]
    exact hlt
  case slots =>
    have hpush := h.slots.push hle (by omega) cqe
    rw [hsize] at hpush
    exact hpush
  case out =>
    show q.out <+: (q.posted ++ [cqe]).map Cqe.done
    rw [List.map_append]
    exact h.out.trans (List.prefix_append _ _)
  case due => exact h.due.trans (List.prefix_append _ _)

theorem Completes.load (h : Completes j q) (hidle : q.reading = none) :
    Completes j { q with slot := none, reading := some (q.ring.cqHead, q.ring.cqTail), due := q.posted } := by
  have hout := (h.idle hidle).1
  refine { h with due := List.prefix_rfl, idle := (fun hnone => by cases hnone), reading := ?_ }
  intro at_ tail hreading
  cases hreading
  have hle := h.released_le
  rw [← hout] at hle
  exact ⟨by rw [h.head, ← hout], h.tail, hle⟩

/-- Inside `reap`, the loop goes on exactly while something that is due is not out. -/
theorem Completes.loop_iff (hj : j ≤ 31) (h : Completes j q) {at_ tail : UInt32}
    (hreading : q.reading = some (at_, tail)) :
    at_ = tail ↔ q.out.length = q.due.length := by
  obtain ⟨rfl, rfl, hout⟩ := h.reading at_ tail hreading
  have hroom := h.room
  have hreleased := h.released
  have hposted := h.due.length_le
  have hpow := two_pow_lt hj
  exact counter_inj hout (by omega)

theorem Completes.copy (hj : j ≤ 31) (h : Completes j q) {at_ tail : UInt32} (hreading : q.reading = some (at_, tail))
    (hne : at_ ≠ tail) : ∃ done, q.ring.copy at_ = .ok done ∧
      Completes j { q with reading := some (at_ + 1, tail), out := q.out ++ [done] } := by
  obtain ⟨hat, htail, hout⟩ := h.reading at_ tail hreading
  have hshort : q.out.length < q.due.length := Nat.lt_of_le_of_ne hout fun heq => hne ((h.loop_iff hj hreading).mpr heq)
  have hroom := h.room
  have hreleased := h.released
  have hposted := h.due.length_le
  have hsize := h.size
  have hlt : q.out.length < q.posted.length := Nat.lt_of_lt_of_le hshort hposted
  have hslot : (at_ &&& q.ring.cqMask).toNat = q.out.length % 2 ^ j := by
    rw [hat]
    exact counter_slot rfl (Nat.le_succ_of_le hj) h.mask _
  -- past what was released and short of what was posted, so in the window
  have hthere : q.ring.cqes[q.out.length % 2 ^ j]? = some q.posted[q.out.length] := by
    rw [← hsize, h.slots.read (by omega) hreleased hlt]
    exact List.getElem?_eq_getElem hlt
  have hlength : ∀ done : Done, (q.out ++ [done]).length = q.out.length + 1 := by
    intro done
    rw [List.length_append, List.length_singleton]
  rw [Ring.copy, hslot, index_of_getElem? hthere]
  refine ⟨_, rfl, ?_⟩
  refine { h with out := ?out, released := ?released, idle := ?idle, reading := ?reading }
  case out =>
    show q.out ++ [q.posted[q.out.length].done] <+: q.posted.map Cqe.done
    have htake := List.prefix_iff_eq_take.mp h.out
    rw [List.prefix_iff_eq_take, hlength, List.take_add_one, ← htake, List.getElem?_map, List.getElem?_eq_getElem hlt]
    rfl
  case released =>
    show q.released ≤ (q.out ++ [_]).length
    rw [hlength]
    exact Nat.le_succ_of_le hreleased
  case idle => exact fun hnone => by cases hnone
  case reading =>
    intro at' tail' hreading'
    cases hreading'
    show _ = UInt32.ofNat (q.out ++ [_]).length ∧ _ ∧ (q.out ++ [_]).length ≤ _
    rw [hlength, hat, counter_succ]
    exact ⟨rfl, htail, hshort⟩

theorem Completes.release (hj : j ≤ 31) (h : Completes j q) {at_ tail : UInt32}
    (hreading : q.reading = some (at_, tail))
    (heq : at_ = tail) :
    Completes j { q with ring := { q.ring with cqHead := tail }, reading := none, released := q.out.length } := by
  obtain ⟨hat, -⟩ := h.reading at_ tail hreading
  have hroom := h.room
  have hreleased := h.released
  have hout := h.out.length_le
  rw [List.length_map] at hout
  have hsize := h.size
  refine { h with
    head := ?head, room := ?room, slots := ?slots
    released := ?released, idle := ?idle, reading := ?reading }
  case head => exact heq ▸ hat
  case room =>
    show q.posted.length ≤ q.out.length + 2 ^ j
    omega
  case slots =>
    have hpop := h.slots.pop (n := q.out.length - q.released) (by omega) (by omega)
    rw [Nat.add_sub_cancel' hreleased] at hpop
    exact hpop
  case released => exact Nat.le_refl _
  case idle => exact fun _ => ⟨rfl, (h.loop_iff hj hreading).mp heq⟩
  case reading => exact fun at' tail' hnone => by cases hnone

end completes

/-! ## Runs -/

section runs
variable {k j : Nat} {q q' : Queues} {e : Event}

theorem submits_new (hk : k ≤ 31) (j : Nat) : Submits k (.new k j) := by
  have hpow := two_pow_lt hk
  have hpos := Nat.two_pow_pos k
  constructor
  case size => exact List.length_replicate
  case entries => exact UInt32.toNat_ofNat_of_lt' hpow
  case mask => exact UInt32.toNat_ofNat_of_lt' (show 2 ^ k - 1 < 2 ^ 32 by omega)
  case array =>
    intro i hi
    show ((List.range (2 ^ k)).map UInt32.ofNat)[i]? = _
    rw [List.getElem?_map, List.getElem?_range hi]
    rfl
  case tail => rfl
  case head => rfl
  case shared => rfl
  case pending => rfl
  case room => exact Nat.zero_le _
  case slots => rfl
  case published => exact List.prefix_rfl
  case consumed => exact List.prefix_rfl
  case slot => exact fun i hi => by cases hi

theorem completes_new (k : Nat) (hj : j ≤ 31) : Completes j (.new k j) := by
  have hpow := two_pow_lt hj
  constructor
  case size => exact List.length_replicate
  case mask => exact UInt32.toNat_ofNat_of_lt' (show 2 ^ j - 1 < 2 ^ 32 by omega)
  case tail => rfl
  case head => rfl
  case room => exact Nat.zero_le _
  case slots => rfl
  case out => exact List.prefix_rfl
  case released => exact Nat.le_refl _
  case due => exact List.prefix_rfl
  case idle => exact fun _ => ⟨rfl, rfl⟩
  case reading => exact fun at_ tail hreading => by cases hreading

theorem next_completions {r ring : Ring} {given : Option Nat} (h : r.next = .ok (given, ring)) :
    ring.cqHead = r.cqHead ∧ ring.cqTail = r.cqTail ∧ ring.cqMask = r.cqMask ∧ ring.cqes = r.cqes := by
  rw [Ring.next] at h
  split at h
  · cases h
    exact ⟨rfl, rfl, rfl, rfl⟩
  · split at h
    · rw [ok_bind] at h
      obtain ⟨sqes, -, h⟩ := bind_ok_iff.mp h
      cases h
      exact ⟨rfl, rfl, rfl, rfl⟩
    · cases h

theorem RingMoves.keeps (hk : k ≤ 31) (hj : j ≤ 31) (hs : Submits k q) (hc : Completes j q) (h : RingMoves q e q') :
    Submits k q' ∧ Completes j q' := by
  cases h with
  | @next given ring hidle hnext =>
    obtain ⟨hhead, htail, hmask, hcqes⟩ := next_completions hnext
    refine ⟨hs.next hk hnext, ?_⟩
    exact { hc with
      size := hcqes ▸ hc.size, mask := hmask ▸ hc.mask, tail := htail ▸ hc.tail, head := hhead ▸ hc.head
      slots := hcqes ▸ hc.slots }
  | fill hidle hslot hset => exact ⟨hs.fill hslot hset, { hc with }⟩
  | @submit want answer read good ring hidle hsubmit =>
    refine ⟨(hs.submit hk hsubmit).1, ?_⟩
    obtain ⟨good', hok⟩ := hs.submit_cases hk want answer
    rw [hsubmit] at hok
    cases hok
    exact { hc with }
  | @post cqe ring hroom hpost =>
    obtain ⟨ring', hok, hc'⟩ := hc.post hj hroom cqe
    rw [hpost] at hok
    cases hok
    refine ⟨?_, hc'⟩
    rw [Ring.post] at hpost
    obtain ⟨cqes, -, hpost⟩ := bind_ok_iff.mp hpost
    cases hpost
    exact { hs with }
  | load hidle => exact ⟨{ hs with slot := (fun i hi => by cases hi) }, hc.load hidle⟩
  | @copy at_ tail done hreading hne hcopy =>
    obtain ⟨done', hok, hc'⟩ := hc.copy hj hreading hne
    rw [hcopy] at hok
    cases hok
    exact ⟨{ hs with }, hc'⟩
  | release hreading heq => exact ⟨{ hs with }, hc.release hj hreading heq⟩

/-- What is true of the ring in every state. -/
structure Exact (q : Queues) : Prop where
  /-- `next` answers nothing exactly when every slot is unconsumed, and else gives a slot
  that holds nothing unconsumed. -/
  next : ∃ given ring, q.ring.next = .ok (given, ring) ∧
    (given = none ↔ q.written.length - q.consumed.length = q.ring.entries.toNat) ∧
    ∀ i, given = some i → i < q.ring.sqes.length ∧
      ∀ n, q.consumed.length ≤ n → n < q.written.length → n % q.ring.sqes.length ≠ i
  /-- What is not consumed is in its slot, as last written. -/
  kept : ∀ n, q.consumed.length ≤ n → n < q.written.length → q.ring.sqes[n % q.ring.sqes.length]? = q.written[n]?
  /-- `pending` is what is written and not taken. -/
  pending : q.ring.pending.toNat = q.written.length - q.consumed.length
  /-- What is consumed is what was published, each once and in order, and a published
  submission is not written any more. -/
  consumed : q.consumed <+: q.published ∧ q.published <+: q.written
  /-- What is published is what the two words in the shared memory say. -/
  shared : q.published.length = q.consumed.length + (q.ring.sqTail - q.ring.sqHead).toNat
  /-- Everything written is published, and the kernel goes on where it stopped, for as many of
  what is unconsumed as it can take, or none. -/
  submit : ∀ want answer, ∃ read good ring, q.ring.submitAndWait want answer = .ok (read, good, ring) ∧
    q.upto ring.sqTail = q.written ∧
    q.consumed ++ read = q.written.take (q.consumed.length + answer.taken (q.written.length - q.consumed.length))
  /-- The kernel may post exactly while a slot is not unreleased, and can. -/
  post : (q.ring.HasRoom ↔ q.posted.length - q.released < q.ring.cqes.length) ∧
    (q.ring.HasRoom → ∀ cqe, ∃ ring, q.ring.post cqe = .ok ring)
  /-- What `reap` puts out is what was posted, each once and in order. -/
  reaped : q.out <+: q.posted.map Cqe.done
  /-- Inside `reap`, the loop goes on exactly while something posted before it began is not out. -/
  loop : ∀ at_ tail, q.reading = some (at_, tail) → q.out <+: q.due.map Cqe.done ∧
    (at_ = tail ↔ q.out = q.due.map Cqe.done) ∧ (at_ ≠ tail → ∃ done, q.ring.copy at_ = .ok done)
  /-- Between two of them, everything posted before the last began is out. -/
  settled : q.reading = none → q.out = q.due.map Cqe.done

/-- A slot given holds nothing unconsumed: all that is lies less than a ring before it. -/
theorem Submits.next_exact (hk : k ≤ 31) (h : Submits k q) : ∃ given ring, q.ring.next = .ok (given, ring) ∧
    (given = none ↔ q.written.length - q.consumed.length = q.ring.entries.toNat) ∧
    ∀ i, given = some i → i < q.ring.sqes.length ∧
      ∀ n, q.consumed.length ≤ n → n < q.written.length → n % q.ring.sqes.length ≠ i := by
  rw [h.size, h.entries]
  obtain ⟨hfull, hnext⟩ | ⟨hroom, hnext⟩ := h.next_cases hk
  · refine ⟨_, _, hnext, ?_, ?_⟩
    · rw [hfull, Nat.add_sub_cancel_left]
      exact iff_of_true rfl rfl
    · intro i hi
      cases hi
  · refine ⟨_, _, hnext, ?_, ?_⟩
    · refine iff_of_false (fun hnone => by cases hnone) (fun hall => ?_)
      have hle := h.consumed_le
      omega
    · intro i hi
      cases hi
      refine ⟨Nat.mod_lt _ (Nat.two_pow_pos k), fun n hn hlt => ?_⟩
      exact slot_ne hlt (by omega)

theorem Submits.submit_exact (hk : k ≤ 31) (h : Submits k q) (want : UInt32) (answer : Answer) : ∃ read good ring,
    q.ring.submitAndWait want answer = .ok (read, good, ring) ∧ q.upto ring.sqTail = q.written ∧
      q.consumed ++ read =
        q.written.take (q.consumed.length + answer.taken (q.written.length - q.consumed.length)) := by
  have hpending : q.ring.pending.toNat = q.written.length - q.consumed.length := by
    rw [← h.pending, Nat.add_sub_cancel]
  obtain ⟨good, hok⟩ := h.submit_cases hk want answer
  obtain ⟨hnext, hlength, htail⟩ := h.submit hk hok
  have hall := h.upto_tail hk
  refine ⟨_, _, _, hok, hall, ?_⟩
  have hprefix := List.prefix_iff_eq_take.mp (hnext.consumed.trans hnext.published)
  rw [List.length_append, hlength] at hprefix
  rw [← hpending]
  exact hprefix

theorem Completes.out_due (h : Completes j q) (hle : q.out.length ≤ q.due.length) : q.out <+: q.due.map Cqe.done :=
  List.prefix_of_prefix_length_le h.out (h.due.map Cqe.done) (by rw [List.length_map]; exact hle)

theorem Completes.out_eq_iff (h : Completes j q) (hle : q.out.length ≤ q.due.length) :
    q.out = q.due.map Cqe.done ↔ q.out.length = q.due.length := by
  constructor
  · intro heq
    rw [heq, List.length_map]
  · intro hlength
    apply (h.out_due hle).eq_of_length
    rw [List.length_map, hlength]

theorem exact_of (hk : k ≤ 31) (hj : j ≤ 31) (hs : Submits k q) (hc : Completes j q) : Exact q where
  next := hs.next_exact hk
  kept := by
    intro n hn hlt
    rw [hs.size]
    exact hs.slot_of hn hlt
  pending := by
    rw [← hs.pending, Nat.add_sub_cancel]
  consumed := ⟨hs.consumed, hs.published⟩
  shared := hs.published_length hk
  submit := hs.submit_exact hk
  post := by
    constructor
    · have hle := hc.released_le
      rw [hc.has_room hj, hc.size]
      omega
    · intro hroom cqe
      obtain ⟨ring, hpost, -⟩ := hc.post hj hroom cqe
      exact ⟨ring, hpost⟩
  reaped := hc.out
  loop := by
    intro at_ tail hreading
    obtain ⟨-, -, hle⟩ := hc.reading at_ tail hreading
    refine ⟨hc.out_due hle, ?_, ?_⟩
    · rw [hc.loop_iff hj hreading, hc.out_eq_iff hle]
    · intro hne
      obtain ⟨done, hcopy, -⟩ := hc.copy hj hreading hne
      exact ⟨done, hcopy⟩
  settled := by
    intro hidle
    obtain ⟨-, hlength⟩ := hc.idle hidle
    exact (hc.out_eq_iff (Nat.le_of_eq hlength)).mpr hlength

/-- In every state of every run, of any length and with the kernel posting at any moment. -/
theorem rings_run (hk : k ≤ 31) (hj : j ≤ 31) {tr : List (Queues × Event × Queues)}
    (h : Run RingMoves (.new k j) tr q) :
    Exact q := by
  have hkept := h.steps (I := fun q => Submits k q ∧ Completes j q) ⟨submits_new hk j, completes_new k hj⟩
    fun _ _ _ hq hmove => hmove.keeps hk hj hq.1 hq.2
  exact exact_of hk hj hkept.1.1 hkept.1.2

/-- Both slots written, one taken, and its completion reaped. A call that fails takes nothing. -/
theorem rings_filled : ∃ tr q, Run RingMoves (.new 1 1) tr q ∧ tr.length = 10 ∧ Exact q ∧
    q.consumed.map Sqe.userData = [7] ∧ q.published.length = 2 ∧ q.ring.pending = 1 ∧ q.out = [⟨7, 3, 0⟩] := by
  have h0 : Run RingMoves (.new 1 1) [] (.new 1 1) := .nil
  have h1 := h0.snoc (.next rfl rfl)
  have h2 := h1.snoc (e := .fill ⟨26, 0, 5, 0, 0, 0, 0, 7⟩) (.fill rfl rfl rfl)
  have h3 := h2.snoc (.next rfl rfl)
  have h4 := h3.snoc (.next rfl rfl)
  have h5 := h4.snoc (e := .submit 1 (.failed .interrupted)) (.submit rfl rfl)
  have h6 := h5.snoc (e := .submit 1 (.took 1)) (.submit rfl rfl)
  have h7 := h6.snoc (e := .post ⟨7, 3, 0⟩) (.post (by decide) rfl)
  have h8 := h7.snoc (.load rfl)
  have h9 := h8.snoc (.copy rfl (by decide) rfl)
  have h10 := h9.snoc (.release rfl rfl)
  exact ⟨_, _, h10, rfl, rings_run (by decide) (by decide) h10, rfl, rfl, rfl, rfl⟩

end runs
end Rugo.Net
