import Mathlib.Logic.Relation
import Rugo.RespPrefix
import Rugo.Conn

/- What each operation of a connection does to its buffers and its history.

   `Exact` is the invariant: the cursors are in order, the bytes received are
   those consumed and then those still in the buffer, the replies made are those
   the socket took and then those still owed, and what was consumed reads as
   exactly the commands that ran. One lemma for each operation says that it
   never stops with a panic, keeps `Exact`, and what else it leaves alone. -/
namespace Rugo
open Exec Resp

/-! ## Buffers -/

namespace Conn

/-- The cursors are in order and the buffer is of a size it grows to. -/
structure Sane (c : Conn) : Prop where
  at_le : c.at_ ≤ c.filled
  filled_le : c.filled ≤ c.buf.length
  size : ∃ k ≤ 10, c.buf.length = chunk * 2 ^ k
  sent_le : c.sent ≤ c.out.length

/-- What making room leaves alone. -/
structure SameReplies (c c' : Conn) : Prop where
  out : c'.out = c.out
  sent : c'.sent = c.sent
  dialect : c'.dialect = c.dialect
  closing : c'.closing = c.closing
  unread : c'.unread = c.unread

theorem Sane.size_le {c : Conn} (h : c.Sane) : chunk ≤ c.buf.length ∧ c.buf.length ≤ maxRequest := by
  obtain ⟨k, hk, hlen⟩ := h.size
  have hpos := Nat.one_le_two_pow (n := k)
  have hle := Nat.pow_le_pow_right (n := 2) (by omega) hk
  rw [hlen]
  unfold chunk maxRequest
  omega

theorem Sane.unread_length {c : Conn} (h : c.Sane) : c.unread.length = c.filled - c.at_ := by
  have h1 := h.at_le
  have h2 := h.filled_le
  rw [unread, List.length_take, List.length_drop]
  omega

theorem Sane.slice_unread {c : Conn} (h : c.Sane) : slice c.buf c.at_ c.filled = .ok c.unread :=
  slice_ok h.at_le h.filled_le

theorem sane_new : new.Sane where
  at_le := Nat.le_refl _
  filled_le := Nat.zero_le _
  size := ⟨0, by omega, by simp [new]⟩
  sent_le := Nat.le_refl _

theorem compact_ok {c : Conn} (h : c.Sane) : ∃ c', c.compact = .ok c' ∧ c'.Sane ∧
    SameReplies c c' ∧ c'.buf.length = c.buf.length ∧ c'.at_ = 0 ∧ c'.filled = c.filled - c.at_ := by
  have hat := h.at_le
  have hfilled := h.filled_le
  have hlen := h.unread_length
  unfold compact
  by_cases hpos : c.at_ > 0
  · have hle : 0 + c.unread.length ≤ c.buf.length := by omega
    rw [if_pos hpos, h.slice_unread, ok_bind, splice_ok hle, ok_bind, minus_ok hat, ok_bind]
    have hsize : (c.buf.take 0 ++ c.unread ++ c.buf.drop (0 + c.unread.length)).length =
        c.buf.length := by
      simp only [List.length_append, List.length_take, List.length_drop]
      omega
    refine ⟨_, rfl, ⟨Nat.zero_le _, ?_, ?_, h.sent_le⟩, ⟨rfl, rfl, rfl, rfl, ?_⟩, hsize, rfl, rfl⟩
    · simp only [hsize]
      omega
    · simp only [hsize]
      exact h.size
    · simp only [unread, List.drop_zero, List.take_zero, List.nil_append, Nat.sub_zero]
      rw [List.take_append_of_le_length (by rw [← unread, hlen]), ← unread, ← hlen,
        List.take_length]
  · rw [if_neg hpos]
    exact ⟨c, rfl, h, ⟨rfl, rfl, rfl, rfl, rfl⟩, rfl, by omega, by omega⟩

theorem Sane.size_full {c : Conn} (h : c.Sane) (hmax : c.buf.length * 2 > maxRequest) :
    c.buf.length = maxRequest := by
  obtain ⟨k, hk, hpow⟩ := h.size
  have hten : k = 10 := by
    by_contra hne
    have := Nat.pow_le_pow_right (n := 2) (by omega) (show k ≤ 9 by omega)
    rw [hpow] at hmax
    unfold chunk maxRequest at hmax
    omega
  rw [hpow, hten]
  rfl

theorem double_ok {c : Conn} (h : c.Sane) (hmax : ¬ c.buf.length * 2 > maxRequest) :
    ∃ c', c.double = (true, c') ∧ c'.Sane ∧ SameReplies c c' ∧
      c'.buf.length = c.buf.length * 2 ∧ c'.filled = c.filled := by
  have hat := h.at_le
  have hfilled := h.filled_le
  have hdouble : (c.buf ++ List.replicate (c.buf.length * 2 - c.buf.length) (0 : UInt8)).length =
      c.buf.length * 2 := by
    rw [List.length_append, List.length_replicate]
    omega
  unfold double
  rw [if_neg hmax]
  refine ⟨_, rfl, ⟨hat, ?_, ?_, h.sent_le⟩, ⟨rfl, rfl, rfl, rfl, ?_⟩, hdouble, rfl⟩
  · simp only [hdouble]
    omega
  · obtain ⟨k, hk, hpow⟩ := h.size
    refine ⟨k + 1, ?_, ?_⟩
    · by_contra hne
      have hten : k = 10 := by omega
      rw [hpow, hten] at hmax
      exact hmax (by decide)
    · rw [Nat.pow_succ, ← Nat.mul_assoc, ← hpow]
      exact hdouble
  · simp only [unread]
    rw [List.drop_append_of_le_length (by omega), List.take_append_of_le_length]
    rw [List.length_drop]
    omega

/-- The room a read is given: what is free behind the bytes, or with them moved
to the front, or in a buffer of twice the size. -/
def room (c : Conn) : Nat :=
  if spare ≤ c.buf.length - c.filled then c.buf.length - c.filled
  else if spare ≤ c.buf.length - c.unread.length then c.buf.length - c.unread.length
  else c.buf.length * 2 - c.unread.length

/-- A read is given room, unless one request fills the largest buffer. -/
theorem makeRoom_ok {c : Conn} (h : c.Sane) : ∃ there c', c.makeRoom = .ok (there, c') ∧ c'.Sane ∧
    SameReplies c c' ∧ (there = true → spare ≤ c.room ∧ c'.buf.length - c'.filled = c.room) ∧
    (there = false ↔ maxRequest - spare < c.unread.length) := by
  have hsize := h.size_le
  have hfilled := h.filled_le
  have hlen := h.unread_length
  have hchunk : chunk = 16384 := rfl
  have hspare : spare = 4096 := rfl
  have hmost : maxRequest = 16777216 := rfl
  unfold makeRoom room
  rw [minus_ok hfilled, ok_bind]
  by_cases hfree : c.buf.length - c.filled ≥ spare
  · rw [if_pos hfree, if_pos hfree]
    refine ⟨true, c, rfl, h, ⟨rfl, rfl, rfl, rfl, rfl⟩, fun _ => ⟨hfree, rfl⟩, by simp, ?_⟩
    intro hbig
    omega
  -- what has been read is dropped first, and only then is the buffer doubled
  · obtain ⟨c1, hc1, hs1, hsame1, hbuf1, hat1, hfilled1⟩ := compact_ok h
    have hle1 := hs1.filled_le
    have hsize1 := hs1.size_le
    have hmoved : c1.buf.length - c1.filled = c.buf.length - c.unread.length := by
      rw [hbuf1, hfilled1, hlen]
    rw [if_neg hfree, if_neg hfree, hc1, ok_bind, minus_ok hle1, ok_bind, ← hmoved]
    by_cases hfree1 : c1.buf.length - c1.filled < spare
    · rw [if_pos hfree1, if_neg (Nat.not_le.mpr hfree1)]
      by_cases hmax : c1.buf.length * 2 > maxRequest
      -- as large as it may be, and still no room: too much of it is unread
      · have hfull := hs1.size_full hmax
        rw [double, if_pos hmax]
        refine ⟨false, c1, rfl, hs1, hsame1, by simp, ?_⟩
        simp only [true_iff]
        omega
      · obtain ⟨c2, hc2, hs2, hsame2, hbuf2, hfilled2⟩ := double_ok hs1 hmax
        rw [hc2]
        refine ⟨true, c2, rfl, hs2, ⟨hsame2.out.trans hsame1.out, hsame2.sent.trans hsame1.sent,
          hsame2.dialect.trans hsame1.dialect, hsame2.closing.trans hsame1.closing,
          hsame2.unread.trans hsame1.unread⟩, ?_, by simp, ?_⟩
        · intro _
          omega
        · intro hbig
          omega
    · rw [if_neg hfree1, if_pos (Nat.not_lt.mp hfree1)]
      refine ⟨true, c1, rfl, hs1, hsame1, fun _ => ⟨Nat.not_lt.mp hfree1, rfl⟩, by simp, ?_⟩
      intro hbig
      omega

/-- How many bytes the reply buffer holds once `n` of those owed went out. -/
def held (c : Conn) (n : Nat) : Nat :=
  if c.sent + n = c.out.length then 0
  else if c.sent + n > maxReply then c.out.length - (c.sent + n)
  else c.out.length

theorem rewind_ok {c : Conn} (h : c.Sane) : c.rewind.Sane ∧ SameReplies c c.rewind := by
  unfold rewind
  split
  · next heq =>
    exact ⟨⟨Nat.le_refl _, Nat.zero_le _, h.size, h.sent_le⟩,
      ⟨rfl, rfl, rfl, rfl, by simp [unread, heq]⟩⟩
  · exact ⟨h, ⟨rfl, rfl, rfl, rfl, rfl⟩⟩

end Conn

/-! ## What the socket's answers amount to -/

namespace Reads

def hungUp : Reads → Bool
  | .took .. => false
  | .eof => true
  | .interrupted next => next.hungUp
  | .wouldBlock => false
  | .failed => false

def fails : Reads → Bool
  | .took .. => false
  | .eof => false
  | .interrupted next => next.fails
  | .wouldBlock => false
  | .failed => true

/-- What it gave of what it had, where there was room for `n` bytes. -/
def data : Reads → Nat → List UInt8
  | .took first more, n => (first :: more).take n
  | .eof, _ => []
  | .interrupted next, n => next.data n
  | .wouldBlock, _ => []
  | .failed, _ => []

theorem data_ends {reads : Reads} (h : reads.hungUp = false → reads.fails = true) (n : Nat) :
    reads.data n = [] := by
  induction reads with
  | took first more => cases h rfl
  | eof => rfl
  | interrupted next ih => exact ih h
  | wouldBlock => cases h rfl
  | failed => rfl

end Reads

namespace Writes

/-- How many of `n` bytes the socket takes before it blocks or fails. -/
def given : Writes → Nat → Nat
  | .took more next, n => min (more + 1) n + next.given (n - (more + 1))
  | .zero, _ => 0
  | .interrupted next, n => next.given n
  | .wouldBlock, _ => 0
  | .failed, _ => 0

theorem given_le (writes : Writes) (n : Nat) : writes.given n ≤ n := by
  induction writes generalizing n with
  | took more next ih =>
    have := ih (n - (more + 1))
    simp only [given]
    omega
  | interrupted next ih => exact ih n
  | zero => exact Nat.zero_le n
  | wouldBlock => exact Nat.zero_le n
  | failed => exact Nat.zero_le n

theorem given_mono (writes : Writes) {m n : Nat} (hle : m ≤ n) (hall : writes.given n = n) :
    writes.given m = m := by
  induction writes generalizing m n with
  | took more next ih =>
    have hrest := next.given_le (n - (more + 1))
    simp only [given] at hall ⊢
    have := ih (m := m - (more + 1)) (n := n - (more + 1)) (by omega) (by omega)
    omega
  | interrupted next ih => exact ih hle hall
  | zero => exact (Nat.le_zero.mp (Nat.le_trans hle (Nat.le_of_eq hall.symm))).symm
  | wouldBlock => exact (Nat.le_zero.mp (Nat.le_trans hle (Nat.le_of_eq hall.symm))).symm
  | failed => exact (Nat.le_zero.mp (Nat.le_trans hle (Nat.le_of_eq hall.symm))).symm

def fails : Writes → Nat → Bool
  | .took more next, n => n != 0 && next.fails (n - (more + 1))
  | .zero, n => n != 0
  | .interrupted next, n => n != 0 && next.fails n
  | .wouldBlock, _ => false
  | .failed, n => n != 0

end Writes

/-! ## Histories -/

namespace Did

/-- The bytes of the stream it took. -/
def used : Did → List UInt8
  | ran used _ _ => used
  | skipped used => used
  | refused _ => []

/-- The bytes it answered. -/
def reply : Did → List UInt8
  | ran _ _ reply => reply
  | skipped _ => []
  | refused bad => Peer.complaint bad

/-- It reads as one parse of its own bytes does. -/
def Framed : Did → Prop
  | ran used args _ =>
    ∃ cmd : Command, cmd ≠ [] ∧ parsed used = (.ok (.done used.length), cmd) ∧ args = cmd.args used
  | skipped used => parsed used = (.ok (.done used.length), [])
  | refused _ => True

/-- A command, with or without arguments. -/
def served : Did → Bool
  | ran .. => true
  | skipped _ => true
  | refused _ => false

end Did

/-- The bytes that have been executed. -/
def consumed (did : List Did) : List UInt8 := (did.map Did.used).flatten

/-- The replies they were given, in order. -/
def answered (did : List Did) : List UInt8 := (did.map Did.reply).flatten

theorem consumed_snoc (did : List Did) (d : Did) : consumed (did ++ [d]) = consumed did ++ d.used := by
  simp [consumed]

theorem answered_snoc (did : List Did) (d : Did) : answered (did ++ [d]) = answered did ++ d.reply := by
  simp [answered]

/-! ## The work itself, without its buffers -/

/-- What a command may look at and change, besides the buffers. -/
structure Desk (σ : Type) where
  env : σ
  dialect : Dialect
  closing : Bool
  did : List Did

namespace Desk
variable {σ : Type}

def dispatch (run : Dispatch σ) (d : Desk σ) (command : Command) (seen : List UInt8) : Desk σ :=
  if command.isEmpty then { d with did := d.did ++ [.skipped seen] }
  else
    let ran := run d.env (command.args seen) d.dialect
    { env := ran.env
      dialect := ran.dialect
      closing := d.closing || ran.last
      did := d.did ++ [.ran seen (command.args seen) ran.reply] }

/-- One parse at the front of what is there, and what is left; nothing when
more is needed or no more is wanted. -/
def next (run : Dispatch σ) (p : Desk σ × List UInt8) : Option (Desk σ × List UInt8) :=
  if p.1.closing then none
  else match parsed p.2 with
    | (.ok (.done used), command) =>
      some (p.1.dispatch run command (p.2.take used), p.2.drop used)
    | (.ok .more, _) => none
    | (.error bad, _) => some ({ p.1 with closing := true, did := p.1.did ++ [.refused bad] }, p.2)

/-- Any number of parses. -/
def Works (run : Dispatch σ) : Desk σ × List UInt8 → Desk σ × List UInt8 → Prop :=
  Relation.ReflTransGen fun p q => next run p = some q

/-- Any number of parses, with the replies not yet at the ceiling before each:
of the bytes answered the socket has taken `taken`, and `sent` of those it took
still stand in the reply buffer. -/
def Under (run : Dispatch σ) (sent taken : Nat) :
    Desk σ × List UInt8 → Desk σ × List UInt8 → Prop :=
  Relation.ReflTransGen fun p q =>
    next run p = some q ∧ ¬ maxReply + taken ≤ (answered p.1.did).length + sent

theorem Under.works {run : Dispatch σ} {sent taken : Nat} {p q : Desk σ × List UInt8}
    (h : Under run sent taken p q) : Works run p q := by
  induction h with
  | refl => exact .refl
  | tail _ hstep ih => exact ih.tail hstep.1

/-- Work that passes the ceiling comes after the work that stops at it. -/
theorem Under.works_after {run : Dispatch σ} {sent taken : Nat} {p q q' : Desk σ × List UInt8}
    (h : Under run sent taken p q) (hw : Works run p q')
    (hceil : maxReply + taken ≤ (answered q'.1.did).length + sent) : Works run q q' := by
  induction h using Relation.ReflTransGen.head_induction_on with
  | refl => exact hw
  | head hstep _ ih =>
    obtain ⟨hnext, hunder⟩ := hstep
    -- both go the same way, and only the one at the ceiling stops
    cases hw using Relation.ReflTransGen.head_induction_on with
    | refl => exact absurd hceil hunder
    | head hstep' hrest _ =>
      rw [hnext] at hstep'
      cases hstep'
      exact ih hrest

end Desk

/-! ## The invariant -/

namespace Peer
variable {σ : Type}

def desk (s : Peer σ) : Desk σ := ⟨s.env, s.conn.dialect, s.conn.closing, s.did⟩

/-- The history ends with a refusal, if it has one. -/
def Ends (did : List Did) (closing : Bool) : Prop :=
  ∃ commands tail, did = commands ++ tail ∧ (∀ d ∈ commands, d.served = true) ∧
    (tail = [] ∨ ∃ bad, tail = [.refused bad] ∧ closing = true)

/-- No byte is lost, duplicated or out of order. -/
structure Exact (s : Peer σ) : Prop where
  sane : s.conn.Sane
  bytes : consumed s.did ++ s.conn.unread = s.received
  replies : s.taken ++ s.conn.owed = answered s.did
  framed : ∀ d ∈ s.did, d.Framed
  ends : Ends s.did s.conn.closing

def new (env : σ) : Peer σ := ⟨.new, env, [], [], [], false⟩

theorem exact_new (env : σ) : (new env).Exact where
  sane := Conn.sane_new
  bytes := by simp [new, consumed, Conn.unread, Conn.new]
  replies := by simp [new, answered, Conn.owed, Conn.new]
  framed := by simp [new]
  ends := ⟨[], [], rfl, by simp, .inl rfl⟩

theorem room_new (env : σ) : (new env).conn.room = chunk := by
  have hlen : (new env).conn.buf.length = chunk := by
    simp only [new, Conn.new, List.length_replicate]
  have hfilled : (new env).conn.filled = 0 := rfl
  have hspare : spare ≤ chunk := by simp only [spare, chunk]; omega
  rw [Conn.room, hlen, hfilled, Nat.sub_zero, if_pos hspare]

theorem unread_new (env : σ) : (new env).conn.unread = [] := by
  have hlen := (exact_new env).sane.unread_length
  exact List.length_eq_zero_iff.mp hlen

/-- The parts of a connection that reading does not touch. -/
structure SameWork (s s' : Peer σ) : Prop where
  env : s'.env = s.env
  did : s'.did = s.did
  dialect : s'.conn.dialect = s.conn.dialect
  closing : s'.conn.closing = s.conn.closing

theorem SameWork.desk {s s' : Peer σ} (h : SameWork s s') : s'.desk = s.desk := by
  unfold Peer.desk
  rw [h.env, h.did, h.dialect, h.closing]

/-! ## Reading -/

structure Filled (s s' : Peer σ) (data : List UInt8) : Prop where
  exact : Exact s'
  work : SameWork s s'
  received : s'.received = s.received ++ data
  unread : s'.conn.unread = s.conn.unread ++ data
  taken : s'.taken = s.taken
  out : s'.conn.out = s.conn.out
  sent : s'.conn.sent = s.conn.sent

theorem arrived_ok {s : Peer σ} (h : s.Exact) {data : List UInt8}
    (hdata : s.conn.filled + data.length ≤ s.conn.buf.length) :
    ∃ s', s.landed s.conn.filled data = .ok s' ∧
      Filled s { s' with conn := { s'.conn with filled := s.conn.filled + data.length } } data := by
  have hat := h.sane.at_le
  have hfilled := h.sane.filled_le
  obtain ⟨buf, hbuf⟩ : ∃ buf, splice s.conn.buf s.conn.filled data = .ok buf := ⟨_, splice_ok hdata⟩
  have hlen := splice_length hbuf
  have hunread : (buf.drop s.conn.at_).take (s.conn.filled + data.length - s.conn.at_) =
      s.conn.unread ++ data := by
    obtain ⟨-, rfl⟩ := splice_eq_ok.mp hbuf
    have htake : (s.conn.buf.take s.conn.filled).length = s.conn.filled := by
      rw [List.length_take]
      omega
    have hu := h.sane.unread_length
    have hfront : (s.conn.buf.take s.conn.filled).drop s.conn.at_ = s.conn.unread := by
      rw [Conn.unread, List.drop_take]
    rw [List.append_assoc, List.drop_append_of_le_length (by omega), hfront, ← List.append_assoc,
      List.take_append_of_le_length (by rw [List.length_append]; omega), List.take_of_length_le]
    rw [List.length_append]
    omega
  refine ⟨{ s with conn := { s.conn with buf }, received := s.received ++ data }, ?_, ?_⟩
  · rw [landed, hbuf]
    rfl
  · refine ⟨⟨⟨?_, ?_, ?_, h.sane.sent_le⟩, ?_, h.replies, h.framed, h.ends⟩, ⟨rfl, rfl, rfl, rfl⟩,
      rfl, hunread, rfl, rfl, rfl⟩
    · simp only
      omega
    · simp only [hlen]
      exact hdata
    · simp only [hlen]
      exact h.sane.size
    · rw [Conn.unread, hunread, ← List.append_assoc, h.bytes]

theorem Filled.of_room {s : Peer σ} {c : Conn} (h : s.Exact) (hc : c.Sane)
    (hsame : s.conn.SameReplies c) : Filled s { s with conn := c } [] where
  exact := {
    sane := hc
    bytes := by rw [hsame.unread]; exact h.bytes
    replies := by rw [Conn.owed, hsame.out, hsame.sent]; exact h.replies
    framed := h.framed
    ends := by rw [hsame.closing]; exact h.ends }
  work := ⟨rfl, rfl, hsame.dialect, hsame.closing⟩
  received := (List.append_nil _).symm
  unread := by rw [List.append_nil]; exact hsame.unread
  taken := rfl
  out := hsame.out
  sent := hsame.sent

theorem Filled.trans {s s1 s2 : Peer σ} {d1 d2 : List UInt8} (h1 : Filled s s1 d1)
    (h2 : Filled s1 s2 d2) : Filled s s2 (d1 ++ d2) where
  exact := h2.exact
  work := ⟨h2.work.env.trans h1.work.env, h2.work.did.trans h1.work.did,
    h2.work.dialect.trans h1.work.dialect, h2.work.closing.trans h1.work.closing⟩
  received := by rw [h2.received, h1.received, List.append_assoc]
  unread := by rw [h2.unread, h1.unread, List.append_assoc]
  taken := h2.taken.trans h1.taken
  out := h2.out.trans h1.out
  sent := h2.sent.trans h1.sent

theorem Filled.of_broken {s : Peer σ} (h : s.Exact) (broken : Bool) :
    Filled s { s with broken } [] where
  exact := ⟨h.sane, h.bytes, h.replies, h.framed, h.ends⟩
  work := ⟨rfl, rfl, rfl, rfl⟩
  received := (List.append_nil _).symm
  unread := (List.append_nil _).symm
  taken := rfl
  out := rfl
  sent := rfl

theorem read_ok {s : Peer σ} (h : s.Exact) (hroom : s.conn.filled < s.conn.buf.length)
    (reads : Reads) : ∃ s', s.read reads = .ok (!(reads.hungUp || reads.fails), s') ∧
      Filled s s' (reads.data (s.conn.buf.length - s.conn.filled)) ∧
      s'.broken = (s.broken || reads.fails) := by
  have hself : Filled s s [] := Filled.of_room h h.sane ⟨rfl, rfl, rfl, rfl, rfl⟩
  induction reads with
  | took first more =>
    have hslice := slice_ok (l := s.conn.buf) (Nat.le_of_lt hroom) (Nat.le_refl _)
    have hlen := slice_length hslice
    simp only [read, hslice, ok_bind]
    rw [hlen]
    have hne : ((first :: more).take (s.conn.buf.length - s.conn.filled)).isEmpty = false := by
      rw [show s.conn.buf.length - s.conn.filled = (s.conn.buf.length - s.conn.filled - 1) + 1 by omega]
      rfl
    simp only [hne, Bool.false_eq_true, if_false]
    have hdata : s.conn.filled + ((first :: more).take (s.conn.buf.length - s.conn.filled)).length ≤
        s.conn.buf.length := by
      rw [List.length_take]
      omega
    obtain ⟨s', hs', hfill⟩ := arrived_ok h hdata
    rw [hs', ok_bind]
    have hsame : s'.conn.filled = s.conn.filled ∧ s'.broken = s.broken := by
      obtain ⟨buf, -, hb⟩ := bind_ok_iff.mp hs'
      rw [← Except.ok.inj hb]
      exact ⟨rfl, rfl⟩
    refine ⟨_, rfl, ?_, by simp [hsame.2, Reads.fails]⟩
    rw [hsame.1]
    exact hfill
  | eof => exact ⟨s, rfl, hself, by simp [Reads.fails]⟩
  | interrupted next ih => exact ih
  | wouldBlock => exact ⟨s, rfl, hself, by simp [Reads.fails]⟩
  | failed => exact ⟨_, rfl, Filled.of_broken h true, by simp [Reads.fails]⟩

/-- A fill reports that nobody is there exactly when the socket says so, or
one request fills the largest buffer. -/
theorem fill_ok {s : Peer σ} (h : s.Exact) (reads : Reads) :
    ∃ there s', s.fill reads = .ok (there, s') ∧
      Filled s s' (if there then reads.data s.conn.room else []) ∧
      (there = false ↔ maxRequest - spare < s.conn.unread.length ∨
        (reads.hungUp || reads.fails) = true) ∧
      s'.broken = (s.broken || Decidable.decide (s.conn.unread.length ≤ maxRequest - spare) && reads.fails) := by
  obtain ⟨room, c, hc, hsane, hsame, hfree, hfull⟩ := Conn.makeRoom_ok h.sane
  have hroomed := Filled.of_room h hsane hsame
  rw [fill, hc, ok_bind]
  cases room with
  | false =>
    have hbig := hfull.mp rfl
    exact ⟨false, _, rfl, hroomed, by simp [hbig], by simp [Nat.not_le.mpr hbig]⟩
  | true =>
    have hspare : spare = 4096 := rfl
    obtain ⟨hlt, heq⟩ := hfree rfl
    have hnot : ¬ maxRequest - spare < s.conn.unread.length := fun hbig => by
      simpa using hfull.mpr hbig
    obtain ⟨s', hread, hfill, hbroken⟩ := read_ok hroomed.exact (by simp only; omega) reads
    have hends : reads.data s.conn.room =
        if !(reads.hungUp || reads.fails) then reads.data s.conn.room else [] := by
      split
      · rfl
      · next hgone =>
        apply reads.data_ends
        simpa using hgone
    refine ⟨!(reads.hungUp || reads.fails), s', hread, ?_, ?_, ?_⟩
    · have hall := hroomed.trans hfill
      rw [List.nil_append, heq, hends] at hall
      exact hall
    · cases reads.hungUp <;> simp [hnot]
    · simp [hbroken, Nat.not_lt.mp hnot]

/-! ## Writing -/

structure Flushed (s s' : Peer σ) (n : Nat) : Prop where
  exact : Exact s'
  work : SameWork s s'
  received : s'.received = s.received
  unread : s'.conn.unread = s.conn.unread
  room : s'.conn.room = s.conn.room
  taken : s'.taken = s.taken ++ s.conn.owed.take n
  owed : s'.conn.owed = s.conn.owed.drop n

theorem Flushed.refl {s : Peer σ} (h : s.Exact) : Flushed s s 0 :=
  ⟨h, ⟨rfl, rfl, rfl, rfl⟩, rfl, rfl, rfl, by simp, by simp⟩

theorem Flushed.trans {s s1 s2 : Peer σ} {m n : Nat} (h1 : Flushed s s1 m) (h2 : Flushed s1 s2 n) :
    Flushed s s2 (m + n) where
  exact := h2.exact
  work := ⟨h2.work.env.trans h1.work.env, h2.work.did.trans h1.work.did,
    h2.work.dialect.trans h1.work.dialect, h2.work.closing.trans h1.work.closing⟩
  received := h2.received.trans h1.received
  unread := h2.unread.trans h1.unread
  room := h2.room.trans h1.room
  taken := by rw [h2.taken, h1.taken, h1.owed, List.append_assoc, ← List.take_add]
  owed := by rw [h2.owed, h1.owed, List.drop_drop]

theorem gave_ok {s : Peer σ} (h : s.Exact) {n : Nat} (hn : n ≤ s.conn.owed.length) :
    Flushed s (s.gave n) n := by
  have howed : (s.gave n).conn.owed = s.conn.owed.drop n := by
    simp only [gave, left, Conn.owed, List.drop_drop]
  have hlen : s.conn.owed.length = s.conn.out.length - s.conn.sent := List.length_drop
  have hle := h.sane.sent_le
  refine ⟨⟨⟨h.sane.at_le, h.sane.filled_le, h.sane.size, ?_⟩, h.bytes, ?_, h.framed, h.ends⟩,
    ⟨rfl, rfl, rfl, rfl⟩, rfl, rfl, rfl, rfl, howed⟩
  · simp only [gave, left]
    omega
  · rw [howed, gave, left, List.append_assoc, Conn.owed, List.take_append_drop]
    exact h.replies

theorem Flushed.of_broken {s : Peer σ} (h : s.Exact) (broken : Bool) :
    Flushed s { s with broken } 0 :=
  ⟨⟨h.sane, h.bytes, h.replies, h.framed, h.ends⟩, ⟨rfl, rfl, rfl, rfl⟩, rfl, rfl, rfl, by simp, rfl⟩

theorem tidy_ok {s : Peer σ} (h : s.Exact) : Flushed s { s with conn := s.conn.tidy } 0 := by
  unfold Conn.tidy
  split
  · next hall =>
    have howed : s.conn.owed = [] := by rw [Conn.owed, hall, List.drop_length]
    refine ⟨⟨⟨h.sane.at_le, h.sane.filled_le, h.sane.size, Nat.le_refl _⟩, h.bytes, ?_, h.framed,
      h.ends⟩, ⟨rfl, rfl, rfl, rfl⟩, rfl, rfl, rfl, by simp, by rw [howed]; rfl⟩
    rw [← h.replies, howed]
    rfl
  · split
    · exact ⟨⟨⟨h.sane.at_le, h.sane.filled_le, h.sane.size, Nat.zero_le _⟩, h.bytes, h.replies,
        h.framed, h.ends⟩, ⟨rfl, rfl, rfl, rfl⟩, rfl, rfl, rfl, by simp, rfl⟩
    · exact Flushed.refl h

theorem owes_iff (c : Conn) : c.owes = true ↔ c.owed.length ≠ 0 := by
  rw [Conn.owes, decide_eq_true_eq, Conn.owed, List.length_drop]
  omega

theorem owes_false {c : Conn} (h : ¬ c.owes = true) : c.owed = [] := by
  rw [owes_iff, ne_eq, not_not] at h
  exact List.length_eq_zero_iff.mp h

/-- What a run of writes comes to, with `good` whether the socket still is. -/
structure Wrote (s s' : Peer σ) (writes : Writes) (good : Bool) : Prop where
  flushed : Flushed s s' (writes.given s.conn.owed.length)
  good : good = !writes.fails s.conn.owed.length
  broken : s'.broken = (s.broken || writes.fails s.conn.owed.length)

theorem Wrote.refl {s : Peer σ} (h : s.Exact) {writes : Writes}
    (hg : writes.given s.conn.owed.length = 0) (hf : writes.fails s.conn.owed.length = false) :
    Wrote s s writes true :=
  ⟨by rw [hg]; exact .refl h, by rw [hf]; rfl, by rw [hf, Bool.or_false]⟩

theorem Wrote.idle {s : Peer σ} (h : s.Exact) (ho : ¬ s.conn.owes = true) (writes : Writes) :
    Wrote s s writes true := by
  have hlen : s.conn.owed.length = 0 := by rw [owes_false ho]; rfl
  refine .refl h ?_ ?_
  · rw [hlen]
    exact Nat.le_zero.mp (writes.given_le 0)
  · rw [hlen]
    cases writes <;> simp [Writes.fails]

theorem Wrote.failed {s : Peer σ} (h : s.Exact) {writes : Writes}
    (hg : writes.given s.conn.owed.length = 0) (hf : writes.fails s.conn.owed.length = true) :
    Wrote s { s with broken := true } writes false :=
  ⟨by rw [hg]; exact .of_broken h true, by rw [hf]; rfl, by rw [hf, Bool.or_true]⟩

theorem write_ok {s : Peer σ} (h : s.Exact) (writes : Writes) :
    Wrote s (s.write writes).2 writes (s.write writes).1 ∧ (s.write writes).2.conn.out = s.conn.out ∧
      (s.write writes).2.conn.sent = s.conn.sent + writes.given s.conn.owed.length := by
  have hnone : ∀ w : Writes, ¬ s.conn.owes = true → w.given s.conn.owed.length = 0 := by
    intro w ho
    rw [owes_false ho]
    exact Nat.le_zero.mp (w.given_le 0)
  induction writes generalizing s with
  | took more next ih =>
    rw [write]
    split
    · next ho =>
      have hne := bne_iff_ne.mpr ((owes_iff _).mp ho)
      -- what is taken is gone from the front of what is owed
      have hgave := gave_ok h (Nat.min_le_right (more + 1) s.conn.owed.length)
      have hrest : (s.gave (min (more + 1) s.conn.owed.length)).conn.owed.length =
          s.conn.owed.length - (more + 1) := by
        rw [hgave.owed, List.length_drop]
        omega
      have hsame : (s.gave (min (more + 1) s.conn.owed.length)).broken = s.broken ∧
          (s.gave (min (more + 1) s.conn.owed.length)).conn.out = s.conn.out ∧
          (s.gave (min (more + 1) s.conn.owed.length)).conn.sent =
            s.conn.sent + min (more + 1) s.conn.owed.length := ⟨rfl, rfl, rfl⟩
      generalize s.gave (min (more + 1) s.conn.owed.length) = s1 at hgave hrest hsame
      obtain ⟨hn, hout, hsent⟩ := ih hgave.exact fun w ho => by
        rw [owes_false ho]
        exact Nat.le_zero.mp (w.given_le 0)
      obtain ⟨hn, hgood, hbroken⟩ := hn
      rw [hrest] at hn hgood hbroken hsent
      refine ⟨⟨hgave.trans hn, by simpa [Writes.fails, hne] using hgood,
        by simpa [Writes.fails, hne, hsame] using hbroken⟩, hout.trans hsame.2.1, ?_⟩
      rw [hsent, hsame.2.2, Writes.given, Nat.add_assoc]
    · next ho => exact ⟨.idle h ho _, rfl, by rw [hnone _ ho, Nat.add_zero]⟩
  | zero =>
    rw [write]
    split
    · next ho => exact ⟨.failed h rfl (by simp [Writes.fails, (owes_iff _).mp ho]), rfl, rfl⟩
    · next ho => exact ⟨.idle h ho _, rfl, rfl⟩
  | interrupted next ih =>
    rw [write]
    split
    · next ho =>
      have hne := bne_iff_ne.mpr ((owes_iff _).mp ho)
      obtain ⟨⟨hn, hgood, hbroken⟩, hout, hsent⟩ := ih h hnone
      exact ⟨⟨hn, by simpa [Writes.fails, hne] using hgood, by simpa [Writes.fails, hne] using hbroken⟩,
        hout, hsent⟩
    · next ho => exact ⟨.idle h ho _, rfl, by rw [hnone _ ho, Nat.add_zero]⟩
  | wouldBlock => exact ⟨.refl h rfl rfl, rfl, rfl⟩
  | failed =>
    rw [write]
    split
    · next ho => exact ⟨.failed h rfl (by simp [Writes.fails, (owes_iff _).mp ho]), rfl, rfl⟩
    · next ho => exact ⟨.idle h ho _, rfl, rfl⟩

theorem flush_ok {s : Peer σ} (h : s.Exact) (writes : Writes) :
    ∃ good s', s.flush writes = (good, s') ∧ Wrote s s' writes good ∧
      (good = true → s'.conn.out.length = s.conn.held (writes.given s.conn.owed.length)) := by
  obtain ⟨⟨hn, hgood, hbroken⟩, hout, hsent⟩ := write_ok h writes
  rw [flush]
  cases hw : s.write writes with
  | mk good s1 =>
    rw [hw] at hn hgood hbroken hout hsent
    cases good with
    | false => exact ⟨false, s1, rfl, ⟨hn, hgood, hbroken⟩, by simp⟩
    | true =>
      have htidy := hn.trans (tidy_ok hn.exact)
      refine ⟨true, _, rfl, ⟨htidy, hgood, hbroken⟩, fun _ => ?_⟩
      simp only at hout hsent
      simp only [Conn.tidy, Conn.held]
      rw [hout, hsent]
      split
      · rfl
      · split
        · simp only [List.length_drop]
        · rw [hout]

/-! ## Executing -/

/-- What one pass, or any number of them, does. -/
structure Executed (run : Dispatch σ) (s s' : Peer σ) : Prop where
  exact : Exact s'
  under : Desk.Under run s.conn.sent s.taken.length (s.desk, s.conn.unread) (s'.desk, s'.conn.unread)
  received : s'.received = s.received
  taken : s'.taken = s.taken
  sent : s'.conn.sent = s.conn.sent
  out : s.conn.out <+: s'.conn.out
  broken : s'.broken = s.broken

theorem Executed.refl {run : Dispatch σ} {s : Peer σ} (h : s.Exact) : Executed run s s :=
  ⟨h, .refl, rfl, rfl, rfl, List.prefix_rfl, rfl⟩

theorem Executed.works {run : Dispatch σ} {s s' : Peer σ} (h : Executed run s s') :
    Desk.Works run (s.desk, s.conn.unread) (s'.desk, s'.conn.unread) := h.under.works

theorem Executed.trans {run : Dispatch σ} {s s1 s2 : Peer σ} (h1 : Executed run s s1)
    (h2 : Executed run s1 s2) : Executed run s s2 where
  exact := h2.exact
  under := by
    have hu := h2.under
    rw [h1.sent, h1.taken] at hu
    exact h1.under.trans hu
  received := h2.received.trans h1.received
  taken := h2.taken.trans h1.taken
  sent := h2.sent.trans h1.sent
  out := h1.out.trans h2.out
  broken := h2.broken.trans h1.broken

theorem Exact.answered_length {s : Peer σ} (h : s.Exact) :
    (answered s.did).length + s.conn.sent = s.taken.length + s.conn.out.length ∧
      (answered s.did).length = s.taken.length + s.conn.owed.length := by
  have hsent := h.sane.sent_le
  have hlen : s.conn.owed.length = s.conn.out.length - s.conn.sent := List.length_drop
  rw [← h.replies, List.length_append]
  omega

theorem owed_append {c : Conn} (h : c.Sane) (reply : List UInt8) :
    (c.out ++ reply).drop c.sent = c.owed ++ reply :=
  List.drop_append_of_le_length h.sent_le

/-- A history of an open connection has no refusal, and takes one more entry. -/
theorem Ends.snoc {did : List Did} {closing : Bool} (h : Ends did false) {d : Did}
    (hd : d.served = true ∨ (∃ bad, d = .refused bad) ∧ closing = true) :
    Ends (did ++ [d]) closing := by
  obtain ⟨commands, tail, rfl, hserved, rfl | ⟨bad, -, hc⟩⟩ := h
  · rw [List.append_nil]
    obtain hd | ⟨⟨bad, rfl⟩, hc⟩ := hd
    · refine ⟨commands ++ [d], [], by simp, ?_, .inl rfl⟩
      intro e he
      obtain he | he := List.mem_append.mp he
      · exact hserved e he
      · rwa [List.mem_singleton.mp he]
    · exact ⟨commands, [.refused bad], rfl, hserved, .inr ⟨bad, rfl, hc⟩⟩
  · cases hc

theorem dispatch_ok (run : Dispatch σ) (s : Peer σ) {command : Command} {seen : List UInt8}
    (hparse : parsed seen = (.ok (.done seen.length), command)) :
    ∃ d, (s.dispatch run command seen).did = s.did ++ [d] ∧ d.used = seen ∧ d.Framed ∧
      d.served = true ∧ (s.dispatch run command seen).conn.out = s.conn.out ++ d.reply := by
  unfold dispatch
  cases command with
  | nil => exact ⟨.skipped seen, rfl, rfl, hparse, rfl, (List.append_nil _).symm⟩
  | cons span rest =>
    exact ⟨_, rfl, rfl, ⟨span :: rest, by simp, hparse, rfl⟩, rfl, rfl⟩

theorem dispatch_desk (run : Dispatch σ) (s : Peer σ) (command : Command) (seen : List UInt8) :
    (s.dispatch run command seen).desk = s.desk.dispatch run command seen := by
  unfold dispatch Desk.dispatch
  cases command with
  | nil => rfl
  | cons span rest => rfl

theorem dispatch_conn (run : Dispatch σ) (s : Peer σ) (command : Command) (seen : List UInt8) :
    (s.dispatch run command seen).conn.buf = s.conn.buf ∧
    (s.dispatch run command seen).conn.filled = s.conn.filled ∧
    (s.dispatch run command seen).conn.at_ = s.conn.at_ ∧
    (s.dispatch run command seen).conn.sent = s.conn.sent ∧
    (s.dispatch run command seen).received = s.received ∧
    (s.dispatch run command seen).taken = s.taken ∧
    (s.dispatch run command seen).broken = s.broken := by
  unfold dispatch
  cases command <;> exact ⟨rfl, rfl, rfl, rfl, rfl, rfl, rfl⟩

/-- With room for its reply, the next command is within what may be owed. -/
theorem Exact.under (run : Dispatch σ) {s : Peer σ} (h : s.Exact) (hroom : ¬ s.conn.out.length ≥ maxReply)
    {q : Desk σ × List UInt8} (hq : Desk.next run (s.desk, s.conn.unread) = some q) :
    Desk.Under run s.conn.sent s.taken.length (s.desk, s.conn.unread) q := by
  refine .single ⟨hq, ?_⟩
  have hlength := h.answered_length.1
  change ¬ maxReply + s.taken.length ≤ (answered s.did).length + s.conn.sent
  omega

theorem settle_refused (run : Dispatch σ) {s : Peer σ} (h : s.Exact) (hopen : s.conn.closing = false)
    (hroom : ¬ s.conn.out.length ≥ maxReply) {bad : Bad} {command : Command}
    (hparse : parsed s.conn.unread = (.error bad, command)) :
    ∃ s', s.settle run s.conn.unread (.error bad, command) = .ok (true, s') ∧ Executed run s s' ∧
      s'.conn.closing = true := by
  have hends : Ends s.did false := by
    have hends := h.ends
    rwa [hopen] at hends
  refine ⟨_, rfl, ⟨⟨⟨h.sane.at_le, h.sane.filled_le, h.sane.size, ?_⟩, ?_, ?_, ?_, ?_⟩, h.under run hroom ?_, rfl, rfl,
    rfl, List.prefix_append _ _, rfl⟩, rfl⟩
  · have hsent := h.sane.sent_le
    simp only [List.length_append]
    omega
  · rw [consumed_snoc]
    simp only [Did.used, List.append_nil]
    exact h.bytes
  · rw [answered_snoc, ← h.replies, List.append_assoc]
    simp only [Conn.owed, owed_append h.sane]
    rfl
  · intro d hd
    obtain hd | hd := List.mem_append.mp hd
    · exact h.framed d hd
    · rw [List.mem_singleton.mp hd]
      trivial
  · exact hends.snoc (.inr ⟨⟨bad, rfl⟩, rfl⟩)
  · simp only [Desk.next, desk, hopen, hparse, Bool.false_eq_true, if_false]
    rfl

theorem settle_ran (run : Dispatch σ) {s : Peer σ} (h : s.Exact) (hopen : s.conn.closing = false)
    (hroom : ¬ s.conn.out.length ≥ maxReply) {used : Nat} {command : Command}
    (hparse : parsed s.conn.unread = (.ok (.done used), command)) :
    ∃ s', s.settle run s.conn.unread (.ok (.done used), command) = .ok (true, s') ∧ Executed run s s' ∧
      s'.conn.filled - s'.conn.at_ < s.conn.filled - s.conn.at_ := by
  have hends : Ends s.did false := by
    have hends := h.ends
    rwa [hopen] at hends
  obtain ⟨hpos, hle, -⟩ := parsed_done_le hparse
  have hlen := h.sane.unread_length
  have hat := h.sane.at_le
  have hseen : (s.conn.unread.take used).length = used := by
    rw [List.length_take]
    omega
  -- the command's own bytes parse alone as they do with more behind them
  have hown : parsed (s.conn.unread.take used) =
      (.ok (.done (s.conn.unread.take used).length), command) := by
    have hown := (parsed_extend hparse []).1
    rw [List.append_nil] at hown
    rw [hown, hseen]
  let s0 : Peer σ := { s with conn := { s.conn with command } }
  have hfold := dispatch_ok run s0 hown
  have hsame := dispatch_conn run s0 command (s.conn.unread.take used)
  have hdesk := dispatch_desk run s0 command (s.conn.unread.take used)
  have hsettle : s.settle run s.conn.unread (.ok (.done used), command) =
      .ok (true, { s0.dispatch run command (s.conn.unread.take used) with
        conn := { (s0.dispatch run command (s.conn.unread.take used)).conn with
          at_ := (s0.dispatch run command (s.conn.unread.take used)).conn.at_ + used } }) := by
    rw [settle, slice_ok (Nat.zero_le _) hle, ok_bind, List.drop_zero, Nat.sub_zero]
    rfl
  generalize s0.dispatch run command (s.conn.unread.take used) = s1 at hfold hsame hdesk hsettle
  obtain ⟨d, hdid, hused, hframed, hserved, hout⟩ := hfold
  obtain ⟨hbuf, hfilled, hat', hsent, hreceived, htaken, hbroken⟩ := hsame
  simp only [s0] at hdid hout hbuf hfilled hat' hsent hreceived htaken hbroken
  -- the cursor passes them and nothing else of the buffer changes
  have hunread : ({ s1.conn with at_ := s1.conn.at_ + used } : Conn).unread =
      s.conn.unread.drop used := by
    simp only [Conn.unread]
    rw [hbuf, hfilled, hat', List.drop_take, List.drop_drop, Nat.sub_sub]
  refine ⟨_, hsettle, ⟨⟨⟨?_, ?_, ?_, ?_⟩, ?_, ?_, ?_, ?_⟩, h.under run hroom ?_, hreceived, htaken, hsent, ?_,
    hbroken⟩, ?_⟩
  · simp only [hat', hfilled]
    omega
  · simp only [hbuf, hfilled]
    exact h.sane.filled_le
  · simp only [hbuf]
    exact h.sane.size
  · have hsane := h.sane.sent_le
    simp only [hsent, hout, List.length_append]
    omega
  · rw [hunread, hdid, hreceived, consumed_snoc, hused, List.append_assoc,
      List.take_append_drop]
    exact h.bytes
  · rw [Conn.owed, hdid, htaken, hout, hsent, answered_snoc, owed_append h.sane,
      ← List.append_assoc, h.replies]
  · intro e he
    rw [hdid] at he
    obtain he | he := List.mem_append.mp he
    · exact h.framed e he
    · rwa [List.mem_singleton.mp he]
  · rw [hdid]
    exact hends.snoc (.inl hserved)
  · simp only [Desk.next, hparse, desk, hopen, Bool.false_eq_true, if_false]
    rw [hunread, Option.some.injEq, Prod.mk.injEq]
    refine ⟨?_, rfl⟩
    simp only [desk, s0, hopen] at hdesk
    exact hdesk.symm
  · simp only [hout]
    exact List.prefix_append _ _
  · simp only [hfilled, hat']
    omega

/-- One pass of the loop, on an open connection: the parse says what is done
and whether the loop goes on. -/
theorem settle_ok (run : Dispatch σ) {s : Peer σ} (h : s.Exact) (hopen : s.conn.closing = false)
    (hroom : ¬ s.conn.out.length ≥ maxReply) :
    ∃ on s', s.settle run s.conn.unread (parsed s.conn.unread) = .ok (on, s') ∧
      Executed run s s' ∧
      (on = false → ∃ cmd, parsed s'.conn.unread = (.ok .more, cmd)) ∧
      (on = true → s'.conn.closing = true ∨
        s'.conn.filled - s'.conn.at_ < s.conn.filled - s.conn.at_) := by
  cases hparse : parsed s.conn.unread with
  | mk result command =>
    cases result with
    | error bad =>
      obtain ⟨s', hsettle, hexecuted, hclosing⟩ := settle_refused run h hopen hroom hparse
      exact ⟨true, s', hsettle, hexecuted, by simp, fun _ => .inl hclosing⟩
    | ok found =>
      cases found with
      | more =>
        exact ⟨false, _, rfl, ⟨⟨⟨h.sane.at_le, h.sane.filled_le, h.sane.size, h.sane.sent_le⟩, h.bytes,
          h.replies, h.framed, h.ends⟩, .refl, rfl, rfl, rfl, List.prefix_rfl, rfl⟩,
          fun _ => ⟨command, hparse⟩, by simp⟩
      | done used =>
        obtain ⟨s', hsettle, hexecuted, hless⟩ := settle_ran run h hopen hroom hparse
        exact ⟨true, s', hsettle, hexecuted, by simp, fun _ => .inr hless⟩

/-- Why the loop of `execute` was left. -/
def Stopped (s : Peer σ) : Prop :=
  s.conn.closing = true ∨ maxReply ≤ s.conn.out.length ∨
    ∃ cmd, parsed s.conn.unread = (.ok .more, cmd)

theorem executeLoop_ok (run : Dispatch σ) {fuel : Nat} {s : Peer σ} (h : s.Exact)
    (hfuel : s.conn.filled - s.conn.at_ + 2 ≤ fuel ∨ s.conn.closing = true ∧ 1 ≤ fuel) :
    ∃ s', executeLoop run fuel s = .ok s' ∧ Executed run s s' ∧ Stopped s' := by
  induction fuel generalizing s with
  | zero => omega
  | succ fuel ih =>
    rw [executeLoop]
    by_cases hstop : s.conn.closing = true ∨ s.conn.out.length ≥ maxReply
    · rw [if_pos hstop]
      obtain hc | hm := hstop
      · exact ⟨s, rfl, .refl h, .inl hc⟩
      · exact ⟨s, rfl, .refl h, .inr (.inl hm)⟩
    · have hopen : s.conn.closing = false := by
        simpa using fun hc => hstop (.inl hc)
      rw [if_neg hstop, h.sane.slice_unread, ok_bind, parse_ok, ok_bind]
      obtain ⟨on, s1, hs1, hex, hoff, hon⟩ := settle_ok run h hopen fun hm => hstop (.inr hm)
      rw [hs1, ok_bind]
      cases on with
      | false => exact ⟨s1, rfl, hex, .inr (.inr (hoff rfl))⟩
      | true =>
        -- each command that is settled uses bytes up, or closes
        have hfuel1 : s1.conn.filled - s1.conn.at_ + 2 ≤ fuel ∨ s1.conn.closing = true ∧ 1 ≤ fuel := by
          obtain hc | hlt := hon rfl
          · right
            refine ⟨hc, ?_⟩
            obtain hf | ⟨hc', -⟩ := hfuel
            · omega
            · rw [hopen] at hc'
              cases hc'
          · left
            obtain hf | ⟨hc', -⟩ := hfuel
            · omega
            · rw [hopen] at hc'
              cases hc'
        obtain ⟨s2, hs2, hex2, hst2⟩ := ih hex.exact hfuel1
        exact ⟨s2, hs2, hex.trans hex2, hst2⟩

/-- `execute` runs every whole command, up to the reply ceiling, and stops. -/
theorem execute_ok (run : Dispatch σ) {s : Peer σ} (h : s.Exact) :
    ∃ s', s.execute run = .ok s' ∧ Executed run s s' ∧ Stopped s' := by
  obtain ⟨s1, hs1, hex, hst⟩ := executeLoop_ok run h (.inl (Nat.le_refl _))
  obtain ⟨hsane, hsame⟩ := Conn.rewind_ok hex.exact.sane
  have hrewound := Filled.of_room hex.exact hsane hsame
  refine ⟨{ s1 with conn := s1.conn.rewind }, by rw [execute, hs1]; rfl, ⟨hrewound.exact, ?_,
    hex.received, hex.taken, hsame.sent.trans hex.sent, ?_, hex.broken⟩, ?_⟩
  · rw [hrewound.work.desk, hsame.unread]
    exact hex.under
  · rw [hsame.out]
    exact hex.out
  · unfold Stopped at *
    rw [hsame.closing, hsame.out, hsame.unread]
    exact hst

/-! ## A turn -/

/-- What the flush before the read leaves, and what is not done without it. -/
def early (s : Peer σ) (writable : Bool) (io : Io) : Peer σ :=
  if writable then (s.flush io.early).2 else s

/-- The socket fails before the read. -/
def breaks (s : Peer σ) (writable : Bool) (io : Io) : Bool :=
  writable && io.early.fails s.conn.owed.length

/-- How much is still owed when the read comes. -/
def kept (s : Peer σ) (writable : Bool) (io : Io) : Nat :=
  if writable then s.conn.owed.length - io.early.given s.conn.owed.length else s.conn.owed.length

/-- How much the reply buffer holds when the read comes. -/
def held (s : Peer σ) (writable : Bool) (io : Io) : Nat :=
  if writable then s.conn.held (io.early.given s.conn.owed.length) else s.conn.out.length

/-- What the flush before the read does. -/
structure Early (s s' : Peer σ) (writable : Bool) (io : Io) : Prop where
  flushed : ∃ n, Flushed s s' n
  broken : s'.broken = (s.broken || s.breaks writable io)
  kept : s'.conn.owed.length = s.kept writable io
  held : s.breaks writable io = false → s'.conn.out.length = s.held writable io

/-- A turn is over if the first flush fails, and goes on from what it leaves. -/
theorem turn_early (run : Dispatch σ) {s : Peer σ} (h : s.Exact) (readable writable : Bool) (io : Io) :
    Early s (s.early writable io) writable io ∧
    s.turn run readable writable io =
      if s.breaks writable io then .ok (.close, s.early writable io)
      else (s.early writable io).turnOn run readable io := by
  cases writable with
  | false => exact ⟨⟨⟨0, Flushed.refl h⟩, by simp [early, breaks], rfl, fun _ => rfl⟩, rfl⟩
  | true =>
    obtain ⟨good, s1, hflush, ⟨hflushed, hgood, hbroken⟩, hheld⟩ := flush_ok h io.early
    have hearly : s.early true io = s1 := by simp [early, hflush]
    have hbreaks : s.breaks true io = !good := by simp [breaks, hgood]
    rw [hearly, hbreaks]
    refine ⟨⟨⟨_, hflushed⟩, ?_, ?_, ?_⟩, ?_⟩
    · rw [hbroken, hbreaks, hgood, Bool.not_not]
    · rw [hflushed.owed, List.length_drop]
      rfl
    · intro hb
      refine hheld ?_
      rw [hbreaks] at hb
      simpa using hb
    · rw [turn, if_pos rfl, hflush]
      cases good <;> rfl

/-- The second half of a turn: nobody there, or one more round. -/
theorem serve_cases (run : Dispatch σ) {s : Peer σ} (h : s.Exact) (io : Io) :
    (∃ s', s.serve run io = .ok (.close, s') ∧ Filled s s' [] ∧
      (maxRequest - spare < s.conn.unread.length ∨ (io.reads.hungUp || io.reads.fails) = true) ∧
      s'.broken = (s.broken ||
        Decidable.decide (s.conn.unread.length ≤ maxRequest - spare) && io.reads.fails)) ∨
    ∃ s1 s2 s3 good, Filled s s1 (io.reads.data s.conn.room) ∧
      ¬ (maxRequest - spare < s.conn.unread.length ∨ (io.reads.hungUp || io.reads.fails) = true) ∧
      s1.broken = s.broken ∧ Executed run s1 s2 ∧ Stopped s2 ∧ Wrote s2 s3 io.late good ∧
      s.serve run io = .ok (if good then verdict s3.conn else .close, s3) := by
  obtain ⟨there, s1, hfill, hfilled, hends, hbroken⟩ := fill_ok h io.reads
  cases there with
  | false =>
    left
    exact ⟨s1, by rw [serve, hfill]; rfl, hfilled, hends.mp rfl, hbroken⟩
  | true =>
    right
    have hnot : ¬ _ := fun hc => by simpa using hends.mpr hc
    obtain ⟨s2, hs2, hex, hstop⟩ := execute_ok run hfilled.exact
    obtain ⟨good, s3, hs3, hwrote, -⟩ := flush_ok hex.exact io.late
    refine ⟨s1, s2, s3, good, hfilled, hnot, ?_, hex, hstop, hwrote, ?_⟩
    · rw [hbroken]
      have hfails : io.reads.fails = false := by
        cases hf : io.reads.fails with
        | false => rfl
        | true => exact absurd (.inr (by simp [hf])) hnot
      simp [hfails]
    · rw [serve, hfill, ok_bind]
      simp only [Bool.not_true, Bool.false_eq_true, if_false]
      rw [hs2, ok_bind, hs3]
      cases good <;> rfl

end Peer
end Rugo
