import Rugo.Lib.Exec
import Rugo.Resp

/- One client's two buffers and the cycle between them
   (`rugo-server/src/conn.rs`), under both loops: `turn` for the readiness loop,
   `step`, `arrived` and `written` for the completion loop.

   What a command does is a parameter, `Dispatch`: any function from what it runs
   against, its arguments and the dialect to a reply. What the socket answers is
   a parameter too: `Reads` and `Writes` are the answers of one `fill` and of one
   `flush`, any number of interruptions included. `Peer` holds the connection,
   what its commands run against, and a history that no definition reads: what the
   socket gave, what was done with it, what the socket took, whether it failed.

   The look-ahead (`ask_ahead`) only hints at cache lines and is left out. -/
namespace Rugo
open Exec Resp

/-- How much room a read is given, and how large the read buffer starts. -/
def chunk : Nat := 16 * 1024

/-- How much unparsed room has to be free before a read. -/
def spare : Nat := 4 * 1024

/-- The largest a single request may grow the read buffer. -/
def maxRequest : Nat := 16 * 1024 * 1024

/-- How much reply may pile up before the connection stops executing and drains. -/
def maxReply : Nat := 1024 * 1024

/-- What a socket is watched for. -/
structure Interest where
  read : Bool
  write : Bool
  deriving DecidableEq, Repr

def Interest.READ : Interest := ⟨true, false⟩

/-- What a turn on a connection decided. -/
inductive Turn where
  | read
  | write
  | close
  deriving DecidableEq, Repr

/-- What a connection wants done for it next, when a ring is doing it: a range of
its read buffer filled, or one of its reply buffer written. -/
inductive Step where
  | recv (at_ len : Nat)
  | send (at_ len : Nat)
  | close
  deriving DecidableEq, Repr

structure Ran (σ : Type) where
  env : σ
  reply : List UInt8
  dialect : Dialect
  /-- `Reply::Last`. -/
  last : Bool

/-- `dispatch::run`: any function that appends a reply. -/
abbrev Dispatch (σ : Type) := σ → List (List UInt8) → Dialect → Ran σ

/-- What became of some bytes of the read buffer. -/
inductive Did where
  /-- A command, the bytes it took, and its reply. -/
  | ran (used : List UInt8) (args : List (List UInt8)) (reply : List UInt8)
  /-- A command without arguments, and the bytes it took. -/
  | skipped (used : List UInt8)
  /-- A framing error. -/
  | refused (bad : Bad)

structure Conn where
  /-- The read buffer, whose length is its size rather than what is in it. -/
  buf : List UInt8
  /-- How much of `buf` holds bytes that arrived. -/
  filled : Nat
  /-- How much of `buf` has been parsed and executed. -/
  at_ : Nat
  /-- Replies waiting to go out. -/
  out : List UInt8
  /-- How much of `out` the socket has taken. -/
  sent : Nat
  dialect : Dialect
  command : Command
  closing : Bool
  /-- What the poller was last told to watch this socket for. -/
  armed : Interest

/-- A connection, what its commands run against, and its history. -/
structure Peer (σ : Type) where
  conn : Conn
  env : σ
  /-- What the socket gave. -/
  received : List UInt8
  /-- What was done with it. -/
  did : List Did
  /-- What the socket took. -/
  taken : List UInt8
  /-- Whether a read or a write failed. -/
  broken : Bool

/-- The answers of a socket to one `fill`. -/
inductive Reads where
  /-- These bytes, as far as there is room for them. -/
  | took (first : UInt8) (more : List UInt8)
  /-- The peer has shut down its writing half. -/
  | eof
  | interrupted (next : Reads)
  | wouldBlock
  | failed

/-- The answers of a socket to one `flush`. -/
inductive Writes where
  /-- `more + 1` bytes were taken, or all that were offered if they were fewer. -/
  | took (more : Nat) (next : Writes)
  | zero
  | interrupted (next : Writes)
  | wouldBlock
  | failed

/-- The answers of a socket to one turn. -/
structure Io where
  /-- To the flush before the read, where there is one. -/
  early : Writes
  reads : Reads
  /-- To the flush after it. -/
  late : Writes

namespace Conn

def new : Conn where
  buf := List.replicate chunk 0
  filled := 0
  at_ := 0
  out := []
  sent := 0
  dialect := .resp2
  command := []
  closing := false
  armed := .READ

/-- Whether there is a reply the socket has not taken yet. -/
def owes (c : Conn) : Bool := decide (c.sent < c.out.length)

/-- The bytes that have arrived and have not been executed. -/
def unread (c : Conn) : List UInt8 := (c.buf.drop c.at_).take (c.filled - c.at_)

/-- The bytes the socket has not taken. -/
def owed (c : Conn) : List UInt8 := c.out.drop c.sent

/-- The unexecuted bytes moved to the front of the buffer. -/
def compact (c : Conn) : Exec Conn :=
  if c.at_ > 0 then do
    let live ← slice c.buf c.at_ c.filled
    let buf ← splice c.buf 0 live
    let filled ← minus c.filled c.at_
    pure { c with buf, filled, at_ := 0 }
  else pure c

/-- The buffer doubled, if that is not more than a request may have. -/
def double (c : Conn) : Bool × Conn :=
  let wanted := c.buf.length * 2
  if wanted > maxRequest then (false, c)
  else (true, { c with buf := c.buf ++ List.replicate (wanted - c.buf.length) 0 })

/-- Make sure there is somewhere to read into, reporting whether there is. -/
def makeRoom (c : Conn) : Exec (Bool × Conn) := do
  let free ← minus c.buf.length c.filled
  if free ≥ spare then pure (true, c)
  else do
    let c ← c.compact
    let free ← minus c.buf.length c.filled
    if free < spare then pure c.double else pure (true, c)

def written (c : Conn) (bytes : Nat) : Conn := { c with sent := min c.out.length (c.sent + bytes) }

/-- Record that `bytes` arrived where the last read was told to put them. -/
def arrived (c : Conn) (bytes : Nat) : Conn := { c with filled := min c.buf.length (c.filled + bytes) }

/-- The reply buffer as `flush` leaves it: emptied when all of it went out,
compacted when much of it did. -/
def tidy (c : Conn) : Conn :=
  if c.sent = c.out.length then { c with out := [], sent := 0 }
  else if c.sent > maxReply then { c with out := c.out.drop c.sent, sent := 0 }
  else c

/-- Both cursors at the front, where nothing is left between them. -/
def rewind (c : Conn) : Conn :=
  if c.at_ = c.filled then { c with at_ := 0, filled := 0 } else c

end Conn

namespace Peer
variable {σ : Type}

/-! ## The socket -/

def landed (s : Peer σ) (at_ : Nat) (data : List UInt8) : Exec (Peer σ) := do
  let buf ← splice s.conn.buf at_ data
  pure { s with conn := { s.conn with buf }, received := s.received ++ data }

/-- The loop of `fill`: whether the peer is still there. A socket that failed
reads as one that is not. -/
def read (s : Peer σ) : Reads → Exec (Bool × Peer σ)
  | .took first more => do
    let room ← slice s.conn.buf s.conn.filled s.conn.buf.length
    let data := (first :: more).take room.length
    if data.isEmpty then pure (false, s)
    else do
      let s ← s.landed s.conn.filled data
      pure (true, { s with conn := { s.conn with filled := s.conn.filled + data.length } })
  | .eof => pure (false, s)
  | .interrupted next => s.read next
  | .wouldBlock => pure (true, s)
  | .failed => pure (false, { s with broken := true })

def fill (s : Peer σ) (reads : Reads) : Exec (Bool × Peer σ) := do
  let (room, conn) ← s.conn.makeRoom
  if !room then pure (false, { s with conn })
  else Peer.read { s with conn } reads

/-- `bytes` of the reply buffer from `at_` on handed to the socket. -/
def left (s : Peer σ) (at_ bytes : Nat) : Peer σ :=
  { s with taken := s.taken ++ (s.conn.out.drop at_).take bytes }

/-- The socket took `bytes` of what is owed. -/
def gave (s : Peer σ) (bytes : Nat) : Peer σ :=
  let s := s.left s.conn.sent bytes
  { s with conn := { s.conn with sent := s.conn.sent + bytes } }

/-- The loop of `flush`: whether the socket is still good. -/
def write (s : Peer σ) : Writes → Bool × Peer σ
  | .took more next =>
    if s.conn.owes then (s.gave (min (more + 1) s.conn.owed.length)).write next else (true, s)
  | .zero => if s.conn.owes then (false, { s with broken := true }) else (true, s)
  | .interrupted next => if s.conn.owes then s.write next else (true, s)
  | .wouldBlock => (true, s)
  | .failed => if s.conn.owes then (false, { s with broken := true }) else (true, s)

def flush (s : Peer σ) (writes : Writes) : Bool × Peer σ :=
  let (good, s) := s.write writes
  if !good then (false, s) else (true, { s with conn := s.conn.tidy })

/-! ## The commands -/

/-- One command run, or a whole command without arguments passed over. -/
def dispatch (run : Dispatch σ) (s : Peer σ) (command : Command) (seen : List UInt8) : Peer σ :=
  if command.isEmpty then { s with did := s.did ++ [.skipped seen] }
  else
    let ran := run s.env (command.args seen) s.conn.dialect
    { s with
      conn := { s.conn with
        out := s.conn.out ++ ran.reply
        dialect := ran.dialect
        closing := s.conn.closing || ran.last }
      env := ran.env
      did := s.did ++ [.ran seen (command.args seen) ran.reply] }

/-- What an error is answered with. -/
def complaint (bad : Bad) : List UInt8 := Encoder.error (ascii "ERR " ++ bad.message)

/-- What `execute` does with one parse, and whether its loop goes on. -/
def settle (run : Dispatch σ) (s : Peer σ) (rest : List UInt8) : Outcome → Exec (Bool × Peer σ)
  | (.ok (.done used), command) => do
    let seen ← slice rest 0 used
    let s := { s with conn := { s.conn with command } }.dispatch run command seen
    pure (true, { s with conn := { s.conn with at_ := s.conn.at_ + used } })
  | (.ok .more, command) => pure (false, { s with conn := { s.conn with command } })
  | (.error bad, command) =>
    pure (true, { s with
      conn := { s.conn with command, out := s.conn.out ++ complaint bad, closing := true }
      did := s.did ++ [.refused bad] })

def executeLoop (run : Dispatch σ) : Nat → Peer σ → Exec (Peer σ)
  | 0, _ => .error .spin
  | fuel + 1, s =>
    if s.conn.closing ∨ s.conn.out.length ≥ maxReply then pure s
    else do
      let rest ← slice s.conn.buf s.conn.at_ s.conn.filled
      let outcome ← parse rest
      let (on, s) ← s.settle run rest outcome
      if on then executeLoop run fuel s else pure s

/-- Run every whole command in the read buffer. Each takes a byte or more, so
the loop is left within as many passes as there are bytes, and two. -/
def execute (run : Dispatch σ) (s : Peer σ) : Exec (Peer σ) := do
  let s ← executeLoop run (s.conn.filled - s.conn.at_ + 2) s
  pure { s with conn := s.conn.rewind }

/-! ## The readiness loop -/

/-- What a turn comes to, once it has read and written what it could. -/
def verdict (c : Conn) : Turn :=
  if c.sent < c.out.length then .write
  else if c.closing then .close
  else .read

/-- The second half of a turn that was told to read. -/
def serve (run : Dispatch σ) (s : Peer σ) (io : Io) : Exec (Turn × Peer σ) := do
  let (there, s) ← s.fill io.reads
  if !there then pure (.close, s)
  else do
    let s ← s.execute run
    let (good, s) := s.flush io.late
    if !good then pure (.close, s) else pure (verdict s.conn, s)

def turnOn (run : Dispatch σ) (s : Peer σ) (readable : Bool) (io : Io) : Exec (Turn × Peer σ) :=
  if readable then s.serve run io else pure (verdict s.conn, s)

/-- Read what is there, answer it, and write what fits. -/
def turn (run : Dispatch σ) (s : Peer σ) (readable writable : Bool) (io : Io) :
    Exec (Turn × Peer σ) :=
  if writable then
    let (good, s) := s.flush io.early
    if !good then pure (.close, s) else s.turnOn run readable io
  else s.turnOn run readable io

/-! ## The completion loop -/

def emptied (s : Peer σ) : Peer σ := { s with conn := { s.conn with out := [], sent := 0 } }

/-- A read asked for, if there is somewhere to put it. -/
def ask (s : Peer σ) : Exec (Step × Peer σ) := do
  let (room, conn) ← s.conn.makeRoom
  if room then do
    let len ← minus conn.buf.length conn.filled
    pure (.recv conn.filled len, { s with conn })
  else pure (.close, { s with conn })

def stepLoop (run : Dispatch σ) : Nat → Peer σ → Exec (Step × Peer σ)
  | 0, _ => .error .spin
  | passes + 1, s =>
    if s.conn.owes then pure (.send s.conn.sent (s.conn.out.length - s.conn.sent), s)
    else
      let s := s.emptied
      if s.conn.closing then pure (.close, s)
      else if s.conn.at_ < s.conn.filled then do
        let s ← s.execute run
        if !s.conn.out.isEmpty then stepLoop run passes s
        else if s.conn.closing then pure (.close, s)
        else s.ask
      else s.ask

end Peer
end Rugo
