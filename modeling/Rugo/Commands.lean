import Rugo.Lib.Prog
import Rugo.Map

/- What each command does (`rugo-server/src/dispatch.rs`). A command is a program
   whose calls are the map's operations, each of them one critical section of a
   shard, or a read of the clock; what it comes to is the bytes it appends to the
   reply buffer. Between two calls of one command other connections may make theirs.

   The counters a command bumps are read by `INFO` alone, which takes them, with the
   rest of what it prints, from `Env`. -/
namespace Rugo.Commands
open Progs Resp

/-- What `INFO` prints and the map does not know, and the standard library's part. -/
structure Env where
  version : List UInt8
  os : List UInt8
  archBits : Nat
  processId : Nat
  port : Nat
  uptime : Nat
  threads : Nat
  connections : Nat
  commands : Nat
  hits : Nat
  misses : Nat
  charged : Nat
  resident : Nat
  live : Nat
  index : Nat
  maxmemory : Nat
  /-- `String::from_utf8_lossy`, and then `to_lowercase`. -/
  lower : List UInt8 → List UInt8
  /-- `String::from_utf8_lossy`, and then `escape_debug`. -/
  escape : List UInt8 → List UInt8

/-- A program on the map. -/
abbrev Work (α : Type) := Prog Map.Op.Answer α

/-- What a command came to: what it appends, the dialect it leaves, and whether it is
the last. -/
structure Ran where
  reply : List UInt8
  dialect : Dialect
  last : Bool

/-- The longest command name this server has, rounded up. -/
def maxName : Nat := 24

def redisVersion : List UInt8 := ascii "7.4.0"

/-! ## Calls -/

namespace Call

abbrev get (key : List UInt8) : Work (Option (List UInt8)) := Prog.ask (Map.Op.key key .get)
abbrev contains (key : List UInt8) : Work Bool := Prog.ask (Map.Op.key key .contains)
abbrev remove (key : List UInt8) : Work Bool := Prog.ask (Map.Op.key key .remove)
abbrev deadline (key : List UInt8) : Work (Option (Option UInt32)) := Prog.ask (Map.Op.key key .deadline)
abbrev set (key value : List UInt8) : Work (Except Full Wrote) := Prog.ask (Map.Op.key key (.set value none none))
abbrev setWhen (key value : List UInt8) (when_ : When) (expiry : Expiry) : Work (Except Full (Option Wrote)) :=
  Prog.ask (Map.Op.key key (.setWhen value when_ expiry none))
abbrev expire (key : List UInt8) (expiry : Option UInt32) : Work (Except Full Bool) :=
  Prog.ask (Map.Op.key key (.expire expiry))
abbrev increment (key : List UInt8) (by_ : Int) : Work (Except Uncounted Int) :=
  Prog.ask (Map.Op.key key (.increment by_))
abbrev len : Work Nat := Prog.ask Map.Op.len
abbrev clear : Work Unit := Prog.ask Map.Op.clear
abbrev now : Work UInt32 := Prog.ask Map.Op.now

end Call

/-! ## Arguments -/

/-- Argument `n`, empty for one that is not there. -/
def arg (args : List (List UInt8)) (n : Nat) : List UInt8 := (args[n]?).getD []

/-- `u8::to_ascii_uppercase`. -/
def upper (byte : UInt8) : UInt8 := if 97 ≤ byte.toNat ∧ byte.toNat ≤ 122 then byte - 32 else byte

/-- `eq_ignore_ascii_case`, against a word in upper case. -/
def isWord (word : String) (text : List UInt8) : Bool := text.map upper == ascii word

/-- Check the argument count: whether it is right, and the error if it is wrong. -/
def arity (args : List (List UInt8)) (want : Nat) (name : String) : Bool × List UInt8 :=
  if args.length = want then (true, [])
  else (false, Encoder.error (ascii "ERR wrong number of arguments for '" ++ ascii name ++ ascii "' command"))

/-- The digits of a number that may not leave the range. -/
def parseFrom (negative : Bool) : List UInt8 → Int → Option Int
  | [], value => some value
  | byte :: rest, value =>
    if !isDigit byte then none
    else
      let digit : Int := byte.toNat - 48
      match (Signed.checkedMul value 10).bind fun value =>
          if negative then Signed.checkedSub value digit else Signed.checkedAdd value digit with
      | some value => parseFrom negative rest value
      | none => none

/-- Read an integer argument, as `str::parse` reads one. -/
def integerOf (text : List UInt8) : Option Int :=
  let (negative, digits) := signed text
  if digits.isEmpty then none else parseFrom negative digits 0

/-- Read an integer argument, with the error if it is not one. -/
def integer (text : List UInt8) : Option Int × List UInt8 :=
  match integerOf text with
  | some value => (some value, [])
  | none => (none, Encoder.error (ascii "ERR value is not an integer or out of range"))

/-- The one reply that is the server's fault. -/
def oom : List UInt8 := Encoder.error (ascii "OOM command not allowed when used memory > 'maxmemory'")

def unknown (env : Env) (name : List UInt8) : List UInt8 :=
  Encoder.error (ascii "ERR unknown command '" ++ env.escape name ++ ascii "'")

def okay : List UInt8 := Encoder.simple (ascii "OK")

/-- A value, or the absence of one. -/
def bulkOr (dialect : Dialect) : Option (List UInt8) → List UInt8
  | some value => Encoder.bulk value
  | none => Encoder.null dialect

def flag (b : Bool) : List UInt8 := Encoder.integer (if b then 1 else 0)

/-! ## When an expiry lands -/

/-- Which unit an expiry option is in, and whether it names a moment. -/
def unit (option : List UInt8) : Option (Int × Bool) :=
  if isWord "EX" option then some (1, false)
  else if isWord "PX" option then some (1000, false)
  else if isWord "EXAT" option then some (1, true)
  else if isWord "PXAT" option then some (1000, true)
  else none

/-- The second an expiry lands on. The sum is the machine's. -/
def moment (now : UInt32) (value scale : Int) (absolute : Bool) : Int :=
  let secs := value / scale + if value % scale ≠ 0 then 1 else 0
  if absolute then secs else Signed.wrap (now.toNat + secs)

def stamp (at_ : Int) : UInt32 :=
  if (max at_ 0).toNat < 2 ^ 32 then UInt32.ofNat (max at_ 0).toNat else u32Max

/-! ## Strings -/

section strings
variable (dialect : Dialect) (args : List (List UInt8))

def get : Work (List UInt8) :=
  if !(arity args 2 "get").1 then pure (arity args 2 "get").2
  else do
    let value ← Call.get (arg args 1)
    pure (bulkOr dialect value)

def values : List (List UInt8) → Work (List UInt8)
  | [] => pure []
  | key :: keys => do
    let value ← Call.get key
    let rest ← values keys
    pure (bulkOr dialect value ++ rest)

def mget : Work (List UInt8) :=
  if args.length < 2 then pure (arity args 2 "mget").2
  else do
    let rest ← values dialect (args.drop 1)
    pure (Encoder.array (args.length - 1) ++ rest)

def pairs : List (List UInt8) → Work (List UInt8)
  | key :: value :: rest => do
    let wrote ← Call.set key value
    match wrote with
    | .error _ => pure oom
    | .ok _ => pairs rest
  | _ => pure okay

def mset : Work (List UInt8) :=
  if args.length < 3 ∨ args.length % 2 = 0 then pure (arity args 3 "mset").2
  else pairs (args.drop 1)

/-- `INCR` and its neighbours. -/
def count (key : List UInt8) (by_ : Int) : Work (List UInt8) := do
  let counted ← Call.increment key by_
  match counted with
  | .ok value => pure (Encoder.integer value)
  | .error .notANumber => pure (Encoder.error (ascii "ERR value is not an integer or out of range"))
  | .error .outOfRange => pure (Encoder.error (ascii "ERR increment or decrement would overflow"))
  | .error .full => pure oom

def incr (word : String) (by_ : Int) : Work (List UInt8) :=
  if !(arity args 2 word).1 then pure (arity args 2 word).2 else count (arg args 1) by_

def incrBy (word : String) (negated : Bool) : Work (List UInt8) :=
  if !(arity args 3 word).1 then pure (arity args 3 word).2
  else match integer (arg args 2) with
    | (none, wrong) => pure wrong
    | (some value, _) =>
      match if negated then Signed.checkedNeg value else some value with
      | none => pure (Encoder.error (ascii "ERR decrement would overflow"))
      | some by_ => count (arg args 1) by_

def strlen : Work (List UInt8) :=
  if !(arity args 2 "strlen").1 then pure (arity args 2 "strlen").2
  else do
    let value ← Call.get (arg args 1)
    pure (Encoder.integer (Signed.clamp ((value.map List.length).getD 0)))

/-- What the options of a `SET` have come to. -/
structure Options where
  when_ : When
  expiry : Expiry

/-- The options of a `SET`, from argument `n` on: what they come to, or the error. -/
def options (now : UInt32) (args : List (List UInt8)) (n : Nat) (opts : Options) : Except (List UInt8) Options :=
  if n < args.length then
    if isWord "NX" (arg args n) then options now args (n + 1) { opts with when_ := .absent }
    else if isWord "XX" (arg args n) then options now args (n + 1) { opts with when_ := .present }
    else if isWord "KEEPTTL" (arg args n) then options now args (n + 1) { opts with expiry := .keep }
    else match unit (arg args n) with
      | none => .error (Encoder.error (ascii "ERR syntax error"))
      | some (scale, absolute) =>
        match (args[n + 1]?).bind integerOf with
        | none => .error (Encoder.error (ascii "ERR syntax error"))
        | some value =>
          if absolute ∨ value > 0 then
            options now args (n + 2) { opts with expiry := .at_ (stamp (moment now value scale absolute)) }
          else .error (Encoder.error (ascii "ERR invalid expire time in 'set' command"))
  else .ok opts
termination_by args.length - n

/-- `SET`, with the options it may carry. -/
def set : Work (List UInt8) :=
  if args.length < 3 then pure (arity args 3 "set").2
  else if args.length = 3 then do
    let wrote ← Call.set (arg args 1) (arg args 2)
    match wrote with
    | .ok _ => pure okay
    | .error _ => pure oom
  else do
    let now ← Call.now
    match options now args 3 ⟨.always, .never⟩ with
    | .error wrong => pure wrong
    | .ok opts => do
      let wrote ← Call.setWhen (arg args 1) (arg args 2) opts.when_ opts.expiry
      match wrote with
      | .ok none => pure (Encoder.null dialect)
      | .ok (some _) => pure okay
      | .error _ => pure oom

def timedSet (millis : Bool) : Work (List UInt8) :=
  let word := if millis then "psetex" else "setex"
  if !(arity args 4 word).1 then pure (arity args 4 word).2
  else match integer (arg args 2) with
    | (none, wrong) => pure wrong
    | (some value, _) =>
      if value ≤ 0 then
        pure (Encoder.error (ascii "ERR invalid expire time in '" ++ ascii word ++ ascii "' command"))
      else do
        let now ← Call.now
        let expiry := Expiry.at_ (stamp (moment now value (if millis then 1000 else 1) false))
        let wrote ← Call.setWhen (arg args 1) (arg args 3) .always expiry
        match wrote with
        | .ok _ => pure okay
        | .error _ => pure oom

/-- `GET`, `SET` and the counters. -/
def strings (name : List UInt8) : Option (Work (List UInt8)) :=
  if name = ascii "GET" then some (get dialect args)
  else if name = ascii "SET" then some (set dialect args)
  else if name = ascii "SETEX" ∨ name = ascii "PSETEX" then some (timedSet args (name = ascii "PSETEX"))
  else if name = ascii "MGET" then some (mget dialect args)
  else if name = ascii "MSET" then some (mset args)
  else if name = ascii "INCR" then some (incr args "incr" 1)
  else if name = ascii "DECR" then some (incr args "decr" (-1))
  else if name = ascii "INCRBY" then some (incrBy args "incrby" false)
  else if name = ascii "DECRBY" then some (incrBy args "decrby" true)
  else if name = ascii "STRLEN" then some (strlen args)
  else none

end strings

/-! ## Keys -/

section keyspace
variable (args : List (List UInt8))

/-- How many of these keys a call on each says yes to. -/
def tally (ask : List UInt8 → Work Bool) : List (List UInt8) → Work Nat
  | [] => pure 0
  | key :: keys => do
    let yes ← ask key
    let rest ← tally ask keys
    pure ((if yes then 1 else 0) + rest)

def del : Work (List UInt8) :=
  if args.length < 2 then pure (arity args 2 "del").2
  else do
    let went ← tally Call.remove (args.drop 1)
    pure (Encoder.integer (Signed.clamp went))

def exists_ : Work (List UInt8) :=
  if args.length < 2 then pure (arity args 2 "exists").2
  else do
    let there ← tally Call.contains (args.drop 1)
    pure (Encoder.integer (Signed.clamp there))

/-- The four expiry commands. -/
def expire (key : List UInt8) (value : Int) (millis absolute : Bool) : Work (List UInt8) := do
  let now ← Call.now
  let at_ := moment now value (if millis then 1000 else 1) absolute
  if at_ ≤ now.toNat then do
    let there ← Call.remove key
    pure (flag there)
  else do
    let changed ← Call.expire key (some (stamp at_))
    match changed with
    | .ok changed => pure (flag changed)
    | .error _ => pure oom

def expireBy (word : String) (millis absolute : Bool) : Work (List UInt8) :=
  if !(arity args 3 word).1 then pure (arity args 3 word).2
  else match integer (arg args 2) with
    | (none, wrong) => pure wrong
    | (some value, _) => expire (arg args 1) value millis absolute

def ttl (word : String) (millis : Bool) : Work (List UInt8) :=
  if !(arity args 2 word).1 then pure (arity args 2 word).2
  else do
    let now ← Call.now
    let when_ ← Call.deadline (arg args 1)
    match when_ with
    | none => pure (Encoder.integer (-2))
    | some none => pure (Encoder.integer (-1))
    | some (some when_) =>
      let left : Int := ((when_.toNat - now.toNat : Nat) : Int)
      pure (Encoder.integer (if millis then left * 1000 else left))

/-- `PERSIST`'s second call, which clears the expiry, and what it answers where the
first `had` found one. -/
def cleared (key : List UInt8) (had : Bool) : Work (List UInt8) := do
  let changed ← Call.expire key none
  match changed with
  | .ok _ => pure (flag had)
  | .error _ => pure oom

def persist : Work (List UInt8) :=
  if !(arity args 2 "persist").1 then pure (arity args 2 "persist").2
  else do
    let when_ ← Call.deadline (arg args 1)
    cleared (arg args 1) when_.join.isSome

def dbsize : Work (List UInt8) := do
  let len ← Call.len
  pure (Encoder.integer (Signed.clamp len))

def flushall : Work (List UInt8) := do
  let _ ← Call.clear
  pure okay

/-- The commands that are about keys rather than values. -/
def keyspace (name : List UInt8) : Option (Work (List UInt8)) :=
  if name = ascii "DEL" ∨ name = ascii "UNLINK" then some (del args)
  else if name = ascii "EXISTS" then some (exists_ args)
  else if name = ascii "EXPIRE" then some (expireBy args "expire" false false)
  else if name = ascii "PEXPIRE" then some (expireBy args "pexpire" true false)
  else if name = ascii "EXPIREAT" then some (expireBy args "expireat" false true)
  else if name = ascii "PEXPIREAT" then some (expireBy args "pexpireat" true true)
  else if name = ascii "TTL" then some (ttl args "ttl" false)
  else if name = ascii "PTTL" then some (ttl args "pttl" true)
  else if name = ascii "PERSIST" then some (persist args)
  else if name = ascii "DBSIZE" then some dbsize
  else if name = ascii "FLUSHALL" ∨ name = ascii "FLUSHDB" then some flushall
  else none

end keyspace

/-! ## The connection -/

section connection
variable (env : Env) (dialect : Dialect) (args : List (List UInt8))

/-- The greeting, which is a map in both dialects. -/
def hello : List UInt8 :=
  Encoder.map dialect 7 ++
  Encoder.bulk (ascii "server") ++ Encoder.bulk (ascii "rugo") ++
  Encoder.bulk (ascii "version") ++ Encoder.bulk env.version ++
  Encoder.bulk (ascii "proto") ++ Encoder.integer (if dialect = .resp3 then 3 else 2) ++
  Encoder.bulk (ascii "id") ++ Encoder.integer 0 ++
  Encoder.bulk (ascii "mode") ++ Encoder.bulk (ascii "standalone") ++
  Encoder.bulk (ascii "role") ++ Encoder.bulk (ascii "master") ++
  Encoder.bulk (ascii "modules") ++ Encoder.array 0

def ping : Ran :=
  if args.length = 1 then ⟨Encoder.simple (ascii "PONG"), dialect, false⟩
  else if args.length = 2 then ⟨Encoder.bulk (arg args 1), dialect, false⟩
  else ⟨(arity args 2 "ping").2, dialect, false⟩

def echo : Ran :=
  if (arity args 2 "echo").1 then ⟨Encoder.bulk (arg args 1), dialect, false⟩
  else ⟨(arity args 2 "echo").2, dialect, false⟩

/-- `HELLO`, which greets in the dialect that was asked for. -/
def greet : Ran :=
  if args.length > 1 then
    match integerOf (arg args 1) with
    | some 2 => ⟨hello env .resp2, .resp2, false⟩
    | some 3 => ⟨hello env .resp3, .resp3, false⟩
    | _ =>
      ⟨Encoder.error (ascii "NOPROTO unsupported protocol version, this server supports 2 and 3"), dialect, false⟩
  else ⟨hello env dialect, dialect, false⟩

def select : Ran :=
  if !(arity args 2 "select").1 then ⟨(arity args 2 "select").2, dialect, false⟩
  else match integerOf (arg args 1) with
    | some 0 => ⟨okay, dialect, false⟩
    | _ => ⟨Encoder.error (ascii "ERR DB index is out of range"), dialect, false⟩

/-- What a client says before and after it says anything else. -/
def connection (name : List UInt8) : Option Ran :=
  if name = ascii "PING" then some (ping dialect args)
  else if name = ascii "ECHO" then some (echo dialect args)
  else if name = ascii "HELLO" then some (greet env dialect args)
  else if name = ascii "SELECT" then some (select dialect args)
  else if name = ascii "RESET" then some ⟨Encoder.simple (ascii "RESET"), .resp2, false⟩
  else if name = ascii "QUIT" then some ⟨okay, dialect, true⟩
  else none

end connection

/-! ## The server -/

section admin
variable (env : Env) (dialect : Dialect) (args : List (List UInt8))

/-- One `name:value` line of an `INFO` section. -/
def line (name : String) (value : List UInt8) : List UInt8 :=
  ascii name ++ [58] ++ value ++ Encoder.crlf

def shown (n : Nat) : List UInt8 := Encoder.number n

/-- `INFO`, of a map with `len` keys. -/
def info (len : Nat) (section_ : List UInt8) : List UInt8 :=
  let all := section_ = ascii "all" ∨ section_ = ascii "default" ∨ section_ = ascii "everything"
  let want (name : String) : Bool := all ∨ section_ = ascii name
  (if want "server" then
    ascii "# Server\r\n" ++ line "redis_version" redisVersion ++ line "rugo_version" env.version ++
    line "redis_mode" (ascii "standalone") ++ line "os" env.os ++ line "arch_bits" (shown env.archBits) ++
    line "process_id" (shown env.processId) ++ line "tcp_port" (shown env.port) ++
    line "uptime_in_seconds" (shown env.uptime) ++ line "io_threads_active" (shown env.threads)
  else []) ++
  (if want "clients" then
    ascii "\r\n# Clients\r\n" ++ line "total_connections_received" (shown env.connections)
  else []) ++
  (if want "memory" then
    ascii "\r\n# Memory\r\n" ++ line "used_memory" (shown env.charged) ++
    line "used_memory_slab" (shown env.resident) ++ line "used_memory_dataset" (shown env.live) ++
    line "used_memory_index" (shown env.index) ++ line "maxmemory" (shown env.maxmemory) ++
    line "maxmemory_policy" (ascii "allkeys-random")
  else []) ++
  (if want "stats" then
    ascii "\r\n# Stats\r\n" ++ line "total_commands_processed" (shown env.commands) ++
    line "keyspace_hits" (shown env.hits) ++ line "keyspace_misses" (shown env.misses)
  else []) ++
  (if want "keyspace" then
    ascii "\r\n# Keyspace\r\n" ++
    (if len > 0 then line "db0" (ascii "keys=" ++ shown len ++ ascii ",expires=0,avg_ttl=0") else [])
  else [])

def infoOf : Work (List UInt8) := do
  let len ← Call.len
  let section_ := if args.length > 1 then env.lower (arg args 1) else ascii "all"
  pure (Encoder.bulk (info env len section_))

def command : List UInt8 :=
  if args.length = 1 then Encoder.array 0
  else if isWord "COUNT" (arg args 1) then Encoder.integer 0
  else if isWord "DOCS" (arg args 1) then Encoder.map dialect 0
  else Encoder.array 0

/-- The settings this server has, and the words they are asked for by. -/
def known : List (String × List UInt8 × List UInt8) :=
  [("MAXMEMORY", ascii "maxmemory", shown env.maxmemory),
   ("MAXMEMORY-POLICY", ascii "maxmemory-policy", ascii "allkeys-random"),
   ("SAVE", ascii "save", []),
   ("APPENDONLY", ascii "appendonly", ascii "no")]

/-- The settings a `CONFIG GET` finds, name after name. -/
def found : List (List UInt8) → List (List UInt8 × List UInt8)
  | [] => []
  | wanted :: rest =>
    ((known env).filter fun pair => wanted == ascii "*" || isWord pair.1 wanted).map Prod.snd ++ found rest

/-- `CONFIG GET`. -/
def config : List UInt8 :=
  let pairs := found env (args.drop 2)
  Encoder.map dialect pairs.length ++
    pairs.flatMap fun pair => Encoder.bulk pair.1 ++ Encoder.bulk pair.2

def client : List UInt8 :=
  if args.length > 1 ∧ isWord "GETNAME" (arg args 1) then Encoder.null dialect
  else if args.length > 1 ∧ isWord "ID" (arg args 1) then Encoder.integer 0
  else okay

/-- The commands that are about the server. `SHUTDOWN`, which does not return, is not
among them. -/
def admin (name : List UInt8) : Option (Work (List UInt8)) :=
  if name = ascii "INFO" then some (infoOf env args)
  else if name = ascii "COMMAND" then some (pure (command dialect args))
  else if name = ascii "CONFIG" then
    some (pure (if args.length > 1 ∧ isWord "GET" (arg args 1) then config env dialect args else okay))
  else if name = ascii "CLIENT" then some (pure (client dialect args))
  else none

end admin

/-! ## One command -/

/-- Run one command. -/
def run (env : Env) (args : List (List UInt8)) (dialect : Dialect) : Work Ran :=
  match args with
  | [] => pure ⟨[], dialect, false⟩
  | raw :: _ =>
    if raw.length > maxName then pure ⟨unknown env raw, dialect, false⟩
    else
      let name := raw.map upper
      match strings dialect args name with
      | some work => do let reply ← work; pure ⟨reply, dialect, false⟩
      | none =>
        match keyspace args name with
        | some work => do let reply ← work; pure ⟨reply, dialect, false⟩
        | none =>
          match connection env dialect args name with
          | some ran => pure ran
          | none =>
            match admin env dialect args name with
            | some work => do let reply ← work; pure ⟨reply, dialect, false⟩
            | none => pure ⟨unknown env raw, dialect, false⟩

end Rugo.Commands
