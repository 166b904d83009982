import Rugo.Lib.Exec
import Rugo.Lib.Signed

/- The wire protocol (`rugo-resp/src/lib.rs`): one command parsed in place from
   the front of a buffer, as spans into it, and replies written in the dialect
   the client asked for.

   A parse answers with what it found and the argument list as it left it. Each
   slice and index of the source is checked; `parse_ok` says that none of them
   is ever out of range. -/
namespace Rugo.Resp
open Exec

/-- How many arguments a command may carry. -/
def maxArgs : Nat := 1024 * 1024

/-- The longest bulk string that will be accepted. -/
def maxBulk : Nat := 512 * 1024 * 1024

/-- The longest line an inline command may be. -/
def maxInline : Nat := 64 * 1024

/-- A text of the source, as bytes. Every one of them is ASCII. -/
def ascii (text : String) : List UInt8 := text.toList.map fun c => UInt8.ofNat c.toNat

/-- One argument's place in the read buffer. -/
structure Span where
  at_ : UInt32
  len : UInt32
  deriving DecidableEq, Repr

/-- The spans of a command's arguments. -/
abbrev Command := List Span

/-- Why a request was rejected. -/
inductive Bad where
  | notANumber
  | tooLong
  | tooManyArguments
  | expectedBulk
  | noNewline
  deriving DecidableEq, Repr

def Bad.message : Bad → List UInt8
  | .notANumber => ascii "Protocol error: invalid multibulk length"
  | .tooLong => ascii "Protocol error: invalid bulk length"
  | .tooManyArguments => ascii "Protocol error: too many arguments"
  | .expectedBulk => ascii "Protocol error: expected '$', got something else"
  | .noNewline => ascii "Protocol error: too big inline request"

/-- What one parse attempt found. -/
inductive Parsed where
  | done (used : Nat)
  | more
  deriving DecidableEq, Repr

/-- What a parse answers, and the argument list it leaves. -/
abbrev Outcome := Except Bad Parsed × Command

/-- `buf.get(i..j)`. -/
def within (buf : List UInt8) (i j : Nat) : Option (List UInt8) :=
  if i ≤ j ∧ j ≤ buf.length then some ((buf.drop i).take (j - i)) else none

namespace Command

/-- Argument `n` out of the buffer it was parsed from. -/
def arg (cmd : Command) (n : Nat) (buf : List UInt8) : Option (List UInt8) := do
  let span ← cmd[n]?
  within buf span.at_.toNat (span.at_.toNat + span.len.toNat)

def push (cmd : Command) (at_ len : Nat) : Except Bad Command :=
  if cmd.length ≥ maxArgs then .error .tooManyArguments
  else if at_ < 2 ^ 32 ∧ len < 2 ^ 32 then .ok (cmd ++ [⟨UInt32.ofNat at_, UInt32.ofNat len⟩])
  else .error .tooLong

def args (cmd : Command) (buf : List UInt8) : List (List UInt8) :=
  (List.range cmd.length).map fun n => (cmd.arg n buf).getD []

end Command

/-! ## Lines and numbers -/

/-- Where the first newline is. -/
def newline (from_ : List UInt8) : Option Nat := from_.findIdx? fun byte => byte == 10

/-- The line that ends at `end_`, without the `\r` of its terminator. -/
def text (from_ : List UInt8) (end_ : Nat) : Exec (List UInt8) :=
  if end_ > 0 then do
    let before ← index from_ (end_ - 1)
    if before = 13 then slice from_ 0 (end_ - 1) else slice from_ 0 end_
  else slice from_ 0 end_

/-- The line starting at `at_`, and where the line after it starts. -/
def line (buf : List UInt8) (at_ : Nat) : Exec (Option (List UInt8 × Nat)) :=
  let from_ := buf.drop (min at_ buf.length)
  match newline from_ with
  | none => pure none
  | some end_ => do
    let line ← text from_ end_
    pure (some (line, at_ + end_ + 1))

def isDigit (byte : UInt8) : Bool := decide (48 ≤ byte.toNat ∧ byte.toNat ≤ 57)

/-- The digits of a number, read on from `value`. -/
def digitsFrom : List UInt8 → Int → Except Bad Int
  | [], value => .ok value
  | byte :: rest, value =>
    if !isDigit byte then .error .notANumber
    else match (Signed.checkedMul value 10).bind (Signed.checkedAdd · (byte.toNat - 48)) with
      | some value => digitsFrom rest value
      | none => .error .notANumber

def signed : List UInt8 → Bool × List UInt8
  | 45 :: rest => (true, rest)
  | 43 :: rest => (false, rest)
  | text => (false, text)

def number (text : List UInt8) : Except Bad Int :=
  let (negative, digits) := signed text
  if digits.isEmpty then .error .notANumber
  else match digitsFrom digits 0 with
    | .ok value => .ok (if negative then -value else value)
    | .error bad => .error bad

/-! ## The two forms -/

/-- The length a bulk string's header announces. -/
def bulkLen : List UInt8 → Except Bad Nat
  | 36 :: digits =>
    match number digits with
    | .error bad => .error bad
    | .ok len => if len < 0 ∨ len.toNat > maxBulk then .error .tooLong else .ok len.toNat
  | _ => .error .expectedBulk

/-- The bulk strings still to come, from `at_` on. -/
def bulks (buf : List UInt8) : Nat → Nat → Command → Exec Outcome
  | 0, at_, into => pure (.ok (.done at_), into)
  | count + 1, at_, into => do
    let found ← line buf at_
    match found with
    | none => pure (.ok .more, into)
    | some (header, next) =>
      match bulkLen header with
      | .error bad => pure (.error bad, into)
      | .ok len =>
        -- the body and its own terminator, or the bulk is not here yet
        if buf.length < next + len + 2 then pure (.ok .more, into)
        else match into.push next len with
          | .error bad => pure (.error bad, into)
          | .ok into => bulks buf count (next + len + 2) into

/-- The array-of-bulk-strings form. -/
def parseArray (buf : List UInt8) : Exec Outcome := do
  let found ← line buf 0
  match found with
  | none => pure (.ok .more, [])
  | some (header, at_) => do
    let digits ← slice header 1 header.length
    match number digits with
    | .error bad => pure (.error bad, [])
    | .ok count =>
      -- a null or an empty array is a whole command without arguments
      if count < 0 then pure (.ok (.done at_), [])
      else if count.toNat > maxArgs then pure (.error .tooManyArguments, [])
      else bulks buf count.toNat at_ []

/-- `u8::is_ascii_whitespace`. -/
def isSpace (byte : UInt8) : Bool := byte ∈ [9, 10, 12, 13, 32]

/-- Where the word that starts at `cursor` ends. -/
def wordEnd (line : List UInt8) (cursor : Nat) : Nat :=
  cursor + ((line.drop cursor).takeWhile fun byte => !isSpace byte).length

theorem lt_wordEnd {line : List UInt8} {cursor : Nat} (h : cursor < line.length)
    (hs : isSpace (line)[cursor] = false) : cursor < wordEnd line cursor := by
  rw [wordEnd, List.drop_eq_getElem_cons h, List.takeWhile_cons_of_pos (by simp [hs])]
  simp only [List.length_cons]
  omega

/-- The words of a line, from `cursor` on. -/
def words (line : List UInt8) (cursor : Nat) (into : Command) : Except Bad Unit × Command :=
  if h : cursor < line.length then
    if hs : isSpace (line)[cursor] then words line (cursor + 1) into
    else match into.push cursor (wordEnd line cursor - cursor) with
      | .error bad => (.error bad, into)
      | .ok into => words line (wordEnd line cursor) into
  else (.ok (), into)
termination_by line.length - cursor
decreasing_by
  · omega
  · have := lt_wordEnd h (by simpa using hs)
    omega

/-- The inline form: a line of arguments separated by spaces. -/
def parseInline (buf : List UInt8) : Exec Outcome := do
  let found ← line buf 0
  match found with
  | none =>
    if buf.length > maxInline then pure (.error .noNewline, []) else pure (.ok .more, [])
  | some (line, at_) =>
    match words line 0 [] with
    | (.error bad, into) => pure (.error bad, into)
    | (.ok (), into) => pure (.ok (.done at_), into)

/-- Parse one command from the front of `buf`. -/
def parse (buf : List UInt8) : Exec Outcome :=
  match buf with
  | [] => pure (.ok .more, [])
  | first :: rest => if first = 42 then parseArray (first :: rest) else parseInline (first :: rest)

/-! ## Replies -/

/-- Which dialect a connection is speaking. -/
inductive Dialect where
  | resp2
  | resp3
  deriving DecidableEq, Repr

namespace Encoder

def crlf : List UInt8 := [13, 10]

def digitsOf (left : Nat) : List UInt8 :=
  if left < 10 then [UInt8.ofNat (48 + left)]
  else UInt8.ofNat (48 + left % 10) :: digitsOf (left / 10)
termination_by left

def number (value : Int) : List UInt8 :=
  (if value < 0 then [45] else []) ++ (digitsOf value.natAbs).reverse

/-- A length, saturating. -/
def count (len : Nat) : List UInt8 := number (min len Signed.i64Max.toNat)

def simple (text : List UInt8) : List UInt8 := 43 :: (text ++ crlf)

def error (text : List UInt8) : List UInt8 := 45 :: (text ++ crlf)

def integer (value : Int) : List UInt8 := 58 :: (number value ++ crlf)

def bulk (bytes : List UInt8) : List UInt8 := 36 :: (count bytes.length ++ crlf ++ bytes ++ crlf)

/-- A bulk string is longer than its body. -/
theorem length_le_bulk (bytes : List UInt8) : bytes.length ≤ (bulk bytes).length := by
  simp only [bulk, List.length_cons, List.length_append]
  omega

def null : Dialect → List UInt8
  | .resp2 => ascii "$-1\r\n"
  | .resp3 => ascii "_\r\n"

/-- The header of an array of `len` elements. -/
def array (len : Nat) : List UInt8 := 42 :: (count len ++ crlf)

/-- The header of a map of `len` pairs. -/
def map (dialect : Dialect) (len : Nat) : List UInt8 :=
  match dialect with
  | .resp2 => array (len * 2)
  | .resp3 => 37 :: (count len ++ crlf)

end Encoder
end Rugo.Resp
