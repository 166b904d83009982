import Rugo.LookAhead

/- The parser in machine words. Every sum of two positions is checked against a 64-bit
   word here, every difference against nought, every index against its slice, and every
   loop against the steps it may take.

     1. `Word.parse_eq`: on a buffer of less than 4 GiB none of these is ever met, and
        what is left is the parser of `Resp`.
     2. `parse_safe`: where its spans are, and that it gets on. -/
namespace Rugo.Resp
open Exec

namespace Word

/-- `a + b`. -/
def plus (a b : Nat) : Exec Nat := if a + b < 2 ^ 64 then .ok (a + b) else .error .overflow

/-- `-value`. -/
def negate (value : Int) : Exec Int :=
  match Signed.checkedNeg value with
  | some value => .ok value
  | none => .error .overflow

/-- The line starting at `at_`, and where the line after it starts. -/
def line (buf : List UInt8) (at_ : Nat) : Exec (Option (List UInt8 × Nat)) := do
  let from_ ← slice buf (min at_ buf.length) buf.length
  match newline from_ with
  | none => pure none
  | some end_ => do
    let line ← text from_ end_
    let next ← plus at_ end_
    let next ← plus next 1
    pure (some (line, next))

def digitsFrom : List UInt8 → Int → Exec (Except Bad Int)
  | [], value => pure (.ok value)
  | byte :: rest, value =>
    if !isDigit byte then pure (.error .notANumber)
    else do
      -- the sums below are checked by the source, this difference is not
      let digit ← minus byte.toNat 48
      match (Signed.checkedMul value 10).bind (Signed.checkedAdd · digit) with
      | some value => digitsFrom rest value
      | none => pure (.error .notANumber)

def number (text : List UInt8) : Exec (Except Bad Int) :=
  let (negative, digits) := signed text
  if digits.isEmpty then pure (.error .notANumber)
  else do
    let value ← digitsFrom digits 0
    match value with
    | .ok value => do
      let value ← if negative then negate value else pure value
      pure (.ok value)
    | .error bad => pure (.error bad)

def bulkLen : List UInt8 → Exec (Except Bad Nat)
  | 36 :: digits => do
    let len ← number digits
    match len with
    | .error bad => pure (.error bad)
    | .ok len => if len < 0 ∨ len.toNat > maxBulk then pure (.error .tooLong) else pure (.ok len.toNat)
  | _ => pure (.error .expectedBulk)

def bulks (buf : List UInt8) : Nat → Nat → Command → Exec Outcome
  | 0, at_, into => pure (.ok (.done at_), into)
  | count + 1, at_, into => do
    let found ← line buf at_
    match found with
    | none => pure (.ok .more, into)
    | some (header, next) => do
      let len ← bulkLen header
      match len with
      | .error bad => pure (.error bad, into)
      | .ok len => do
        -- the body and the two bytes that end it, which are not looked at
        let behind ← plus next len
        let behind ← plus behind 2
        if buf.length < behind then pure (.ok .more, into)
        else match into.push next len with
          | .error bad => pure (.error bad, into)
          | .ok into => bulks buf count behind into

def parseArray (buf : List UInt8) : Exec Outcome := do
  let found ← line buf 0
  match found with
  | none => pure (.ok .more, [])
  | some (header, at_) => do
    let digits ← slice header 1 header.length
    let count ← number digits
    match count with
    | .error bad => pure (.error bad, [])
    | .ok count =>
      if count < 0 then pure (.ok (.done at_), [])
      else if count.toNat > maxArgs then pure (.error .tooManyArguments, [])
      else bulks buf count.toNat at_ []

/-- Where the word that `cursor` is in ends. -/
def wordEnd (line : List UInt8) : Nat → Nat → Exec Nat
  -- the loop has not ended after as many steps as there are bytes
  | 0, _ => .error .spin
  | fuel + 1, cursor =>
    if cursor < line.length then do
      let byte ← index line cursor
      if isSpace byte then pure cursor
      else do
        let cursor ← plus cursor 1
        wordEnd line fuel cursor
    else pure cursor

def words (line : List UInt8) : Nat → Nat → Command → Exec (Except Bad Unit × Command)
  | 0, _, _ => .error .spin
  | fuel + 1, cursor, into =>
    if cursor < line.length then do
      let byte ← index line cursor
      if isSpace byte then do
        let cursor ← plus cursor 1
        words line fuel cursor into
      else do
        let stop ← wordEnd line (line.length + 1) cursor
        let len ← minus stop cursor
        match into.push cursor len with
        | .error bad => pure (.error bad, into)
        | .ok into => words line fuel stop into
    else pure (.ok (), into)

def parseInline (buf : List UInt8) : Exec Outcome := do
  let found ← line buf 0
  match found with
  | none =>
    if buf.length > maxInline then pure (.error .noNewline, []) else pure (.ok .more, [])
  | some (line, at_) => do
    let found ← words line (line.length + 1) 0 []
    match found with
    | (.error bad, into) => pure (.error bad, into)
    | (.ok (), into) => pure (.ok (.done at_), into)

def parse (buf : List UInt8) : Exec Outcome :=
  match buf with
  | [] => pure (.ok .more, [])
  | first :: rest => if first = 42 then parseArray (first :: rest) else parseInline (first :: rest)

def arg (cmd : Command) (n : Nat) (buf : List UInt8) : Exec (Option (List UInt8)) :=
  match cmd[n]? with
  | none => pure none
  | some span => do
    let stop ← plus span.at_.toNat span.len.toNat
    pure (within buf span.at_.toNat stop)

/-! ## Nothing is met -/

theorem plus_ok {a b : Nat} (h : a + b < 2 ^ 64) : plus a b = .ok (a + b) := if_pos h

theorem line_eq {buf : List UInt8} (hbuf : buf.length < 2 ^ 32) (at_ : Nat) :
    Word.line buf at_ = .ok (lineAt buf at_) := by
  have hdrop : (buf.drop (min at_ buf.length)).take (buf.length - min at_ buf.length) = buf.drop at_ := by
    rw [← List.length_drop, List.take_length]
    rcases Nat.le_total at_ buf.length with h | h
    · rw [Nat.min_eq_left h]
    · rw [Nat.min_eq_right h, List.drop_length, List.drop_eq_nil_of_le h]
  rw [Word.line, slice_ok (Nat.min_le_right _ _) (Nat.le_refl _), ok_bind, hdrop, lineAt]
  cases hfound : newline (buf.drop at_) with
  | none => rfl
  | some e =>
    have hlt := newline_lt hfound
    have hle := List.length_drop (l := buf) (i := at_)
    simp only [text_eq (Nat.le_of_lt hlt), ok_bind]
    rw [plus_ok (by omega), ok_bind, plus_ok (by omega)]
    rfl

theorem digitsFrom_eq (text : List UInt8) (value : Int) :
    Word.digitsFrom text value = .ok (Resp.digitsFrom text value) := by
  induction text generalizing value with
  | nil => rfl
  | cons byte text ih =>
    rw [Word.digitsFrom, Resp.digitsFrom]
    by_cases hbyte : isDigit byte = true
    · have hrange := isDigit_iff.mp hbyte
      have hdigit : ((byte.toNat - 48 : Nat) : Int) = byte.toNat - 48 := by omega
      rw [hbyte]
      simp only [Bool.not_true, Bool.false_eq_true, if_false, minus_ok hrange.1, ok_bind, hdigit]
      cases (Signed.checkedMul value 10).bind fun value => Signed.checkedAdd value (byte.toNat - 48) with
      | none => rfl
      | some value => exact ih value
    · rw [Bool.eq_false_iff.mpr hbyte]
      rfl

theorem number_eq (text : List UInt8) : Word.number text = .ok (Resp.number text) := by
  rw [Word.number, Resp.number]
  obtain ⟨negative, digits⟩ := signed text
  simp only [digitsFrom_eq, ok_bind]
  split
  · rfl
  · -- the digits come to nothing negative, so there is room for the sign
    obtain ⟨-, hfits, hdigits⟩ | ⟨-, hdigits⟩ := digitsFrom_cases digits (show 0 < 2 ^ 63 by decide)
    · have hneg : negate (reads digits 0 : Int) = .ok (-(reads digits 0 : Int)) := by
        have hmin : Signed.i64Min = -2 ^ 63 := rfl
        have hmax : Signed.i64Max = 2 ^ 63 - 1 := rfl
        rw [negate, show Signed.checkedNeg (reads digits 0 : Int) = some _ from
          Signed.fit_eq_some.mpr ⟨rfl, by omega, by omega⟩]
      rw [show Resp.digitsFrom digits 0 = _ from hdigits]
      simp only [hneg]
      cases negative <;> rfl
    · rw [show Resp.digitsFrom digits 0 = _ from hdigits]
      rfl

theorem bulkLen_eq (header : List UInt8) : Word.bulkLen header = .ok (Resp.bulkLen header) := by
  cases header with
  | nil => rfl
  | cons kind digits =>
    by_cases hkind : kind = 36
    · subst hkind
      simp only [Word.bulkLen, Resp.bulkLen, number_eq, ok_bind]
      cases Resp.number digits with
      | error bad => rfl
      | ok len => exact (apply_ite Except.ok _ _ _).symm
    · rw [bulkLen_other hkind, Word.bulkLen.eq_def]
      split
      · next hcons => exact absurd (List.cons.inj hcons).1 hkind
      · rfl

theorem bulks_eq {buf : List UInt8} (hbuf : buf.length < 2 ^ 32) (count at_ : Nat) (into : Command) :
    Word.bulks buf count at_ into = Resp.bulks buf count at_ into := by
  induction count generalizing at_ into with
  | zero => rfl
  | succ count ih =>
    rw [bulks_succ, Word.bulks, line_eq hbuf, ok_bind]
    cases hline : lineAt buf at_ with
    | none => rfl
    | some found =>
      obtain ⟨header, next⟩ := found
      have hnext := (lineAt_some hline).2.1
      simp only [bulkLen_eq, ok_bind]
      cases hlen : Resp.bulkLen header with
      | error bad => rfl
      | ok len =>
        obtain ⟨-, -, -, hmax⟩ := bulkLen_ok hlen
        have hbulk : maxBulk = 2 ^ 29 := rfl
        simp only [plus_ok (show next + len < 2 ^ 64 by omega), plus_ok (show next + len + 2 < 2 ^ 64 by omega),
          ok_bind]
        split
        · rfl
        · cases into.push next len with
          | error bad => rfl
          | ok into => exact ih _ _

theorem parseArray_eq {buf : List UInt8} (hbuf : buf.length < 2 ^ 32) : Word.parseArray buf = Resp.parseArray buf := by
  rw [Word.parseArray, Resp.parseArray, line_eq hbuf, Resp.line_eq]
  cases lineAt buf 0 with
  | none => rfl
  | some found =>
    obtain ⟨header, next⟩ := found
    change (slice header 1 header.length >>= _) = (slice header 1 header.length >>= _)
    apply congrArg
    funext digits
    rw [number_eq, ok_bind]
    cases Resp.number digits with
    | error bad => rfl
    | ok count => simp only [bulks_eq hbuf]

/-- The inner loop has steps enough, and stops where the word does. -/
theorem wordEnd_eq {line : List UInt8} (hline : line.length < 2 ^ 32) {fuel cursor : Nat}
    (hcursor : cursor ≤ line.length) (hfuel : line.length - cursor < fuel) :
    Word.wordEnd line fuel cursor = .ok (Resp.wordEnd line cursor) := by
  induction fuel generalizing cursor with
  | zero => exact absurd hfuel (Nat.not_lt_zero _)
  | succ fuel ih =>
    rw [Word.wordEnd, Resp.wordEnd]
    by_cases hlt : cursor < line.length
    · rw [if_pos hlt, index_ok hlt, ok_bind, List.drop_eq_getElem_cons hlt]
      by_cases hspace : isSpace (line)[cursor] = true
      · rw [if_pos hspace, List.takeWhile_cons_of_neg (by simp [hspace])]
        rfl
      · rw [if_neg hspace, plus_ok (by omega), ok_bind, ih (by omega) (by omega),
          List.takeWhile_cons_of_pos (by simp [hspace]), List.length_cons, Resp.wordEnd]
        congr 1
        omega
    · rw [if_neg hlt, List.drop_eq_nil_of_le (by omega)]
      rfl

theorem words_eq {line : List UInt8} (hline : line.length < 2 ^ 32) {fuel cursor : Nat} {into : Command}
    (hcursor : cursor ≤ line.length) (hfuel : line.length - cursor < fuel) :
    Word.words line fuel cursor into = .ok (Resp.words line cursor into) := by
  induction fuel generalizing cursor into with
  | zero => exact absurd hfuel (Nat.not_lt_zero _)
  | succ fuel ih =>
    rw [Word.words, Resp.words]
    by_cases hlt : cursor < line.length
    · rw [if_pos hlt, dif_pos hlt, index_ok hlt, ok_bind]
      by_cases hspace : isSpace (line)[cursor] = true
      · rw [if_pos hspace, dif_pos hspace, plus_ok (by omega), ok_bind]
        exact ih (by omega) (by omega)
      · have hend := lt_wordEnd hlt (by simpa using hspace)
        have hstop := wordEnd_le line hlt
        rw [if_neg hspace, dif_neg hspace, wordEnd_eq hline hcursor (by omega), ok_bind, minus_ok (by omega), ok_bind]
        cases into.push cursor (Resp.wordEnd line cursor - cursor) with
        | error bad => rfl
        | ok into => exact ih hstop (by omega)
    · rw [if_neg hlt, dif_neg hlt]
      rfl

theorem parseInline_eq {buf : List UInt8} (hbuf : buf.length < 2 ^ 32) :
    Word.parseInline buf = Resp.parseInline buf := by
  rw [Word.parseInline, Resp.parseInline, line_eq hbuf, Resp.line_eq, ok_bind, ok_bind]
  cases hfound : lineAt buf 0 with
  | none => rfl
  | some found =>
    obtain ⟨line, next⟩ := found
    obtain ⟨-, hnext, hshort⟩ := lineAt_some hfound
    have hwords : Word.words line (line.length + 1) 0 [] = .ok (Resp.words line 0 []) :=
      words_eq (by omega) (Nat.zero_le _) (by omega)
    change (Word.words line (line.length + 1) 0 [] >>= _) = _
    rw [hwords]
    rfl

/-- On a buffer of less than 4 GiB no sum leaves its word, no index its slice, and no loop
goes on. -/
theorem parse_eq {buf : List UInt8} (hbuf : buf.length < 2 ^ 32) : Word.parse buf = Resp.parse buf := by
  cases buf with
  | nil => rfl
  | cons first rest =>
    rw [Word.parse, Resp.parse, parseArray_eq hbuf, parseInline_eq hbuf]

end Word
/-! ## Where the spans are -/

/-- Spans in order and apart, all of them before `n`, and not too many. -/
structure Command.Laid (cmd : Command) (n : Nat) : Prop where
  ordered : cmd.Pairwise fun a b => a.at_.toNat + a.len.toNat ≤ b.at_.toNat
  below : cmd.Below n
  few : cmd.length ≤ maxArgs

namespace Command.Laid
variable {cmd cmd' : Command} {m n at_ len : Nat}

theorem nil (n : Nat) : Command.Laid [] n := ⟨.nil, nofun, Nat.zero_le _⟩

theorem mono (h : cmd.Laid m) (hmn : m ≤ n) : cmd.Laid n := ⟨h.ordered, h.below.mono hmn, h.few⟩

theorem push (h : cmd.Laid at_) (hpush : cmd.push at_ len = .ok cmd') : cmd'.Laid (at_ + len) := by
  have hbelow := Command.push_below (h.below.mono (Nat.le_add_right at_ len)) hpush (Nat.le_refl _)
  obtain ⟨span, rfl, hat, -, hroom⟩ := push_ok hpush
  refine ⟨?_, hbelow, ?_⟩
  · rw [List.pairwise_append]
    refine ⟨h.ordered, List.pairwise_singleton _ _, ?_⟩
    intro a ha b hb
    rw [List.mem_singleton] at hb
    rw [hb, hat]
    exact h.below a ha
  · rw [List.length_append, List.length_singleton]
    exact hroom

end Command.Laid

theorem bulks_laid {buf : List UInt8} {count at_ n : Nat} {into cmd : Command} (hinto : into.Laid at_)
    (h : bulks buf count at_ into = .ok (.ok (.done n), cmd)) : cmd.Laid n := by
  induction count generalizing at_ into with
  | zero =>
    cases h
    exact hinto
  | succ count ih =>
    obtain ⟨text, next, len, into', hline, -, -, hpush, h⟩ := bulks_done h
    have hnext := (lineAt_some hline).1
    exact ih (((hinto.mono (Nat.le_of_lt hnext)).push hpush).mono (Nat.le_add_right _ _)) h

theorem words_laid {line : List UInt8} {cursor : Nat} {into cmd : Command} (hinto : into.Laid cursor)
    (hcursor : cursor ≤ line.length) (h : words line cursor into = (.ok (), cmd)) : cmd.Laid line.length := by
  induction cursor, into using words.induct line with
  | case1 cursor into hlt hspace ih =>
    rw [words, dif_pos hlt, dif_pos hspace] at h
    exact ih (hinto.mono (Nat.le_succ _)) hlt h
  | case2 cursor into hlt hspace bad hpush =>
    rw [words, dif_pos hlt, dif_neg hspace, hpush] at h
    cases h
  | case3 cursor into hlt hspace into' hpush ih =>
    have hend := lt_wordEnd hlt (by simpa using hspace)
    rw [words, dif_pos hlt, dif_neg hspace, hpush] at h
    refine ih ?_ (wordEnd_le line hlt) h
    exact (hinto.push hpush).mono (by omega)
  | case4 cursor into hlt =>
    rw [words, dif_neg hlt] at h
    cases h
    exact hinto.mono hcursor

/-- The spans of a command lie in the bytes it took. -/
theorem parse_laid {buf : List UInt8} {n : Nat} {cmd : Command} (h : parse buf = .ok (.ok (.done n), cmd)) :
    cmd.Laid n := by
  cases buf with
  | nil => cases h
  | cons first rest =>
    by_cases hstar : first = 42
    · subst hstar
      obtain ⟨header, next, digits, count, -, -, -, hend⟩ := parse_star_done h
      obtain ⟨-, rfl, rfl⟩ | ⟨-, -, hbulks⟩ := hend
      · exact .nil _
      · exact bulks_laid (.nil next) hbulks
    · obtain ⟨line, hline, hwords⟩ := parse_inline_done hstar h
      have hshort := (lineAt_some hline).2.2
      exact (words_laid (.nil 0) (Nat.zero_le _) hwords).mono (by omega)

/-- Any argument is there to be read, out of the bytes the command took. -/
theorem arg_laid {buf : List UInt8} {n k : Nat} {cmd : Command} (hlaid : cmd.Laid n) (hn : n ≤ buf.length)
    (hk : k < cmd.length) : ∃ arg, Word.arg cmd k (buf.take n) = .ok (some arg) := by
  have hbelow := hlaid.below cmd[k] (List.getElem_mem hk)
  have hat := cmd[k].at_.toNat_lt
  have hlen := cmd[k].len.toNat_lt
  have htake : (buf.take n).length = n := by
    rw [List.length_take]
    omega
  have hplus := Word.plus_ok (show cmd[k].at_.toNat + cmd[k].len.toNat < 2 ^ 64 by omega)
  rw [Word.arg, List.getElem?_eq_getElem hk]
  simp only [hplus, ok_bind, pure_ok, within]
  rw [if_pos ⟨Nat.le_add_right _ _, by omega⟩]
  exact ⟨_, rfl⟩

/-- Commands parsed off the front of a buffer until there is no more: what each took, and
what is left. -/
def Word.parseAll : Nat → List UInt8 → Exec (List Nat × List UInt8)
  | 0, _ => .error .spin
  | fuel + 1, buf => do
    let outcome ← Word.parse buf
    match outcome with
    | (.ok (.done used), _) => do
      let rest ← slice buf used buf.length
      let (commands, left) ← Word.parseAll fuel rest
      pure (used :: commands, left)
    | _ => pure ([], buf)

/-- Parsing again and again takes something each time, and gets to where there is no
command. -/
theorem parseAll_gets_on {buf : List UInt8} (hbuf : buf.length < 2 ^ 32) {fuel : Nat} (hfuel : buf.length < fuel) :
    ∃ commands left, Word.parseAll fuel buf = .ok (commands, left) ∧ (∀ used ∈ commands, 0 < used) ∧
      buf.drop commands.sum = left ∧ commands.sum ≤ buf.length ∧
      ∀ n cmd, Word.parse left ≠ .ok (.ok (.done n), cmd) := by
  induction fuel generalizing buf with
  | zero => exact absurd hfuel (Nat.not_lt_zero _)
  | succ fuel ih =>
    rw [Word.parseAll, Word.parse_eq hbuf, parse_ok, ok_bind]
    match hparsed : parsed buf with
    | (.ok (.done n), cmd) =>
      obtain ⟨hpos, hle, -⟩ := parsed_done_le hparsed
      have hslice : slice buf n buf.length = .ok (buf.drop n) := by
        rw [slice_ok hle (Nat.le_refl _), ← List.length_drop, List.take_length]
      have hdrop : (buf.drop n).length = buf.length - n := List.length_drop
      obtain ⟨commands, left, hall, hsome, hleft, hsum, hstop⟩ := @ih (buf.drop n) (by omega) (by omega)
      refine ⟨n :: commands, left, ?_, ?_, ?_, ?_, hstop⟩
      · simp only [hslice, hall, ok_bind, pure_ok]
      · exact List.forall_mem_cons.mpr ⟨hpos, hsome⟩
      · rw [List.sum_cons, ← List.drop_drop, hleft]
      · rw [List.sum_cons]
        omega
    | (.ok .more, cmd) =>
      refine ⟨[], buf, rfl, nofun, rfl, Nat.zero_le _, ?_⟩
      intro n cmd' hdone
      rw [Word.parse_eq hbuf, parse_ok, hparsed] at hdone
      cases hdone
    | (.error bad, cmd) =>
      refine ⟨[], buf, rfl, nofun, rfl, Nat.zero_le _, ?_⟩
      intro n cmd' hdone
      rw [Word.parse_eq hbuf, parse_ok, hparsed] at hdone
      cases hdone

/-- What no bytes can make of a parse: it answers, with every panic and every overflow
counted; a command it finds has its arguments inside it; and it gets on. -/
structure Safe (buf : List UInt8) : Prop where
  answers : ∃ outcome, Word.parse buf = .ok outcome
  whole : ∀ n cmd, Word.parse buf = .ok (.ok (.done n), cmd) → 0 < n ∧ n ≤ buf.length ∧ cmd.Laid n ∧
    ∀ k < cmd.length, ∃ arg, Word.arg cmd k (buf.take n) = .ok (some arg)
  progress : ∃ commands left, Word.parseAll (buf.length + 1) buf = .ok (commands, left) ∧
    (∀ used ∈ commands, 0 < used) ∧ buf.drop commands.sum = left ∧ commands.sum ≤ buf.length ∧
    ∀ n cmd, Word.parse left ≠ .ok (.ok (.done n), cmd)

theorem parse_safe (buf : List UInt8) (hbuf : buf.length < 2 ^ 32) : Safe buf where
  answers := ⟨parsed buf, by rw [Word.parse_eq hbuf, parse_ok]⟩
  whole := by
    intro n cmd h
    rw [Word.parse_eq hbuf] at h
    have hparsed : parsed buf = (.ok (.done n), cmd) := Except.ok.inj ((parse_ok buf).symm.trans h)
    obtain ⟨hpos, hle, -⟩ := parsed_done_le hparsed
    have hlaid := parse_laid h
    exact ⟨hpos, hle, hlaid, fun k hk => arg_laid hlaid hle hk⟩
  progress := parseAll_gets_on hbuf (Nat.lt_succ_self _)

theorem parse_safe_get : ∃ arg, Word.arg [⟨8, 3⟩, ⟨17, 3⟩] 1
    ((ascii "*2\r\n$3\r\nGET\r\n$3\r\nkey\r\n*1").take 22) = .ok (some arg) := by
  have hsafe := parse_safe (ascii "*2\r\n$3\r\nGET\r\n$3\r\nkey\r\n*1") (by decide)
  obtain ⟨-, -, -, hall⟩ := hsafe.whole 22 [⟨8, 3⟩, ⟨17, 3⟩] (by decide)
  exact hall 1 (by decide)

end Rugo.Resp
