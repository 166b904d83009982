import Rugo.Replies
import Rugo.RespPrefix

/- What a client writes, the parser reads. A command is written as an array of bulk
   strings, and a pipeline is commands one after another.

     1. `pipeline_parses`: every command of a pipeline is parsed as it was written, off
        the front of what is left, and a command that is not all there yet is waited for. -/
namespace Rugo.Resp
open Exec

/-- A command as a client writes it. -/
def encode (args : List (List UInt8)) : List UInt8 := Encoder.array args.length ++ args.flatMap Encoder.bulk

/-- Commands parsed off the front of a buffer until there is no more: what each took, and
its arguments; and what is left. -/
def parseAll : Nat → List UInt8 → Exec (List (Nat × List (List UInt8)) × List UInt8)
  | 0, _ => .error .spin
  | fuel + 1, buf => do
    let outcome ← parse buf
    match outcome with
    | (.ok (.done used), command) => do
      let rest ← slice buf used buf.length
      let (commands, left) ← parseAll fuel rest
      pure ((used, command.args buf) :: commands, left)
    | _ => pure ([], buf)

/-- A command that may be sent: it has a name, and stays within the parser's bounds. -/
structure Sendable (args : List (List UInt8)) : Prop where
  some : args ≠ []
  few : args.length ≤ maxArgs
  short : ∀ arg ∈ args, arg.length ≤ maxBulk

/-! ## Headers -/

theorem numeral_noLine {text : List UInt8} (h : Numeral text) : (10 : UInt8) ∉ text := by
  intro hmem
  have hbyte := h 10 hmem
  exact absurd hbyte (by decide)

theorem newline_here {text rest : List UInt8} (h : (10 : UInt8) ∉ text) :
    newline (text ++ 10 :: rest) = some text.length := by
  induction text with
  | nil => rfl
  | cons byte text ih =>
    rw [List.mem_cons, not_or] at h
    rw [newline, List.cons_append, List.findIdx?_cons, if_neg (by simpa using Ne.symm h.1)]
    have hrest := ih h.2
    rw [newline] at hrest
    rw [hrest]
    rfl

theorem lineAt_header (front rest : List UInt8) {text : List UInt8} {kind : UInt8} (hkind : kind ≠ 10)
    (h : (10 : UInt8) ∉ text) :
    lineAt (front ++ (kind :: (text ++ Encoder.crlf ++ rest))) front.length =
      some (kind :: text, front.length + text.length + 3) := by
  have hshape : kind :: (text ++ Encoder.crlf ++ rest) = (kind :: text ++ [13]) ++ 10 :: rest := by
    simp [Encoder.crlf]
  have hno : (10 : UInt8) ∉ kind :: text ++ [13] := by
    simp only [List.cons_append, List.mem_cons, List.mem_append, List.not_mem_nil, or_false, not_or]
    exact ⟨Ne.symm hkind, h, by decide⟩
  have hlast : (((kind :: text ++ [13]) ++ 10 :: rest))[text.length + 1]? = some 13 := by
    rw [List.getElem?_append_left (by simp), List.cons_append, List.getElem?_cons_succ,
      List.getElem?_append_right (Nat.le_refl _), Nat.sub_self]
    rfl
  rw [lineAt, List.drop_left, hshape, newline_here hno, Option.map_some, trim]
  have hlen : (kind :: text ++ [13]).length = text.length + 2 := by simp
  rw [hlen, if_pos ⟨by omega, hlast⟩]
  have htake : ((kind :: text ++ [13]) ++ 10 :: rest).take (text.length + 1) = kind :: text := by
    simp
  rw [show text.length + 2 - 1 = text.length + 1 by omega, htake]
  congr 2

theorem digitsFrom_ok {text : List UInt8} {value : Nat} (hnumeral : Numeral text) (hfits : reads text value < 2 ^ 63) :
    digitsFrom text value = .ok (reads text value : Int) := by
  obtain ⟨-, -, hread⟩ | ⟨hnot, -⟩ := digitsFrom_cases text (Nat.lt_of_le_of_lt (le_reads text value) hfits)
  · exact hread
  · exact absurd ⟨hnumeral, hfits⟩ hnot

theorem signed_numeral {digits : List UInt8} (h : Numeral digits) : signed digits = (false, digits) := by
  rw [signed.eq_def]
  split
  · exact absurd (h 45 List.mem_cons_self) (by decide)
  · exact absurd (h 43 List.mem_cons_self) (by decide)
  · rfl

theorem number_spelt {n : Nat} (h : n < 2 ^ 63) : number (spelt n) = .ok (n : Int) := by
  have hnumeral := spelt_numeral n
  have hempty : (spelt n).isEmpty = false := by
    rw [List.isEmpty_eq_false_iff]
    exact spelt_ne_nil n
  have hread := digitsFrom_ok hnumeral (show reads _ 0 < 2 ^ 63 by rw [reads_spelt]; exact h)
  rw [reads_spelt] at hread
  have hzero : digitsFrom (spelt n) 0 = .ok (n : Int) := hread
  rw [number, signed_numeral hnumeral]
  simp only [hempty, Bool.false_eq_true, if_false, hzero]

theorem count_spelt {n : Nat} (h : n < 2 ^ 63) : Encoder.count n = spelt n := by
  rw [Encoder.count_eq h, number_eq, if_neg (by omega)]
  rfl

/-! ## Arguments -/

/-- Where the arguments of a command stand that begin at `at_`. -/
def spansFrom (at_ : Nat) : List (List UInt8) → Command
  | [] => []
  | arg :: rest =>
    ⟨UInt32.ofNat (at_ + (spelt arg.length).length + 3), UInt32.ofNat arg.length⟩ ::
      spansFrom (at_ + (Encoder.bulk arg).length) rest

theorem bulk_eq {arg : List UInt8} (h : arg.length < 2 ^ 63) :
    Encoder.bulk arg = 36 :: (spelt arg.length ++ Encoder.crlf ++ (arg ++ Encoder.crlf)) := by
  rw [Encoder.bulk, count_spelt h]
  simp only [List.append_assoc]

theorem bulk_length (arg : List UInt8) (h : arg.length < 2 ^ 63) :
    (Encoder.bulk arg).length = (spelt arg.length).length + 3 + arg.length + 2 := by
  rw [bulk_eq h]
  simp only [List.length_cons, List.length_append, Encoder.crlf, List.length_nil]
  omega

theorem spansFrom_length (at_ : Nat) (args : List (List UInt8)) : (spansFrom at_ args).length = args.length := by
  induction args generalizing at_ with
  | nil => rfl
  | cons arg args ih => rw [spansFrom, List.length_cons, List.length_cons, ih]

theorem bulks_ok (args : List (List UInt8)) (front rest : List UInt8) (into : Command)
    (hshort : ∀ arg ∈ args, arg.length ≤ maxBulk) (hfew : into.length + args.length ≤ maxArgs)
    (hsmall : (front ++ args.flatMap Encoder.bulk).length < 2 ^ 32) :
    bulks (front ++ (args.flatMap Encoder.bulk ++ rest)) args.length front.length into =
      .ok (.ok (.done (front ++ args.flatMap Encoder.bulk).length), into ++ spansFrom front.length args) := by
  induction args generalizing front into with
  | nil => simp [bulks, spansFrom]
  | cons arg args ih =>
    have harg := hshort arg List.mem_cons_self
    have hmax : maxBulk = 2 ^ 29 := rfl
    have hbulk : Encoder.bulk arg = 36 :: (spelt arg.length ++ Encoder.crlf ++ (arg ++ Encoder.crlf)) :=
      bulk_eq (by omega)
    have hlength := bulk_length arg (by omega)
    rw [List.flatMap_cons] at hsmall ⊢
    rw [List.length_append, List.length_append] at hsmall
    -- the buffer with the first bulk taken apart
    have hbuf : front ++ ((Encoder.bulk arg ++ args.flatMap Encoder.bulk) ++ rest) =
        front ++ (36 :: (spelt arg.length ++ Encoder.crlf ++
          ((arg ++ Encoder.crlf) ++ (args.flatMap Encoder.bulk ++ rest)))) := by
      rw [hbulk]
      simp only [List.append_assoc, List.cons_append]
    have hheader := lineAt_header front ((arg ++ Encoder.crlf) ++ (args.flatMap Encoder.bulk ++ rest))
      (show (36 : UInt8) ≠ 10 by decide) (numeral_noLine (spelt_numeral arg.length))
    rw [← hbuf] at hheader
    have hlen : bulkLen (36 :: spelt arg.length) = .ok arg.length := by
      rw [bulkLen, number_spelt (by omega)]
      simp only [Int.toNat_natCast]
      rw [if_neg (by omega)]
    have hnext : front.length + (spelt arg.length).length + 3 + arg.length + 2 =
      (front ++ Encoder.bulk arg).length := by
      rw [List.length_append, hlength]
      omega
    have hroom : ¬ (front ++ ((Encoder.bulk arg ++ args.flatMap Encoder.bulk) ++ rest)).length <
        front.length + (spelt arg.length).length + 3 + arg.length + 2 := by
      rw [hnext]
      simp only [List.length_append]
      omega
    rw [hnext] at hroom
    rw [List.length_cons] at hfew
    have hpush : into.push (front.length + (spelt arg.length).length + 3) arg.length = .ok (into ++
        [⟨UInt32.ofNat (front.length + (spelt arg.length).length + 3), UInt32.ofNat arg.length⟩]) := by
      rw [Command.push, if_neg (by omega), if_pos ⟨by omega, by omega⟩]
    -- the others begin where it ends
    have hmore := ih (front ++ Encoder.bulk arg) (into ++
        [⟨UInt32.ofNat (front.length + (spelt arg.length).length + 3), UInt32.ofNat arg.length⟩])
      (fun other hother => hshort other (List.mem_cons_of_mem _ hother))
      (by rw [List.length_append, List.length_singleton]; omega)
      (by simp only [List.length_append]; omega)
    rw [List.length_cons, bulks_succ, hheader]
    simp only [hlen, hpush, hnext, if_neg hroom]
    rw [List.append_assoc] at hmore
    rw [List.append_assoc (Encoder.bulk arg), hmore]
    rw [spansFrom]
    simp only [List.length_append, List.append_assoc, List.singleton_append]

theorem spansFrom_args (args : List (List UInt8)) (front rest : List UInt8)
    (hshort : ∀ arg ∈ args, arg.length ≤ maxBulk)
    (hsmall : (front ++ args.flatMap Encoder.bulk).length < 2 ^ 32) (n : Nat) :
    (spansFrom front.length args).arg n (front ++ (args.flatMap Encoder.bulk ++ rest)) = args[n]? := by
  induction args generalizing front n with
  | nil => rfl
  | cons arg args ih =>
    have harg := hshort arg List.mem_cons_self
    have hmax : maxBulk = 2 ^ 29 := rfl
    have hlength := bulk_length arg (by omega)
    rw [List.flatMap_cons] at hsmall ⊢
    rw [List.length_append, List.length_append] at hsmall
    cases n with
    | zero =>
      let header := 36 :: (spelt arg.length ++ Encoder.crlf)
      have hheader : (front ++ header).length = front.length + (spelt arg.length).length + 3 := by
        simp only [header, List.length_append, List.length_cons, Encoder.crlf, List.length_nil]
        omega
      -- the argument is behind its header
      have hbuf : front ++ ((Encoder.bulk arg ++ args.flatMap Encoder.bulk) ++ rest) =
          (front ++ header) ++ (arg ++ (Encoder.crlf ++ (args.flatMap Encoder.bulk ++ rest))) := by
        rw [bulk_eq (by omega)]
        simp only [header, List.append_assoc, List.cons_append]
      have hat : (UInt32.ofNat (front.length + (spelt arg.length).length + 3)).toNat = (front ++ header).length := by
        rw [UInt32.toNat_ofNat', hheader]
        omega
      have hlen : (UInt32.ofNat arg.length).toNat = arg.length := by
        rw [UInt32.toNat_ofNat']
        omega
      rw [hbuf]
      show within _ (UInt32.ofNat _).toNat ((UInt32.ofNat _).toNat + (UInt32.ofNat _).toNat) = some arg
      rw [hat, hlen, within, if_pos, List.drop_left, Nat.add_sub_cancel_left, List.take_left]
      simp only [List.length_append]
      omega
    | succ n =>
      have hrest := ih (front ++ Encoder.bulk arg)
        (fun other hother => hshort other (List.mem_cons_of_mem _ hother)) (by simp only [List.length_append]; omega) n
      rw [List.length_append, List.append_assoc] at hrest
      rw [List.append_assoc, List.getElem?_cons_succ, ← hrest]
      rfl

/-! ## Commands -/

theorem encode_eq {args : List (List UInt8)} (h : args.length < 2 ^ 63) :
    encode args = 42 :: (spelt args.length ++ Encoder.crlf ++ args.flatMap Encoder.bulk) := by
  rw [encode, Encoder.array, count_spelt h]
  simp only [List.append_assoc, List.cons_append]

/-- A command is parsed as it was written, whatever follows it. -/
theorem parse_encode {args : List (List UInt8)} (hsend : Sendable args) (hsmall : (encode args).length < 2 ^ 32)
    (rest : List UInt8) : ∃ cmd, parse (encode args ++ rest) = .ok (.ok (.done (encode args).length), cmd) ∧
      cmd.args (encode args ++ rest) = args := by
  have hfew := hsend.few
  have hmaxArgs : maxArgs = 2 ^ 20 := rfl
  have hheader := lineAt_header [] (args.flatMap Encoder.bulk ++ rest) (show (42 : UInt8) ≠ 10 by decide)
    (numeral_noLine (spelt_numeral args.length))
  let front := 42 :: (spelt args.length ++ Encoder.crlf)
  have hfront : front.length = (spelt args.length).length + 3 := by
    simp only [front, List.length_cons, List.length_append, Encoder.crlf, List.length_nil]
  have hencode : encode args = front ++ args.flatMap Encoder.bulk := by
    rw [encode_eq (by omega)]
    simp only [front, List.cons_append]
  have hbuf : encode args ++ rest = front ++ (args.flatMap Encoder.bulk ++ rest) := by
    rw [hencode, List.append_assoc]
  have hbulks := bulks_ok args front rest [] hsend.short
    (by rw [List.length_nil, Nat.zero_add]; exact hfew) (by rw [← hencode]; exact hsmall)
  refine ⟨spansFrom front.length args, ?_, ?_⟩
  -- the header is the first line, and its number is that of the arguments
  · have hline : lineAt (encode args ++ rest) 0 = some (42 :: spelt args.length, front.length) := by
      rw [hbuf, hfront]
      simp only [front, List.nil_append, List.length_nil, Nat.zero_add, List.append_assoc,
        List.cons_append] at hheader ⊢
      exact hheader
    have hstar : encode args ++ rest = 42 :: (encode args ++ rest).tail := by
      rw [encode_eq (by omega)]
      rfl
    have hslice : slice (42 :: spelt args.length) 1 (42 :: spelt args.length).length = .ok (spelt args.length) := by
      rw [slice_ok (by rw [List.length_cons]; omega) (Nat.le_refl _), List.drop_one, List.tail_cons, List.length_cons,
        Nat.add_sub_cancel, List.take_length]
    have hparse : parse (encode args ++ rest) = parseArray (encode args ++ rest) := by
      rw [hstar, parse, if_pos rfl]
    rw [hparse, parseArray_eq, hline]
    simp only [hslice, ok_bind, number_spelt (show args.length < 2 ^ 63 by omega), Int.toNat_natCast]
    rw [if_neg (by omega), if_neg (by omega), hbuf, hbulks, List.nil_append, ← hencode]
  · have harg := spansFrom_args args front rest hsend.short (by rw [← hencode]; exact hsmall)
    rw [Command.args, spansFrom_length, hbuf]
    apply List.ext_getElem?
    intro n
    rw [List.getElem?_map]
    by_cases hn : n < args.length
    · rw [List.getElem?_range hn, Option.map_some, harg n, List.getElem?_eq_getElem hn]
      rfl
    · rw [List.getElem?_eq_none (by rw [List.length_range]; omega), List.getElem?_eq_none (by omega)]
      rfl

/-- A command that is not all there is waited for. -/
theorem parse_part {args : List (List UInt8)} (hsend : Sendable args) (hsmall : (encode args).length < 2 ^ 32)
    {part rest : List UInt8} (hpart : part ++ rest = encode args) (hrest : rest ≠ []) :
    ∃ cmd, parse part = .ok (.ok .more, cmd) := by
  obtain ⟨cmd, hwhole, -⟩ := parse_encode hsend hsmall []
  rw [List.append_nil, parse_ok] at hwhole
  have hwhole := Except.ok.inj hwhole
  have hshorter : part.length < (encode args).length := by
    have hpos := List.length_pos_of_ne_nil hrest
    rw [← hpart, List.length_append]
    omega
  rw [parse_ok]
  match hparsed : parsed part with
  | (.ok .more, cmd') => exact ⟨cmd', rfl⟩
  | (.ok (.done n), cmd') =>
    have hlonger := parsed_append hparsed rest
    rw [hpart, hwhole] at hlonger
    cases hlonger
    have hle := (parsed_done_le hparsed).2.1
    omega
  | (.error bad, cmd') =>
    -- a line too long so far is one that does not begin an array
    have hline : bad ≠ .noNewline := by
      intro hbad
      rw [hbad] at hparsed
      obtain ⟨hlong, hnone⟩ := parsed_noNewline hparsed
      cases part with
      | nil => exact absurd hlong (by decide)
      | cons first part =>
        have hstar : first = 42 := by
          have hfew := hsend.few
          have hmaxArgs : maxArgs = 2 ^ 20 := rfl
          rw [encode_eq (by omega), List.cons_append] at hpart
          exact (List.cons.inj hpart).1
        have hmore : parse (first :: part) = .ok (.ok .more, []) := by
          rw [parse, if_pos hstar, parseArray_eq, (lineAt_zero _).mpr hnone]
        rw [parse_ok, hparsed] at hmore
        cases hmore
    have hlonger := parsed_error_append hparsed hline rest
    rw [hpart, hwhole] at hlonger
    cases hlonger

theorem parseAll_ok (cmds : List (List (List UInt8))) (hsend : ∀ args ∈ cmds, Sendable args)
    (hsmall : (cmds.flatMap encode).length < 2 ^ 32) {fuel : Nat} (hfuel : cmds.length < fuel) :
    parseAll fuel (cmds.flatMap encode) = .ok (cmds.map fun args => ((encode args).length, args), []) := by
  induction cmds generalizing fuel with
  | nil =>
    obtain ⟨fuel, rfl⟩ := Nat.exists_eq_succ_of_ne_zero (Nat.ne_of_gt hfuel)
    rfl
  | cons args cmds ih =>
    obtain ⟨fuel, rfl⟩ := Nat.exists_eq_succ_of_ne_zero (Nat.ne_of_gt (Nat.zero_lt_of_lt hfuel))
    rw [List.flatMap_cons, List.length_append] at hsmall
    obtain ⟨cmd, hparse, hargs⟩ := parse_encode (hsend args List.mem_cons_self) (by omega) (cmds.flatMap encode)
    have hslice : slice (encode args ++ cmds.flatMap encode) (encode args).length
        (encode args ++ cmds.flatMap encode).length = .ok (cmds.flatMap encode) := by
      rw [slice_ok (by rw [List.length_append]; omega) (Nat.le_refl _), List.drop_left, List.length_append,
        Nat.add_sub_cancel_left, List.take_length]
    have hrest := ih (fun other hother => hsend other (List.mem_cons_of_mem _ hother)) (by omega)
      (show cmds.length < fuel from Nat.lt_of_succ_lt_succ hfuel)
    rw [parseAll, List.flatMap_cons, hparse]
    simp only [ok_bind, hslice, hrest, hargs]
    rfl

/-- A pipeline is parsed as it was written, command by command, to its end; and a command
of which bytes are missing is one for which there is more to come. -/
theorem pipeline_parses :
    (∀ cmds : List (List (List UInt8)), (∀ args ∈ cmds, Sendable args) → (cmds.flatMap encode).length < 2 ^ 32 →
      ∀ fuel, cmds.length < fuel →
        parseAll fuel (cmds.flatMap encode) = .ok (cmds.map fun args => ((encode args).length, args), [])) ∧
    ∀ args, Sendable args → (encode args).length < 2 ^ 32 → ∀ part rest, part ++ rest = encode args → rest ≠ [] →
      ∃ cmd, parse part = .ok (.ok .more, cmd) := by
  refine ⟨?_, ?_⟩
  · intro cmds hsend hsmall fuel hfuel
    exact parseAll_ok cmds hsend hsmall hfuel
  · intro args hsend hsmall part rest hpart hrest
    exact parse_part hsend hsmall hpart hrest

theorem pipeline_parses_get : parseAll 2 (encode [ascii "GET", [13, 10]]) =
    .ok ([((encode [ascii "GET", [13, 10]]).length, [ascii "GET", [13, 10]])], []) := by
  have hsend : ∀ args ∈ [[ascii "GET", [13, 10]]], Sendable args := by
    intro args hargs
    rw [List.mem_singleton.mp hargs]
    exact ⟨by decide, by decide, by decide⟩
  have hencode : [[ascii "GET", [13, 10]]].flatMap encode = encode [ascii "GET", [13, 10]] := by
    rw [List.flatMap_singleton]
  have hparses := pipeline_parses.1 [[ascii "GET", [13, 10]]] hsend (by decide +kernel) 2 (by decide)
  rw [hencode] at hparses
  exact hparses

end Rugo.Resp
