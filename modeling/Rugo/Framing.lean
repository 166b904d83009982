import Mathlib.Data.List.Forall2
import Rugo.Integers

/- Array commands as they stand on a stream. `Frames` is a header line, and behind it the
   bulk strings it counts: a line with a length, that many bytes, and two bytes more in
   the place of a terminator. What stands in that place is kept beside the arguments,
   since the parser steps over it without a look.

     1. `parse_steady`: an answer about an array command is the same whatever follows it,
        and there is none before its last byte.
     2. `parse_frames`, `Frames.unique`: what is accepted is frames, and there is one way
        to read them.
     3. `framed_iff`: an accepted command is well framed exactly when the bytes stepped
        over are terminators. -/
namespace Rugo.Resp
open Exec

/-! ## Incremental reading -/

/-- An array command is never a line that is too long so far. -/
theorem parse_star_noNewline {rest : List UInt8} {cmd : Command} :
    parse (42 :: rest) ≠ .ok (.error .noNewline, cmd) := by
  intro h
  obtain ⟨r, cmd', hr, -, hline⟩ := parse_cases (42 :: rest)
  rw [h] at hr
  cases hr
  -- that error is about a buffer without a newline, and there a star asks for more
  have hnone := (lineAt_zero _).mpr (hline rfl).2
  rw [parse, if_pos rfl, parseArray_eq, hnone] at h
  cases h

/-- An answer about an array command is the same whatever follows it, and there is none
before its last byte. -/
theorem parse_steady (rest : List UInt8) (r : Except Bad Parsed) (cmd : Command)
    (h : parse (42 :: rest) = .ok (r, cmd)) :
    (r ≠ .ok .more → ∀ x, parse (42 :: rest ++ x) = .ok (r, cmd)) ∧
      ∀ n, r = .ok (.done n) → ∀ m < n, ∃ cmd', parse ((42 :: rest).take m) = .ok (.ok .more, cmd') := by
  have hline : ∀ tail cmd', parse (42 :: tail) = .ok (r, cmd') → r ≠ .error .noNewline := by
    intro tail cmd' h' hr
    rw [hr] at h'
    exact parse_star_noNewline h'
  refine ⟨fun hmore x => parse_append x h hmore (hline _ _ h), ?_⟩
  intro n hn m hm
  subst hn
  obtain ⟨r', cmd', hr', hdone, hnoline⟩ := parse_cases ((42 :: rest).take m)
  rw [hr']
  by_cases hmore : r' = .ok .more
  · exact ⟨cmd', by rw [hmore]⟩
  · -- another answer would be the whole command's, and end past the prefix
    exfalso
    have hnot : r' ≠ .error .noNewline := by
      intro hbad
      obtain ⟨hlong, -⟩ := hnoline hbad
      cases m with
      | zero => exact absurd hlong (Nat.not_lt_zero _)
      | succ m =>
        rw [hbad, List.take_succ_cons] at hr'
        exact parse_star_noNewline hr'
    have hwhole := parse_append ((42 :: rest).drop m) hr' hmore hnot
    rw [List.take_append_drop, h] at hwhole
    cases hwhole
    have hle := (hdone n rfl).2.1
    rw [List.length_take] at hle
    omega

/-- Of a whole command nothing changes, and of thirteen bytes of it nothing is said. -/
theorem parse_steady_ping : (∀ x, parse (ascii "*1\r\n$4\r\nPING\r\n" ++ x) = .ok (.ok (.done 14), [⟨8, 4⟩])) ∧
    ∃ cmd, parse (ascii "*1\r\n$4\r\nPING\r") = .ok (.ok .more, cmd) := by
  have hping : parse (42 :: ascii "1\r\n$4\r\nPING\r\n") = .ok (.ok (.done 14), [⟨8, 4⟩]) := by decide
  obtain ⟨hsame, hbefore⟩ := parse_steady _ _ _ hping
  exact ⟨hsame nofun, hbefore 14 rfl 13 (by decide)⟩

/-! ## Frames -/

/-- A line of a kind and a signed decimal. The `\r` of its end may be missing. -/
inductive Header (kind : UInt8) (value : Int) : List UInt8 → Prop
  | crlf {text} : Spells text value → Header kind value (kind :: text ++ [13, 10])
  | bare {text} : Spells text value → Header kind value (kind :: text ++ [10])

/-- Bulk strings, one after another: their bodies, what stands behind each in the place of
its terminator, and all of their bytes. -/
inductive Bulks : List (List UInt8) → List (List UInt8) → List UInt8 → Prop
  | nil : Bulks [] [] []
  | cons {header body ending bodies endings rest} : Header 36 body.length header → ending.length = 2 →
      Bulks bodies endings rest →
      Bulks (body :: bodies) (ending :: endings) (header ++ (body ++ (ending ++ rest)))

/-- An array command: its arguments, what stands behind each, and its bytes. -/
inductive Frames : List (List UInt8) → List (List UInt8) → List UInt8 → Prop
  | none {count header} : count < 0 → Header 42 count header → Frames [] [] header
  | some {args endings header rest} : Header 42 args.length header → Bulks args endings rest →
      Frames args endings (header ++ rest)

/-- Every body has its terminator behind it. -/
def Framed (args : List (List UInt8)) (bytes : List UInt8) : Prop :=
  ∃ endings, Frames args endings bytes ∧ ∀ ending ∈ endings, ending = Encoder.crlf

/-! ## There is one way to read them -/

theorem Spells.plain_text {text : List UInt8} {v : Int} (h : Spells text v) : Plain text := by
  have hdigits : ∀ {digits}, Numeral digits → Plain digits := by
    intro digits hnumeral byte hbyte
    have hrange := hnumeral byte hbyte
    constructor
    · intro heq
      rw [heq] at hrange
      exact absurd hrange (by decide)
    · intro heq
      rw [heq] at hrange
      exact absurd hrange (by decide)
  cases h with
  | plain hnumeral => exact hdigits hnumeral
  | plus hnumeral => exact List.forall_mem_cons.mpr ⟨by decide, hdigits hnumeral⟩
  | minus hnumeral => exact List.forall_mem_cons.mpr ⟨by decide, hdigits hnumeral⟩

theorem newline_unique {a b x y : List UInt8} (ha : (10 : UInt8) ∉ a) (hb : (10 : UInt8) ∉ b)
    (h : a ++ 10 :: x = b ++ 10 :: y) : a = b ∧ x = y := by
  have hlen : a.length = b.length := by
    have hfirst : newline (a ++ 10 :: x) = some a.length := newline_here ha
    rw [h, newline_here hb] at hfirst
    exact (Option.some.inj hfirst).symm
  obtain ⟨rfl, hrest⟩ := List.append_inj h hlen
  exact ⟨rfl, (List.cons.inj hrest).2⟩

theorem Header.split {kind : UInt8} {v : Int} {header : List UInt8} (h : Header kind v header) :
    ∃ text cr, Spells text v ∧ header = kind :: (text ++ cr) ++ [10] ∧ (cr = [13] ∨ cr = []) := by
  cases h with
  | @crlf text htext => exact ⟨text, [13], htext, by simp, .inl rfl⟩
  | @bare text htext => exact ⟨text, [], htext, by simp, .inr rfl⟩

/-- A decimal does not take in the end of its line. -/
theorem Plain.end_unique {a b c d : List UInt8} (ha : Plain a) (hb : Plain b) (hc : c = [13] ∨ c = [])
    (hd : d = [13] ∨ d = []) (h : a ++ c = b ++ d) : a = b := by
  have hmem : ∀ {a b : List UInt8}, Plain b → a ++ [13] ≠ b := by
    intro a b hb heq
    have hin : (13 : UInt8) ∈ b := by
      rw [← heq]
      simp
    exact (hb 13 hin).1 rfl
  obtain rfl | rfl := hc
  · obtain rfl | rfl := hd
    · exact List.append_cancel_right h
    · rw [List.append_nil] at h
      exact absurd h (hmem hb)
  · obtain rfl | rfl := hd
    · rw [List.append_nil] at h
      exact absurd h.symm (hmem ha)
    · rwa [List.append_nil, List.append_nil] at h

theorem Header.unique {kind : UInt8} {v w : Int} {header header' x y : List UInt8} (hkind : kind ≠ 10)
    (h : Header kind v header) (h' : Header kind w header') (heq : header ++ x = header' ++ y) :
    v = w ∧ header = header' ∧ x = y := by
  obtain ⟨text, cr, htext, rfl, hcr⟩ := h.split
  obtain ⟨text', cr', htext', rfl, hcr'⟩ := h'.split
  have hline : ∀ {text cr : List UInt8}, Plain text → (cr = [13] ∨ cr = []) → (10 : UInt8) ∉ kind :: (text ++ cr) := by
    intro text cr hplain hcr hmem
    rw [List.mem_cons, List.mem_append] at hmem
    obtain hmem | hmem | hmem := hmem
    · exact hkind hmem.symm
    · exact (hplain 10 hmem).2 rfl
    · obtain rfl | rfl := hcr
      · exact absurd hmem (by decide)
      · exact absurd hmem (by decide)
  rw [List.append_assoc, List.append_assoc] at heq
  obtain ⟨hsame, rfl⟩ := newline_unique (hline htext.plain_text hcr) (hline htext'.plain_text hcr') heq
  obtain rfl := htext.plain_text.end_unique htext'.plain_text hcr hcr' (List.cons.inj hsame).2
  exact ⟨htext.unique htext', by rw [hsame], rfl⟩

theorem Bulks.unique {args args' endings endings' : List (List UInt8)} {bytes bytes' x y : List UInt8}
    (h : Bulks args endings bytes) (h' : Bulks args' endings' bytes') (hlen : args.length = args'.length)
    (heq : bytes ++ x = bytes' ++ y) : args = args' ∧ endings = endings' ∧ bytes = bytes' ∧ x = y := by
  induction h generalizing args' endings' bytes' with
  | nil =>
    cases h' with
    | nil => exact ⟨rfl, rfl, rfl, heq⟩
    | cons => cases hlen
  | @cons header body ending bodies endings rest hheader hending _ ih =>
    cases h' with
    | nil => cases hlen
    | @cons header' body' ending' bodies' endings' rest' hheader' hending' hrest' =>
      simp only [List.append_assoc] at heq
      obtain ⟨hsize, rfl, hbody⟩ := hheader.unique (by decide) hheader' heq
      obtain ⟨rfl, hbehind⟩ := List.append_inj hbody (Int.ofNat.inj hsize)
      obtain ⟨rfl, hmore⟩ := List.append_inj hbehind (hending.trans hending'.symm)
      obtain ⟨rfl, rfl, rfl, hx⟩ := ih hrest' (Nat.succ.inj hlen) hmore
      exact ⟨rfl, rfl, rfl, hx⟩

/-- What the bytes of a stream begin with is one array command at most. -/
theorem Frames.unique {args args' endings endings' : List (List UInt8)} {bytes bytes' x y : List UInt8}
    (h : Frames args endings bytes) (h' : Frames args' endings' bytes') (heq : bytes ++ x = bytes' ++ y) :
    args = args' ∧ endings = endings' ∧ bytes = bytes' := by
  cases h with
  | none hneg hheader =>
    cases h' with
    | none hneg' hheader' => exact ⟨rfl, rfl, (hheader.unique (by decide) hheader' heq).2.1⟩
    | some hheader' _ =>
      -- one line has one number on it, and it is negative or it counts the arguments
      rw [List.append_assoc] at heq
      have hcount := (hheader.unique (by decide) hheader' heq).1
      omega
  | some hheader hbulks =>
    rw [List.append_assoc] at heq
    cases h' with
    | none hneg' hheader' =>
      have hcount := (hheader.unique (by decide) hheader' heq).1
      omega
    | some hheader' hbulks' =>
      rw [List.append_assoc] at heq
      obtain ⟨hcount, rfl, hrest⟩ := hheader.unique (by decide) hheader' heq
      obtain ⟨rfl, rfl, rfl, -⟩ := hbulks.unique hbulks' (Int.ofNat.inj hcount) hrest
      exact ⟨rfl, rfl, rfl⟩

/-! ## What is accepted -/

theorem lineAt_split {buf text : List UInt8} {at_ next : Nat} (h : lineAt buf at_ = some (text, next)) :
    ∃ ending, (ending = [13, 10] ∨ ending = [10]) ∧ buf.drop at_ = text ++ ending ++ buf.drop next ∧
      next = at_ + (text ++ ending).length := by
  obtain ⟨e, he, heq⟩ := Option.map_eq_some_iff.mp h
  obtain ⟨rfl, rfl⟩ := Prod.mk.inj heq
  have hlt := newline_lt he
  have hnewline : (buf.drop at_)[e] = 10 := by
    obtain ⟨_, hfound, -⟩ := List.findIdx?_eq_some_iff_getElem.mp he
    simpa using hfound
  have hsplit : buf.drop at_ = (buf.drop at_).take e ++ [10] ++ buf.drop (at_ + e + 1) := by
    conv_lhs => rw [← List.take_append_drop e (buf.drop at_), List.drop_eq_getElem_cons hlt, hnewline, List.drop_drop]
    simp [Nat.add_assoc]
  have htake : ((buf.drop at_).take e).length = e := by
    rw [List.length_take]
    omega
  rw [trim]
  split
  · next hcr =>
    obtain ⟨hpos, hcr⟩ := hcr
    refine ⟨[13, 10], .inl rfl, ?_, ?_⟩
    · have hlast : (buf.drop at_).take e = (buf.drop at_).take (e - 1) ++ [13] := by
        rw [show e = e - 1 + 1 by omega, List.take_add_one, hcr]
        rfl
      conv_lhs => rw [hsplit, hlast]
      simp
    · rw [List.length_append, List.length_take]
      show at_ + e + 1 = at_ + (min (e - 1) (buf.drop at_).length + 2)
      omega
  · refine ⟨[10], .inr rfl, hsplit, ?_⟩
    rw [List.length_append, htake]
    rfl

theorem lineAt_digits {rest text : List UInt8} {next : Nat} (h : lineAt (42 :: rest) 0 = some (text, next)) :
    ∃ digits ending, text = 42 :: digits ∧ slice text 1 text.length = .ok digits ∧
      (ending = [13, 10] ∨ ending = [10]) ∧ 42 :: rest = text ++ ending ++ (42 :: rest).drop next ∧
      next = (text ++ ending).length := by
  obtain ⟨ending, hending, hsplit, hnext⟩ := lineAt_split h
  rw [List.drop_zero] at hsplit
  cases text with
  | nil => exact absurd (lineAt_star h) (by decide)
  | cons first digits =>
    have hfirst := hsplit
    rw [List.cons_append, List.cons_append] at hfirst
    obtain rfl := (List.cons.inj hfirst).1
    refine ⟨digits, ending, rfl, ?_, hending, hsplit, by rw [hnext, Nat.zero_add]⟩
    rw [slice_ok (lineAt_star h) (Nat.le_refl _), List.drop_one, List.tail_cons, List.length_cons,
      Nat.add_sub_cancel, List.take_length]

theorem header_of_line {kind : UInt8} {digits ending : List UInt8} {v : Int} (hnumber : number digits = .ok v)
    (hending : ending = [13, 10] ∨ ending = [10]) : Header kind v (kind :: digits ++ ending) := by
  have hspells := (number_ok_iff.mp hnumber).1
  obtain rfl | rfl := hending
  · exact .crlf hspells
  · exact .bare hspells

theorem bulkLen_other {kind : UInt8} (h : kind ≠ 36) (digits : List UInt8) :
    bulkLen (kind :: digits) = .error .expectedBulk := by
  rw [bulkLen.eq_def]
  split
  · next hcons => exact absurd (List.cons.inj hcons).1 h
  · rfl

theorem bulkLen_ok {header : List UInt8} {len : Nat} (h : bulkLen header = .ok len) :
    ∃ digits, header = 36 :: digits ∧ number digits = .ok (len : Int) ∧ len ≤ maxBulk := by
  unfold bulkLen at h
  split at h
  · next digits =>
    refine ⟨digits, rfl, ?_⟩
    cases hnumber : number digits with
    | error bad =>
      rw [hnumber] at h
      cases h
    | ok v =>
      rw [hnumber] at h
      simp only at h
      split at h
      · cases h
      · cases h
        exact ⟨by rw [Int.toNat_of_nonneg (by omega)], by omega⟩
  · cases h

theorem push_ok {cmd cmd' : Command} {at_ len : Nat} (h : cmd.push at_ len = .ok cmd') :
    ∃ span : Span, cmd' = cmd ++ [span] ∧ span.at_.toNat = at_ ∧ span.len.toNat = len ∧ cmd.length < maxArgs := by
  unfold Command.push at h
  split at h
  · cases h
  · split at h
    · next hfit =>
      cases h
      exact ⟨_, rfl, UInt32.toNat_ofNat_of_lt' hfit.1, UInt32.toNat_ofNat_of_lt' hfit.2, by omega⟩
    · cases h

/-- The place a span stands for. -/
def Spans (buf : List UInt8) (span : Span) (arg : List UInt8) : Prop :=
  within buf span.at_.toNat (span.at_.toNat + span.len.toNat) = some arg

theorem spans_body {buf body rest : List UInt8} {at_ : Nat} {span : Span} (hat : span.at_.toNat = at_)
    (hlen : span.len.toNat = body.length) (hle : at_ ≤ buf.length) (h : buf.drop at_ = body ++ rest) :
    Spans buf span body := by
  have hbuf := congrArg List.length h
  rw [List.length_drop, List.length_append] at hbuf
  rw [Spans, hat, hlen, within, if_pos ⟨by omega, by omega⟩, h, Nat.add_sub_cancel_left, List.take_left]

theorem bulks_frames {buf : List UInt8} {count at_ n : Nat} {into cmd : Command}
    (h : bulks buf count at_ into = .ok (.ok (.done n), cmd)) (hat : at_ ≤ buf.length) :
    ∃ args endings bytes spans, Bulks args endings bytes ∧ args.length = count ∧
      buf.drop at_ = bytes ++ buf.drop n ∧ n = at_ + bytes.length ∧ cmd = into ++ spans ∧
      List.Forall₂ (Spans buf) spans args := by
  -- on the count: one bulk string is read off, and the rest start where its two bytes end
  induction count generalizing at_ into with
  | zero =>
    cases h
    exact ⟨[], [], [], [], .nil, rfl, rfl, rfl, (List.append_nil _).symm, .nil⟩
  | succ count ih =>
    obtain ⟨text, next, len, into', hline, hlen, hroom, hpush, h⟩ := bulks_done h
    obtain ⟨args, endings, bytes, spans, hbulks, hcount, hdrop, hn, hcmd, hspans⟩ := ih h (by omega)
    obtain ⟨ending, hending, hsplit, hnext⟩ := lineAt_split hline
    obtain ⟨digits, rfl, hnumber, -⟩ := bulkLen_ok hlen
    obtain ⟨span, rfl, hspan, hspanLen, -⟩ := push_ok hpush
    -- the body, and what is stepped over behind it
    let body := (buf.drop next).take len
    let behind := (buf.drop (next + len)).take 2
    have hbody : body.length = len := by
      rw [List.length_take, List.length_drop]
      omega
    have hbehind : behind.length = 2 := by
      rw [List.length_take, List.length_drop]
      omega
    have hrest : buf.drop next = body ++ (behind ++ (bytes ++ buf.drop n)) := by
      rw [← hdrop, ← List.drop_drop (i := 2),
        List.take_append_drop, ← List.drop_drop (i := len), List.take_append_drop]
    rw [← hbody] at hnumber
    refine ⟨body :: args, behind :: endings, _, span :: spans,
      .cons (header_of_line hnumber hending) hbehind hbulks, by rw [List.length_cons, hcount], ?_, ?_, ?_, ?_⟩
    · rw [hsplit, hrest]
      simp only [List.append_assoc]
    · simp only [List.length_append, hbody, hbehind] at hnext ⊢
      omega
    · rw [hcmd, List.append_assoc]
      rfl
    · exact .cons (spans_body hspan (by rw [hspanLen, hbody]) (by omega) hrest) hspans

theorem arg_spans {buf : List UInt8} {cmd : Command} {args : List (List UInt8)}
    (h : List.Forall₂ (Spans buf) cmd args) (k : Nat) : cmd.arg k buf = args[k]? := by
  rw [Command.arg]
  by_cases hk : k < cmd.length
  · have hk' : k < args.length := by rwa [← h.length_eq]
    have harg := h.get hk hk'
    rw [List.getElem?_eq_getElem hk, List.getElem?_eq_getElem hk']
    exact harg
  · rw [List.getElem?_eq_none (by omega), List.getElem?_eq_none (by rw [← h.length_eq]; omega)]
    rfl

theorem args_spans {buf : List UInt8} {cmd : Command} {args : List (List UInt8)}
    (h : List.Forall₂ (Spans buf) cmd args) : cmd.args buf = args := by
  rw [Command.args]
  apply List.ext_getElem?
  intro k
  simp only [List.getElem?_map, arg_spans h]
  by_cases hk : k < cmd.length
  · rw [List.getElem?_range hk, Option.map_some, List.getElem?_eq_getElem (by rwa [← h.length_eq]), Option.getD_some]
  · rw [List.getElem?_eq_none (by rw [List.length_range]; omega),
      List.getElem?_eq_none (by rw [← h.length_eq]; omega)]
    rfl

/-- An array command that is accepted is frames, its arguments are their bodies, and the
spans are where those are. -/
theorem parse_frames {rest : List UInt8} {n : Nat} {cmd : Command}
    (h : parse (42 :: rest) = .ok (.ok (.done n), cmd)) :
    ∃ args endings, Frames args endings ((42 :: rest).take n) ∧ List.Forall₂ (Spans (42 :: rest)) cmd args := by
  obtain ⟨text, next, digits, count, hline, hslice, hnumber, hend⟩ := parse_star_done h
  obtain ⟨digits', ending, rfl, hslice', hending, hsplit, hnext⟩ := lineAt_digits hline
  obtain ⟨-, hbuf, -⟩ := lineAt_some hline
  rw [hslice, Except.ok.injEq] at hslice'
  subst hslice'
  have hheader : Header 42 count (42 :: digits ++ ending) := header_of_line hnumber hending
  have htake : ∀ bytes, (42 :: rest) = 42 :: digits ++ ending ++ bytes ++ (42 :: rest).drop n →
      n = next + bytes.length → (42 :: rest).take n = 42 :: digits ++ ending ++ bytes := by
    intro bytes hbytes hn
    conv_lhs => rw [hbytes]
    rw [List.take_left' (by rw [List.length_append, hn, hnext])]
  obtain ⟨hneg, rfl, rfl⟩ | ⟨hpos, -, hall⟩ := hend
  · rw [htake [] (by rw [List.append_nil]; exact hsplit) rfl, List.append_nil]
    exact ⟨[], [], .none hneg hheader, .nil⟩
  · obtain ⟨args, endings, bytes, spans, hbulks, hcount, hdrop, hn, rfl, hspans⟩ := bulks_frames hall hbuf
    rw [htake bytes (by rw [List.append_assoc, ← hdrop]; exact hsplit) hn]
    refine ⟨args, endings, .some ?_ hbulks, hspans⟩
    rwa [hcount, Int.toNat_of_nonneg (by omega)]

/-- Wherever an array command stands at the front of the buffer, each of its bodies has
its terminator behind it. -/
def Terminated (buf : List UInt8) : Prop :=
  ∀ args endings bytes rest, buf = bytes ++ rest → Frames args endings bytes → ∀ ending ∈ endings, ending = Encoder.crlf

/-- An accepted command is well framed exactly when the bytes stepped over are
terminators. -/
theorem framed_iff (rest : List UInt8) (n : Nat) (cmd : Command)
    (h : parse (42 :: rest) = .ok (.ok (.done n), cmd)) :
    Framed (cmd.args (42 :: rest)) ((42 :: rest).take n) ↔ Terminated (42 :: rest) := by
  obtain ⟨args, endings, hframes, hspans⟩ := parse_frames h
  rw [args_spans hspans]
  constructor
  · -- there is one way to read the buffer, so the endings are the same in both readings
    intro ⟨endings', hframes', hcrlf⟩ args'' endings'' bytes x hbuf hframes''
    have heq : (42 :: rest).take n ++ (42 :: rest).drop n = bytes ++ x := by
      rw [List.take_append_drop, hbuf]
    obtain ⟨-, rfl, -⟩ := hframes'.unique hframes'' heq
    exact hcrlf
  · intro hterminated
    exact ⟨endings, hframes, hterminated args endings _ _ (List.take_append_drop n _).symm hframes⟩

theorem framed_ping : Terminated (ascii "*1\r\n$4\r\nPING\r\n") := by
  have hping : parse (42 :: ascii "1\r\n$4\r\nPING\r\n") = .ok (.ok (.done 14), [⟨8, 4⟩]) := by decide
  have hone : Spells (ascii "1") 1 := .plain (by decide) (by decide)
  have hfour : Spells (ascii "4") 4 := .plain (by decide) (by decide)
  apply (framed_iff _ _ _ hping).mp
  refine ⟨[Encoder.crlf], ?_, by decide⟩
  have hbody : Bulks [ascii "PING"] [Encoder.crlf] _ := .cons (.crlf hfour) rfl .nil
  have hframes : Frames [ascii "PING"] [Encoder.crlf] _ := .some (.crlf hone) hbody
  exact hframes

/-- A body with anything behind it is taken as a whole command. -/
theorem unframed_accepted : parse (ascii "*1\r\n$1\r\naXX") = .ok (.ok (.done 11), [⟨8, 1⟩]) ∧
    Command.args [⟨8, 1⟩] (ascii "*1\r\n$1\r\naXX") = [ascii "a"] ∧
    ¬ Framed (Command.args [⟨8, 1⟩] (ascii "*1\r\n$1\r\naXX")) ((ascii "*1\r\n$1\r\naXX").take 11) := by
  refine ⟨by decide, by decide, ?_⟩
  intro ⟨endings, hframes, hcrlf⟩
  have hone : Spells (ascii "1") 1 := .plain (by decide) (by decide)
  have hbody : Bulks [ascii "a"] [ascii "XX"] _ := .cons (.crlf hone) rfl .nil
  have hthis : Frames [ascii "a"] [ascii "XX"] _ := .some (.crlf hone) hbody
  obtain ⟨-, rfl, -⟩ := hframes.unique (x := []) (y := []) hthis (by decide)
  exact absurd (hcrlf _ List.mem_cons_self) (by decide)

end Rugo.Resp
