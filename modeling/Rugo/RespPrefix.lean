import Rugo.Resp

/- What a parse may say before everything is here. The parser starts again from
   the front of the buffer each time more has arrived, so what counts is how its
   answer changes when bytes are added behind it, or taken away:

     1. `parse_ok`, `parse_done_le`: it always answers, and a command ends
        inside the buffer, past its start.
     2. `parse_append`: a command, or an error other than a line that is too
        long so far, stays what it is whatever follows.
     3. `parse_shrink`: a command needs nothing but its own bytes.
     4. `parse_noNewline`: the one error that says how much has arrived. -/
namespace Rugo.Resp
open Exec

/-! ## Lines -/

/-- A line without the `\r` of its terminator. -/
def trim (from_ : List UInt8) (end_ : Nat) : List UInt8 :=
  if 0 < end_ ∧ from_[end_ - 1]? = some 13 then from_.take (end_ - 1) else from_.take end_

/-- The line starting at `at_`, where the bounds are left to the list. -/
def lineAt (buf : List UInt8) (at_ : Nat) : Option (List UInt8 × Nat) :=
  (newline (buf.drop at_)).map fun end_ => (trim (buf.drop at_) end_, at_ + end_ + 1)

theorem newline_lt {from_ : List UInt8} {e : Nat} (h : newline from_ = some e) :
    e < from_.length := by
  obtain ⟨hlt, -⟩ := List.findIdx?_eq_some_iff_getElem.mp h
  exact hlt

theorem newline_append_some {p : List UInt8} {e : Nat} (x : List UInt8) (h : newline p = some e) :
    newline (p ++ x) = some e := by
  unfold newline at *
  rw [List.findIdx?_append, h]
  rfl

theorem newline_shrink {p x : List UInt8} {e : Nat} (h : newline (p ++ x) = some e)
    (he : e < p.length) : newline p = some e := by
  unfold newline at *
  rw [List.findIdx?_append] at h
  cases hp : p.findIdx? (fun byte => byte == 10) with
  | some e' =>
    rw [hp] at h
    exact h
  | none =>
    rw [hp] at h
    obtain ⟨y, -, hy⟩ := Option.map_eq_some_iff.mp h
    omega

theorem text_eq {from_ : List UInt8} {e : Nat} (h : e ≤ from_.length) :
    text from_ e = .ok (trim from_ e) := by
  unfold text trim
  by_cases he : 0 < e
  · have hi : e - 1 < from_.length := by omega
    rw [if_pos he, index_ok hi, ok_bind, List.getElem?_eq_getElem hi]
    by_cases hb : from_[e - 1] = 13
    · rw [if_pos hb, if_pos ⟨he, by rw [hb]⟩, slice_ok (Nat.zero_le _) (by omega)]
      rfl
    · rw [if_neg hb, if_neg (fun hc => hb (Option.some.inj hc.2)), slice_ok (Nat.zero_le _) h]
      rfl
  · rw [if_neg he, if_neg (fun hc => he hc.1), slice_ok (Nat.zero_le _) h]
    rfl

theorem line_eq (buf : List UInt8) (at_ : Nat) : line buf at_ = .ok (lineAt buf at_) := by
  have hdrop : buf.drop (min at_ buf.length) = buf.drop at_ := by
    rcases Nat.le_total at_ buf.length with h | h
    · rw [Nat.min_eq_left h]
    · rw [Nat.min_eq_right h, List.drop_length, List.drop_eq_nil_of_le h]
  unfold line lineAt
  simp only [hdrop]
  cases hn : newline (buf.drop at_) with
  | none => rfl
  | some e => simp [text_eq (Nat.le_of_lt (newline_lt hn))]

theorem trim_length_le (from_ : List UInt8) (e : Nat) : (trim from_ e).length ≤ e := by
  unfold trim
  split <;> rw [List.length_take] <;> omega

theorem trim_append {p : List UInt8} {e : Nat} (x : List UInt8) (h : e < p.length) :
    trim (p ++ x) e = trim p e := by
  unfold trim
  rw [List.getElem?_append_left (by omega), List.take_append_of_le_length (by omega),
    List.take_append_of_le_length (by omega)]

theorem lineAt_some {buf line : List UInt8} {at_ next : Nat} (h : lineAt buf at_ = some (line, next)) :
    at_ < next ∧ next ≤ buf.length ∧ at_ + line.length < next := by
  obtain ⟨e, he, heq⟩ := Option.map_eq_some_iff.mp h
  obtain ⟨rfl, rfl⟩ := Prod.mk.inj heq
  have hlt := newline_lt he
  have hle := trim_length_le (buf.drop at_) e
  rw [List.length_drop] at hlt
  omega

theorem lineAt_append {p line : List UInt8} {at_ next : Nat} (x : List UInt8)
    (h : lineAt p at_ = some (line, next)) : lineAt (p ++ x) at_ = some (line, next) := by
  obtain ⟨e, he, heq⟩ := Option.map_eq_some_iff.mp h
  have hlt := newline_lt he
  have hat : at_ ≤ p.length := by
    rw [List.length_drop] at hlt
    omega
  rw [lineAt, List.drop_append_of_le_length hat, newline_append_some x he, Option.map_some,
    trim_append x hlt, heq]

theorem lineAt_shrink {p x line : List UInt8} {at_ next : Nat}
    (h : lineAt (p ++ x) at_ = some (line, next)) (hn : next ≤ p.length) :
    lineAt p at_ = some (line, next) := by
  have hat := (lineAt_some h).1
  obtain ⟨e, he, heq⟩ := Option.map_eq_some_iff.mp h
  obtain ⟨hline, hnext⟩ := Prod.mk.inj heq
  rw [List.drop_append_of_le_length (by omega)] at he hline
  have hlt : e < (p.drop at_).length := by
    rw [List.length_drop]
    omega
  rw [lineAt, newline_shrink he hlt, Option.map_some, ← hnext, ← hline, trim_append x hlt]

theorem lineAt_zero (buf : List UInt8) : lineAt buf 0 = none ↔ newline buf = none := by
  simp [lineAt]

/-! ## Arguments -/

namespace Command

def Below (cmd : Command) (n : Nat) : Prop :=
  ∀ span ∈ cmd, span.at_.toNat + span.len.toNat ≤ n

theorem Below.mono {cmd : Command} {m n : Nat} (h : cmd.Below m) (hmn : m ≤ n) : cmd.Below n :=
  fun span hs => Nat.le_trans (h span hs) hmn

theorem push_below {cmd cmd' : Command} {at_ len n : Nat} (h : cmd.Below n)
    (hp : cmd.push at_ len = .ok cmd') (hn : at_ + len ≤ n) : cmd'.Below n := by
  unfold push at hp
  split at hp
  · cases hp
  · split at hp
    · next hfit =>
      cases hp
      intro span hs
      rcases List.mem_append.mp hs with hs | hs
      · exact h span hs
      · rw [List.mem_singleton] at hs
        subst hs
        have h1 := UInt32.toNat_ofNat_of_lt' (n := at_) hfit.1
        have h2 := UInt32.toNat_ofNat_of_lt' (n := len) hfit.2
        simp only [h1, h2]
        exact hn
    · cases hp

theorem push_noNewline {cmd : Command} {at_ len : Nat} : cmd.push at_ len ≠ .error .noNewline := by
  unfold push
  split
  · simp
  · split <;> simp

theorem args_take {cmd : Command} {n : Nat} (h : cmd.Below n) (buf x : List UInt8)
    (hn : n ≤ buf.length) : cmd.args (buf.take n ++ x) = cmd.args buf := by
  unfold args
  apply List.map_congr_left
  intro k hk
  have hk' : k < cmd.length := List.mem_range.mp hk
  have hspan := h cmd[k] (List.getElem_mem hk')
  have hlen : (buf.take n).length = n := by rw [List.length_take]; omega
  simp only [arg, List.getElem?_eq_getElem hk', Option.bind_eq_bind, Option.bind_some, within]
  rw [if_pos ⟨by omega, by rw [List.length_append]; omega⟩, if_pos ⟨by omega, by omega⟩]
  congr 2
  rw [List.drop_append_of_le_length (by omega), List.take_append_of_le_length
    (by rw [List.length_drop]; omega), List.drop_take, List.take_take]
  congr 1
  omega

end Command

/-! ## The array form -/

theorem digitsFrom_noNewline (ds : List UInt8) (v : Int) : digitsFrom ds v ≠ .error .noNewline := by
  induction ds generalizing v with
  | nil => simp [digitsFrom]
  | cons d ds ih =>
    unfold digitsFrom
    split
    · simp
    · split
      · exact ih _
      · simp

theorem number_noNewline (ds : List UInt8) : number ds ≠ .error .noNewline := by
  unfold number
  simp only
  split
  · simp
  · cases hd : digitsFrom (signed ds).2 0 with
    | ok v => simp
    | error bad =>
      intro hb
      cases hb
      exact digitsFrom_noNewline _ _ hd

theorem bulkLen_noNewline (header : List UInt8) : bulkLen header ≠ .error .noNewline := by
  unfold bulkLen
  split
  · next digits =>
    cases hd : number digits with
    | ok v => simp only; split <;> simp
    | error bad =>
      intro hb
      cases hb
      exact number_noNewline _ hd
  · simp

theorem bulks_succ (buf : List UInt8) (count at_ : Nat) (into : Command) :
    bulks buf (count + 1) at_ into =
      match lineAt buf at_ with
      | none => .ok (.ok .more, into)
      | some (header, next) =>
        match bulkLen header with
        | .error bad => .ok (.error bad, into)
        | .ok len =>
          if buf.length < next + len + 2 then .ok (.ok .more, into)
          else match into.push next len with
            | .error bad => .ok (.error bad, into)
            | .ok into => bulks buf count (next + len + 2) into := by
  rw [bulks, line_eq, ok_bind]
  rfl

/-- A run that got to the end took its first bulk string whole. -/
theorem bulks_done {buf : List UInt8} {count at_ n : Nat} {into cmd : Command}
    (h : bulks buf (count + 1) at_ into = .ok (.ok (.done n), cmd)) :
    ∃ header next len into', lineAt buf at_ = some (header, next) ∧ bulkLen header = .ok len ∧
      next + len + 2 ≤ buf.length ∧ into.push next len = .ok into' ∧
      bulks buf count (next + len + 2) into' = .ok (.ok (.done n), cmd) := by
  rw [bulks_succ] at h
  cases hline : lineAt buf at_ with
  | none =>
    rw [hline] at h
    cases h
  | some found =>
    obtain ⟨header, next⟩ := found
    rw [hline] at h
    simp only at h
    cases hlen : bulkLen header with
    | error bad =>
      rw [hlen] at h
      cases h
    | ok len =>
      rw [hlen] at h
      simp only at h
      split at h
      · cases h
      · next hroom =>
        cases hpush : into.push next len with
        | error bad =>
          rw [hpush] at h
          cases h
        | ok into' =>
          rw [hpush] at h
          exact ⟨header, next, len, into', rfl, hlen, Nat.not_lt.mp hroom, hpush, h⟩

theorem bulks_cases (buf : List UInt8) (count at_ : Nat) (into : Command) (hat : at_ ≤ buf.length)
    (hinto : into.Below at_) :
    ∃ r cmd, bulks buf count at_ into = .ok (r, cmd) ∧ r ≠ .error .noNewline ∧
      ∀ n, r = .ok (.done n) → at_ ≤ n ∧ n ≤ buf.length ∧ cmd.Below n := by
  induction count generalizing at_ into with
  | zero => exact ⟨.ok (.done at_), into, rfl, by simp, fun n hn => by cases hn; exact ⟨by omega, hat, hinto⟩⟩
  | succ count ih =>
    rw [bulks_succ]
    cases hl : lineAt buf at_ with
    | none => exact ⟨_, _, rfl, by simp, fun n hn => by cases hn⟩
    | some found =>
      obtain ⟨header, next⟩ := found
      have hnext := lineAt_some hl
      simp only
      cases hb : bulkLen header with
      | error bad =>
        exact ⟨_, _, rfl, fun h => bulkLen_noNewline header (by rw [hb, Except.error.inj h]),
          fun n hn => by cases hn⟩
      | ok len =>
        simp only
        split
        · exact ⟨_, _, rfl, by simp, fun n hn => by cases hn⟩
        · next hlen =>
          cases hp : into.push next len with
          | error bad =>
            exact ⟨_, _, rfl, fun h => Command.push_noNewline (by rw [hp, Except.error.inj h]),
              fun n hn => by cases hn⟩
          | ok into' =>
            -- the span pushed ends before the bulk does
            have hbelow : into'.Below (next + len + 2) :=
              Command.push_below (hinto.mono (by omega)) hp (by omega)
            obtain ⟨r, cmd, hr, hnn, hdone⟩ := ih (next + len + 2) into' (by omega) hbelow
            refine ⟨r, cmd, hr, hnn, ?_⟩
            intro n hn
            obtain ⟨hle, hbuf, hspans⟩ := hdone n hn
            exact ⟨by omega, hbuf, hspans⟩

theorem bulks_append {p : List UInt8} {count at_ : Nat} {into cmd : Command} {r : Except Bad Parsed}
    (x : List UInt8) (h : bulks p count at_ into = .ok (r, cmd)) (hr : r ≠ .ok .more) :
    bulks (p ++ x) count at_ into = .ok (r, cmd) := by
  induction count generalizing at_ into with
  | zero => exact h
  | succ count ih =>
    rw [bulks_succ] at h ⊢
    cases hl : lineAt p at_ with
    | none =>
      rw [hl] at h
      cases h
      exact absurd rfl hr
    | some found =>
      obtain ⟨header, next⟩ := found
      rw [hl] at h
      rw [lineAt_append x hl]
      simp only at h ⊢
      cases hb : bulkLen header with
      | error bad => rwa [hb] at h
      | ok len =>
        rw [hb] at h
        simp only at h ⊢
        split at h
        · cases h
          exact absurd rfl hr
        · next hlen =>
          rw [if_neg (by rw [List.length_append]; omega)]
          cases hp : into.push next len with
          | error bad => rwa [hp] at h
          | ok into' =>
            rw [hp] at h
            exact ih h

theorem bulks_shrink {p x : List UInt8} {count at_ m : Nat} {into cmd : Command}
    (h : bulks (p ++ x) count at_ into = .ok (.ok (.done m), cmd)) (hm : m ≤ p.length)
    (hat : at_ ≤ (p ++ x).length) (hinto : into.Below at_) :
    bulks p count at_ into = .ok (.ok (.done m), cmd) := by
  induction count generalizing at_ into with
  | zero => exact h
  | succ count ih =>
    obtain ⟨header, next, len, into', hl, hb, hlen, hp, h⟩ := bulks_done h
    have hnext := lineAt_some hl
    have hbelow : into'.Below (next + len + 2) := Command.push_below (hinto.mono (by omega)) hp (by omega)
    -- the rest of the run ends no earlier than it starts
    obtain ⟨r, c, hr, -, hdone⟩ := bulks_cases (p ++ x) count (next + len + 2) into' hlen hbelow
    rw [h] at hr
    cases hr
    have hle := hdone m rfl
    rw [bulks_succ, lineAt_shrink hl (by omega)]
    simp only [hb, hp]
    rw [if_neg (by omega)]
    exact ih h (by omega) hbelow

/-! ## Either form -/

theorem wordEnd_le (line : List UInt8) {cursor : Nat} (h : cursor < line.length) :
    wordEnd line cursor ≤ line.length := by
  have hle := (List.takeWhile_sublist (fun byte => !isSpace byte) (l := line.drop cursor)).length_le
  rw [List.length_drop] at hle
  unfold wordEnd
  omega

theorem words_cases (line : List UInt8) (cursor : Nat) (into : Command) (n : Nat)
    (hn : line.length < n) (hinto : into.Below n) :
    (words line cursor into).1 ≠ .error .noNewline ∧ (words line cursor into).2.Below n := by
  induction cursor, into using words.induct line with
  | case1 cursor into h hs ih =>
    rw [words, dif_pos h, dif_pos hs]
    exact ih hinto
  | case2 cursor into h hs bad hp =>
    rw [words, dif_pos h, dif_neg hs]
    simp only [hp]
    exact ⟨fun he => Command.push_noNewline (by rw [hp, Except.error.inj he]), hinto⟩
  | case3 cursor into h hs into' hp ih =>
    rw [words, dif_pos h, dif_neg hs]
    simp only [hp]
    have hend := wordEnd_le line h
    refine ih (Command.push_below hinto hp ?_)
    omega
  | case4 cursor into h =>
    rw [words, dif_neg h]
    exact ⟨by simp, hinto⟩

theorem parseArray_eq (buf : List UInt8) : parseArray buf =
    match lineAt buf 0 with
    | none => .ok (.ok .more, [])
    | some (header, at_) =>
      slice header 1 header.length >>= fun digits =>
      match number digits with
      | .error bad => .ok (.error bad, [])
      | .ok count =>
        if count < 0 then .ok (.ok (.done at_), [])
        else if count.toNat > maxArgs then .ok (.error .tooManyArguments, [])
        else bulks buf count.toNat at_ [] := by
  rw [parseArray, line_eq, ok_bind]
  rfl

theorem parseInline_eq (buf : List UInt8) : parseInline buf =
    match lineAt buf 0 with
    | none => if buf.length > maxInline then .ok (.error .noNewline, []) else .ok (.ok .more, [])
    | some (line, at_) =>
      match words line 0 [] with
      | (.error bad, into) => .ok (.error bad, into)
      | (.ok (), into) => .ok (.ok (.done at_), into) := by
  rw [parseInline, line_eq, ok_bind]
  rfl

theorem lineAt_star {rest header : List UInt8} {next : Nat}
    (h : lineAt (42 :: rest) 0 = some (header, next)) : 1 ≤ header.length := by
  obtain ⟨e, he, heq⟩ := Option.map_eq_some_iff.mp h
  rw [List.drop_zero] at he heq
  have hlt := newline_lt he
  have hpos : e ≠ 0 := by
    intro h0
    subst h0
    simp [newline, List.findIdx?_cons] at he
  rw [← (Prod.mk.inj heq).1, trim]
  split
  · next hr =>
    have hne : e - 1 ≠ 0 := by
      intro h0
      rw [h0] at hr
      simp at hr
    rw [List.length_take]
    omega
  · rw [List.length_take]
    omega

/-- An array command that was accepted: its line and the number on it, and no strings behind
a negative one. -/
theorem parse_star_done {rest : List UInt8} {n : Nat} {cmd : Command}
    (h : parse (42 :: rest) = .ok (.ok (.done n), cmd)) :
    ∃ header next digits count, lineAt (42 :: rest) 0 = some (header, next) ∧
      slice header 1 header.length = .ok digits ∧ number digits = .ok count ∧
      (count < 0 ∧ n = next ∧ cmd = [] ∨
        ¬ count < 0 ∧ ¬ count.toNat > maxArgs ∧ bulks (42 :: rest) count.toNat next [] = .ok (.ok (.done n), cmd)) := by
  rw [parse, if_pos rfl, parseArray_eq] at h
  cases hline : lineAt (42 :: rest) 0 with
  | none =>
    rw [hline] at h
    cases h
  | some found =>
    obtain ⟨header, next⟩ := found
    have hslice := slice_ok (lineAt_star hline) (Nat.le_refl _)
    rw [hline] at h
    simp only [hslice, ok_bind] at h
    cases hnumber : number ((header.drop 1).take (header.length - 1)) with
    | error bad =>
      rw [hnumber] at h
      cases h
    | ok count =>
      rw [hnumber] at h
      simp only at h
      refine ⟨header, next, _, count, rfl, hslice, hnumber, ?_⟩
      split at h
      · next hneg =>
        cases h
        exact .inl ⟨hneg, rfl, rfl⟩
      · next hneg =>
        split at h
        · cases h
        · next hmax => exact .inr ⟨hneg, hmax, h⟩

theorem parse_inline_done {first : UInt8} {rest : List UInt8} {n : Nat} {cmd : Command} (hstar : ¬ first = 42)
    (h : parse (first :: rest) = .ok (.ok (.done n), cmd)) :
    ∃ line, lineAt (first :: rest) 0 = some (line, n) ∧ words line 0 [] = (.ok (), cmd) := by
  rw [parse, if_neg hstar, parseInline_eq] at h
  cases hline : lineAt (first :: rest) 0 with
  | none =>
    rw [hline] at h
    simp only at h
    split at h <;> cases h
  | some found =>
    obtain ⟨line, next⟩ := found
    rw [hline] at h
    simp only at h
    rcases hwords : words line 0 [] with ⟨bad | _, into⟩
    · rw [hwords] at h
      cases h
    · rw [hwords] at h
      cases h
      exact ⟨line, rfl, hwords⟩

theorem parse_cases (buf : List UInt8) : ∃ r cmd, parse buf = .ok (r, cmd) ∧
    (∀ n, r = .ok (.done n) → 0 < n ∧ n ≤ buf.length ∧ cmd.Below n) ∧
    (r = .error .noNewline → maxInline < buf.length ∧ newline buf = none) := by
  cases buf with
  | nil => exact ⟨.ok .more, [], rfl, by simp, by simp⟩
  | cons first rest =>
    by_cases hstar : first = 42
    -- an array: its header, and then a bulk for each argument
    · subst hstar
      rw [parse, if_pos rfl, parseArray_eq]
      cases hl : lineAt (42 :: rest) 0 with
      | none => exact ⟨_, _, rfl, by simp, by simp⟩
      | some found =>
        obtain ⟨header, next⟩ := found
        have hnext := lineAt_some hl
        have hheader := lineAt_star hl
        simp only
        rw [slice_ok hheader (Nat.le_refl _), ok_bind]
        cases hn : number ((header.drop 1).take (header.length - 1)) with
        | error bad =>
          refine ⟨.error bad, [], rfl, by simp, ?_⟩
          intro hb
          rw [Except.error.inj hb] at hn
          exact absurd hn (number_noNewline _)
        | ok count =>
          simp only
          split
          · exact ⟨_, _, rfl, fun n hn => by cases hn; exact ⟨by omega, hnext.2.1, by simp [Command.Below]⟩,
              by simp⟩
          · split
            · exact ⟨_, _, rfl, by simp, by simp⟩
            · obtain ⟨r, cmd, hr, hnn, hdone⟩ := bulks_cases (42 :: rest) count.toNat next []
                hnext.2.1 (by simp [Command.Below])
              refine ⟨r, cmd, hr, ?_, fun h => absurd h hnn⟩
              intro n hn
              obtain ⟨hle, hbuf, hspans⟩ := hdone n hn
              exact ⟨by omega, hbuf, hspans⟩
    -- a line of words
    · rw [parse, if_neg hstar, parseInline_eq]
      cases hl : lineAt (first :: rest) 0 with
      | none =>
        simp only
        split
        · next hlen => exact ⟨_, _, rfl, by simp, fun _ => ⟨hlen, (lineAt_zero _).mp hl⟩⟩
        · exact ⟨_, _, rfl, by simp, by simp⟩
      | some found =>
        obtain ⟨line, next⟩ := found
        have hnext := lineAt_some hl
        obtain ⟨hnn, hbelow⟩ := words_cases line 0 [] next (by omega) (by simp [Command.Below])
        simp only
        cases hw : words line 0 [] with
        | mk res cmd =>
          rw [hw] at hnn hbelow
          cases res with
          | error bad => exact ⟨_, _, rfl, by simp, fun h => absurd (by simpa using h) hnn⟩
          | ok _ =>
            exact ⟨_, _, rfl, fun n hn => by cases hn; exact ⟨by omega, hnext.2.1, hbelow⟩, by simp⟩

def parsed (buf : List UInt8) : Outcome :=
  match parse buf with
  | .ok r => r
  | .error _ => (.ok .more, [])

theorem parse_ok (buf : List UInt8) : parse buf = .ok (parsed buf) := by
  obtain ⟨r, cmd, h, -⟩ := parse_cases buf
  rw [parsed, h]

theorem parsed_nil : parsed [] = (.ok .more, []) := rfl

theorem parsed_done_le {buf : List UInt8} {n : Nat} {cmd : Command}
    (h : parsed buf = (.ok (.done n), cmd)) : 0 < n ∧ n ≤ buf.length ∧ cmd.Below n := by
  obtain ⟨r, cmd', hp, hdone, -⟩ := parse_cases buf
  rw [parse_ok, h] at hp
  cases hp
  exact hdone n rfl

/-- A whole command, or an error other than a line that is too long so far,
stays what it is whatever follows. -/
theorem parse_append {p : List UInt8} {r : Except Bad Parsed} {cmd : Command} (x : List UInt8)
    (h : parse p = .ok (r, cmd)) (hmore : r ≠ .ok .more) (hline : r ≠ .error .noNewline) :
    parse (p ++ x) = .ok (r, cmd) := by
  cases p with
  | nil =>
    cases h
    exact absurd rfl hmore
  | cons first rest =>
    rw [List.cons_append]
    by_cases hstar : first = 42
    · subst hstar
      rw [parse, if_pos rfl, parseArray_eq] at h ⊢
      cases hl : lineAt (42 :: rest) 0 with
      | none =>
        rw [hl] at h
        cases h
        exact absurd rfl hmore
      | some found =>
        obtain ⟨header, next⟩ := found
        -- a line that has ended is the same line with more behind it
        have hext := lineAt_append x hl
        rw [List.cons_append] at hext
        rw [hl] at h
        rw [hext]
        simp only at h ⊢
        rw [slice_ok (lineAt_star hl) (Nat.le_refl _), ok_bind] at h ⊢
        cases hn : number ((header.drop 1).take (header.length - 1)) with
        | error bad => rwa [hn] at h
        | ok count =>
          rw [hn] at h
          simp only at h ⊢
          split
          · next hneg => rwa [if_pos hneg] at h
          · next hneg =>
            rw [if_neg hneg] at h
            split
            · next hmax => rwa [if_pos hmax] at h
            · next hmax =>
              rw [if_neg hmax] at h
              exact bulks_append x h hmore
    · rw [parse, if_neg hstar, parseInline_eq] at h ⊢
      cases hl : lineAt (first :: rest) 0 with
      | none =>
        rw [hl] at h
        simp only at h
        split at h
        · cases h
          exact absurd rfl hline
        · cases h
          exact absurd rfl hmore
      | some found =>
        have hext := lineAt_append x hl
        rw [List.cons_append] at hext
        rw [hext]
        rwa [hl] at h

theorem parse_shrink {p x : List UInt8} {n : Nat} {cmd : Command}
    (h : parse (p ++ x) = .ok (.ok (.done n), cmd)) (hn : n ≤ p.length) :
    parse p = .ok (.ok (.done n), cmd) := by
  have hpos : 0 < n := by
    obtain ⟨r, c, hr, hdone, -⟩ := parse_cases (p ++ x)
    rw [h] at hr
    cases hr
    exact (hdone n rfl).1
  cases p with
  | nil => exact absurd hn (Nat.not_le.mpr hpos)
  | cons first rest =>
    rw [List.cons_append] at h
    by_cases hstar : first = 42
    · subst hstar
      obtain ⟨header, next, digits, count, hl, hslice, hnum, hend⟩ := parse_star_done h
      rw [← List.cons_append] at hl hend
      have hnext := lineAt_some hl
      rw [parse, if_pos rfl, parseArray_eq]
      obtain ⟨hneg, rfl, rfl⟩ | ⟨hneg, hmax, hbulks⟩ := hend
      · rw [lineAt_shrink hl hn]
        simp only [hslice, ok_bind, hnum, if_pos hneg]
      · obtain ⟨r, c, hr, -, hdone⟩ := bulks_cases (42 :: rest ++ x) count.toNat next [] hnext.2.1
          (by simp [Command.Below])
        rw [hbulks] at hr
        cases hr
        have hle := hdone n rfl
        rw [lineAt_shrink hl (by omega)]
        simp only [hslice, ok_bind, hnum, if_neg hneg, if_neg hmax]
        exact bulks_shrink hbulks hn hnext.2.1 (by simp [Command.Below])
    · obtain ⟨line, hl, hwords⟩ := parse_inline_done hstar h
      rw [← List.cons_append] at hl
      rw [parse, if_neg hstar, parseInline_eq, lineAt_shrink hl hn]
      simp only [hwords]

section parsed
variable {p x : List UInt8} {n : Nat} {cmd : Command}

/-- A whole command is found again at the front of any extension of it, and so
are its arguments. -/
theorem parsed_extend (h : parsed p = (.ok (.done n), cmd)) (x : List UInt8) :
    parsed (p.take n ++ x) = (.ok (.done n), cmd) ∧
      cmd.args (p.take n ++ x) = cmd.args p := by
  obtain ⟨-, hle, hbelow⟩ := parsed_done_le h
  have hp : parse p = .ok (.ok (.done n), cmd) := by rw [parse_ok, h]
  have hsplit : parse (p.take n ++ p.drop n) = .ok (.ok (.done n), cmd) := by
    rwa [List.take_append_drop]
  have htake := parse_shrink hsplit (by rw [List.length_take]; omega)
  have hext := parse_append x htake (by simp) (by simp)
  rw [parse_ok] at hext
  exact ⟨Except.ok.inj hext, Command.args_take hbelow p x hle⟩

theorem parsed_append (h : parsed p = (.ok (.done n), cmd)) (x : List UInt8) :
    parsed (p ++ x) = (.ok (.done n), cmd) := by
  have hext := (parsed_extend h (p.drop n ++ x)).1
  rwa [← List.append_assoc, List.take_append_drop] at hext

/-- An error is about the bytes it was found in, but for a line too long so far. -/
theorem parsed_error_append {bad : Bad} (h : parsed p = (.error bad, cmd)) (hb : bad ≠ .noNewline)
    (x : List UInt8) : parsed (p ++ x) = (.error bad, cmd) := by
  have hp : parse p = .ok (.error bad, cmd) := by rw [parse_ok, h]
  have hext := parse_append x hp (by simp) (by simpa using hb)
  rw [parse_ok] at hext
  exact Except.ok.inj hext

/-- A line too long so far: past the bound, and no newline yet. -/
theorem parsed_noNewline (h : parsed p = (.error .noNewline, cmd)) :
    maxInline < p.length ∧ newline p = none := by
  obtain ⟨r, c, hr, -, hline⟩ := parse_cases p
  rw [parse_ok, h] at hr
  cases hr
  exact hline rfl

end parsed
end Rugo.Resp
