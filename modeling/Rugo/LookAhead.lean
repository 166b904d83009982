import Rugo.Framing

/- The look-ahead. `peek` walks the framing that `parse` walks and keeps one place out of
   it, with nothing to say about what it cannot read whole.

     1. `peekBulks_eq`: over the bulk strings the two are one walk.
     2. `looks_ahead`: they end in the same place, with the same second argument, and
        over a pipeline they stop at the same commands. -/
namespace Rugo.Resp
open Exec

/-- The bulk strings still to come, `n` of them being behind. -/
def peekBulks (buf : List UInt8) : Nat → Nat → Nat → Option (Nat × Nat) → Exec (Option (Nat × Option (Nat × Nat)))
  | 0, _, at_, key => pure (some (at_, key))
  | count + 1, n, at_, key => do
    let found ← line buf at_
    match found with
    | some (36 :: digits, next) =>
      match number digits with
      | .error _ => pure none
      | .ok len =>
        -- nothing is told apart that cannot be read: an error is the parser's to report
        if len < 0 then pure none
        else if len.toNat > maxBulk ∨ buf.length < next + len.toNat + 2 then pure none
        else peekBulks buf count (n + 1) (next + len.toNat + 2) (if n = 1 then some (next, len.toNat) else key)
    | _ => pure none

/-- Where the command at the front of `buf` ends, and where its key is. -/
def peek (buf : List UInt8) : Exec (Option (Nat × Option (Nat × Nat))) :=
  match buf with
  | [] => pure none
  | first :: rest =>
    if first ≠ 42 then pure none
    else do
      let found ← line (first :: rest) 0
      match found with
      | none => pure none
      | some (header, at_) => do
        let digits ← slice header 1 header.length
        match number digits with
        | .error _ => pure none
        | .ok count =>
          -- where the parser takes a null array for a whole command
          if count < 0 then pure none
          else if count.toNat > maxArgs then pure none
          else peekBulks (first :: rest) count.toNat 0 at_ none

/-- Where argument `n` is. -/
def Command.place (cmd : Command) (n : Nat) : Option (Nat × Nat) :=
  cmd[n]?.map fun span => (span.at_.toNat, span.len.toNat)

/-- What a look-ahead makes of a parse. -/
def Outcome.peeked : Outcome → Option (Nat × Option (Nat × Nat))
  | (.ok (.done used), cmd) => some (used, cmd.place 1)
  | _ => none

/-! ## One walk -/

theorem place_push (cmd : Command) (span : Span) :
    Command.place (cmd ++ [span]) 1 =
      if cmd.length = 1 then some (span.at_.toNat, span.len.toNat) else cmd.place 1 := by
  rw [Command.place, Command.place, List.getElem?_append]
  split
  · rw [if_neg (by omega)]
  · next hshort =>
    obtain hone | hnone : cmd.length = 1 ∨ cmd.length = 0 := by omega
    · simp [hone]
    · simp [List.length_eq_zero_iff.mp hnone]

theorem push_room {cmd : Command} {at_ len : Nat} (hat : at_ < 2 ^ 32) (hlen : len < 2 ^ 32)
    (hroom : cmd.length < maxArgs) :
    ∃ span : Span, cmd.push at_ len = .ok (cmd ++ [span]) ∧ span.at_.toNat = at_ ∧ span.len.toNat = len := by
  refine ⟨⟨UInt32.ofNat at_, UInt32.ofNat len⟩, ?_, UInt32.toNat_ofNat_of_lt' hat, UInt32.toNat_ofNat_of_lt' hlen⟩
  rw [Command.push, if_neg (by omega), if_pos ⟨hat, hlen⟩]

theorem peekBulks_succ (buf : List UInt8) (count n at_ : Nat) (key : Option (Nat × Nat)) :
    peekBulks buf (count + 1) n at_ key =
      match lineAt buf at_ with
      | none => .ok none
      | some (header, next) =>
        match bulkLen header with
        | .error _ => .ok none
        | .ok len =>
          if buf.length < next + len + 2 then .ok none
          else peekBulks buf count (n + 1) (next + len + 2) (if n = 1 then some (next, len) else key) := by
  rw [peekBulks, line_eq, ok_bind]
  cases lineAt buf at_ with
  | none => rfl
  | some found =>
    obtain ⟨header, next⟩ := found
    cases header with
    | nil => rfl
    | cons kind digits =>
      by_cases hkind : kind = 36
      · subst hkind
        simp only [bulkLen]
        cases number digits with
        | error bad => rfl
        | ok len =>
          simp only [pure_ok]
          -- the two guards are in another order in the parser, with one outcome
          by_cases hneg : len < 0
          · rw [if_pos hneg, if_pos (.inl hneg)]
          · rw [if_neg hneg]
            by_cases hmax : len.toNat > maxBulk
            · rw [if_pos (.inl hmax), if_pos (.inr hmax)]
            · rw [if_neg (show ¬ (len < 0 ∨ len.toNat > maxBulk) by omega)]
              simp only [hmax, false_or]
      · simp only [bulkLen_other hkind]
        split
        · next hsome => exact absurd (List.cons.inj (Prod.mk.inj (Option.some.inj hsome)).1).1 hkind
        · rfl

theorem peekBulks_eq {buf : List UInt8} (hbuf : buf.length < 2 ^ 32) {count at_ : Nat} {into : Command}
    (hfew : into.length + count ≤ maxArgs) :
    peekBulks buf count into.length at_ (into.place 1) = Outcome.peeked <$> bulks buf count at_ into := by
  induction count generalizing at_ into with
  | zero => rfl
  | succ count ih =>
    rw [peekBulks_succ, bulks_succ]
    cases hline : lineAt buf at_ with
    | none => rfl
    | some found =>
      obtain ⟨header, next⟩ := found
      simp only
      cases hlen : bulkLen header with
      | error bad => rfl
      | ok len =>
        simp only
        split
        · rfl
        · next hroom =>
          obtain ⟨span, hpush, hat, hspan⟩ : ∃ span : Span, into.push next len = .ok (into ++ [span]) ∧
              span.at_.toNat = next ∧ span.len.toNat = len := push_room (by omega) (by omega) (by omega)
          have hmore := @ih (next + len + 2) (into ++ [span]) (by rw [List.length_append, List.length_singleton]; omega)
          rw [List.length_append, List.length_singleton, place_push, hat, hspan] at hmore
          rw [hpush]
          exact hmore

/-! ## The two ends of it -/

/-- The buffer begins with a star and a count. -/
def Announces (buf : List UInt8) (count : Int) : Prop := ∃ header rest, buf = header ++ rest ∧ Header 42 count header

theorem peek_star (rest : List UInt8) : peek (42 :: rest) =
    match lineAt (42 :: rest) 0 with
    | none => .ok none
    | some (header, at_) =>
      slice header 1 header.length >>= fun digits =>
      match number digits with
      | .error _ => .ok none
      | .ok count =>
        if count < 0 then .ok none
        else if count.toNat > maxArgs then .ok none
        else peekBulks (42 :: rest) count.toNat 0 at_ none := by
  rw [peek, if_neg (fun h => h rfl), line_eq, ok_bind]
  rfl

/-- A look-ahead is what it makes of the parse, but where the count is negative. -/
theorem peek_cases {rest : List UInt8} (hbuf : (42 :: rest).length < 2 ^ 32) :
    (peek (42 :: rest) = .ok none ∧ ∃ count, Announces (42 :: rest) count ∧ count < 0) ∨
      peek (42 :: rest) = Outcome.peeked <$> parse (42 :: rest) := by
  rw [peek_star, parse, if_pos rfl, parseArray_eq]
  cases hline : lineAt (42 :: rest) 0 with
  | none => exact .inr rfl
  | some found =>
    obtain ⟨text, next⟩ := found
    obtain ⟨digits, ending, htext, hslice, hending, hsplit, -⟩ := lineAt_digits hline
    simp only [hslice, ok_bind]
    cases hnumber : number digits with
    | error bad => exact .inr rfl
    | ok count =>
      simp only
      by_cases hneg : count < 0
      · -- the one answer that differs
        rw [if_pos hneg]
        rw [htext] at hsplit
        exact .inl ⟨rfl, count, ⟨_, _, hsplit, header_of_line hnumber hending⟩, hneg⟩
      · rw [if_neg hneg, if_neg hneg]
        by_cases hmax : count.toNat > maxArgs
        · rw [if_pos hmax, if_pos hmax]
          exact .inr rfl
        · rw [if_neg hmax, if_neg hmax]
          have hfew : ([] : Command).length + count.toNat ≤ maxArgs := by
            rw [List.length_nil]
            omega
          exact .inr (peekBulks_eq hbuf hfew)

theorem Announces.unique {buf : List UInt8} {v w : Int} (h : Announces buf v) (h' : Announces buf w) : v = w := by
  obtain ⟨header, rest, rfl, hheader⟩ := h
  obtain ⟨header', rest', heq, hheader'⟩ := h'
  exact (hheader.unique (by decide) hheader' heq).1

/-! ## Over a pipeline -/

/-- Every command that a parse finds, from the front of the buffer on, is an array of no
negative count. -/
inductive Arrays : List UInt8 → Prop
  | stop {buf} : (∀ used cmd, parse buf ≠ .ok (.ok (.done used), cmd)) → Arrays buf
  | step {buf used cmd count} : parse buf = .ok (.ok (.done used), cmd) → Announces buf count → 0 ≤ count →
      Arrays (buf.drop used) → Arrays buf

/-- Look ahead from command to command until there is none to be read: what each takes. -/
def peekAll : Nat → List UInt8 → Exec (List Nat)
  | 0, _ => .error .spin
  | fuel + 1, buf => do
    let found ← peek buf
    match found with
    | some (used, _) => do
      let rest ← slice buf used buf.length
      let more ← peekAll fuel rest
      pure (used :: more)
    | none => pure []

/-- What a look-ahead promises about the parse that follows. -/
structure LooksAhead (buf : List UInt8) : Prop where
  peeked : ∀ used key, peek buf = .ok (some (used, key)) →
    ∃ cmd, parse buf = .ok (.ok (.done used), cmd) ∧ key = cmd.place 1
  parsed : ∀ used cmd count, parse buf = .ok (.ok (.done used), cmd) → Announces buf count → 0 ≤ count →
    peek buf = .ok (some (used, cmd.place 1))
  walked : Arrays buf → ∃ commands left, parseAll (buf.length + 1) buf = .ok (commands, left) ∧
    peekAll (buf.length + 1) buf = .ok (commands.map Prod.fst)

theorem peek_some {buf : List UInt8} (hbuf : buf.length < 2 ^ 32) {used : Nat} {key : Option (Nat × Nat)}
    (h : peek buf = .ok (some (used, key))) : ∃ cmd, parse buf = .ok (.ok (.done used), cmd) ∧ key = cmd.place 1 := by
  cases buf with
  | nil => cases h
  | cons first rest =>
    by_cases hstar : first = 42
    · subst hstar
      obtain ⟨hnone, -⟩ | hsame := peek_cases hbuf
      · rw [hnone] at h
        cases h
      · rw [hsame, parse_ok, map_ok, Except.ok.injEq] at h
        rw [parse_ok]
        match hparsed : parsed (42 :: rest) with
        | (.ok (.done n), cmd) =>
          rw [hparsed] at h
          cases h
          exact ⟨cmd, rfl, rfl⟩
        | (.ok .more, cmd) =>
          rw [hparsed] at h
          cases h
        | (.error bad, cmd) =>
          rw [hparsed] at h
          cases h
    · rw [peek, if_pos hstar] at h
      cases h

theorem peek_parsed {buf : List UInt8} (hbuf : buf.length < 2 ^ 32) {used : Nat} {cmd : Command} {count : Int}
    (h : parse buf = .ok (.ok (.done used), cmd)) (hcount : Announces buf count) (hpos : 0 ≤ count) :
    peek buf = .ok (some (used, cmd.place 1)) := by
  obtain ⟨rest, rfl⟩ : ∃ rest, buf = 42 :: rest := by
    obtain ⟨header, rest, rfl, hheader⟩ := hcount
    cases hheader with
    | crlf => exact ⟨_, rfl⟩
    | bare => exact ⟨_, rfl⟩
  obtain ⟨-, count', hcount', hneg⟩ | hsame := peek_cases hbuf
  · have heq := hcount.unique hcount'
    omega
  · rw [hsame, h, map_ok]
    rfl

theorem peek_ok {buf : List UInt8} (hbuf : buf.length < 2 ^ 32) : ∃ found, peek buf = .ok found := by
  cases buf with
  | nil => exact ⟨none, rfl⟩
  | cons first rest =>
    by_cases hstar : first = 42
    · subst hstar
      obtain ⟨hnone, -⟩ | hsame := peek_cases hbuf
      · exact ⟨none, hnone⟩
      · exact ⟨_, by rw [hsame, parse_ok, map_ok]⟩
    · exact ⟨none, by rw [peek, if_pos hstar]; rfl⟩

/-- Over a pipeline of arrays the two stop at the same commands. -/
theorem Arrays.walked {buf : List UInt8} (h : Arrays buf) (hbuf : buf.length < 2 ^ 32) {fuel : Nat}
    (hfuel : buf.length < fuel) : ∃ commands left, parseAll fuel buf = .ok (commands, left) ∧
      peekAll fuel buf = .ok (commands.map Prod.fst) := by
  induction h generalizing fuel with
  | @stop buf hnone =>
    obtain ⟨fuel, rfl⟩ := Nat.exists_eq_succ_of_ne_zero (Nat.ne_zero_of_lt hfuel)
    refine ⟨[], buf, ?_, ?_⟩
    · rw [parseAll, parse_ok, ok_bind]
      split
      · next used cmd heq => exact absurd (by rw [parse_ok, heq]) (hnone used cmd)
      · rfl
    · obtain ⟨found, hfound⟩ := peek_ok hbuf
      rw [peekAll, hfound, ok_bind]
      split
      · next used key =>
        obtain ⟨cmd, hparse, -⟩ := peek_some hbuf hfound
        exact absurd hparse (hnone used cmd)
      · rfl
  | @step buf used cmd count hparse hcount hpos _ ih =>
    obtain ⟨fuel, rfl⟩ := Nat.exists_eq_succ_of_ne_zero (Nat.ne_zero_of_lt hfuel)
    have hparsed : parsed buf = (.ok (.done used), cmd) := by
      rw [parse_ok] at hparse
      exact Except.ok.inj hparse
    obtain ⟨hused, hle, -⟩ := parsed_done_le hparsed
    have hslice : slice buf used buf.length = .ok (buf.drop used) := by
      rw [slice_ok hle (Nat.le_refl _), ← List.length_drop, List.take_length]
    have hdrop : (buf.drop used).length = buf.length - used := List.length_drop
    obtain ⟨commands, left, hall, hpeek⟩ := @ih (by omega) fuel (by omega)
    refine ⟨(used, cmd.args buf) :: commands, left, ?_, ?_⟩
    · rw [parseAll, hparse]
      simp only [ok_bind, hslice, hall, pure_ok]
    · rw [peekAll, peek_parsed hbuf hparse hcount hpos]
      simp only [ok_bind, hslice, hpeek, pure_ok, List.map_cons]

theorem looks_ahead (buf : List UInt8) (hbuf : buf.length < 2 ^ 32) : LooksAhead buf where
  peeked _ _ h := peek_some hbuf h
  parsed _ _ _ h hcount hpos := peek_parsed hbuf h hcount hpos
  walked h := h.walked hbuf (Nat.lt_succ_self _)

theorem looks_ahead_get : ∃ cmd, parse (ascii "*2\r\n$3\r\nGET\r\n$3\r\nkey\r\n*1\r\n") = .ok (.ok (.done 22), cmd) ∧
    some (17, 3) = cmd.place 1 :=
  (looks_ahead _ (by decide)).peeked 22 (some (17, 3)) (by decide)

end Rugo.Resp
