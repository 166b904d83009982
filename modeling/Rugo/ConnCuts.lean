import Mathlib.Data.List.Induction
import Rugo.ConnRuns

/- How the reads cut the stream, under the completion loop.

   What a connection makes of a stream is a path: from the front of it, one
   parse after another that more bytes would not change (`Solid`). A read that
   ends inside a request gives up on it if it has seen more than the longest
   inline line and no newline, or more than the buffer has room for. So the same
   stream may come to different ends.

     1. `Fed.outcome`: a run comes to the end of the path, or gives up on the
        first request inside which one of its reads ends too late.
     2. `cuts_agree_iff`: two runs fed one stream come to the same end exactly
        when the first request that either gives up on is given up by both. -/
namespace Rugo
open Exec Resp Runs
open Relation (ReflTransGen)

variable {σ : Type}

/-! ## The path through a stream -/

namespace Desk

/-- One parse that is what it is whatever comes after it. -/
def Solid (run : Dispatch σ) (p q : Desk σ × List UInt8) : Prop :=
  next run p = some q ∧ (parsed p.2).1 ≠ .error .noNewline

abbrev Path (run : Dispatch σ) : Desk σ × List UInt8 → Desk σ × List UInt8 → Prop :=
  ReflTransGen (Solid run)

theorem solid_unique {run : Dispatch σ} : Relator.RightUnique (Solid run) := by
  intro p q q' h h'
  have heq := h.1.symm.trans h'.1
  exact Option.some.inj heq

theorem Solid.cases {run : Dispatch σ} {p q : Desk σ × List UInt8} (h : Solid run p q) :
    p.1.closing = false ∧
    ((∃ used, ∃ command : Command, parsed p.2 = (.ok (.done used), command) ∧
        q = (p.1.dispatch run command (p.2.take used), p.2.drop used)) ∨
      ∃ bad, ∃ command : Command, bad ≠ .noNewline ∧ parsed p.2 = (.error bad, command) ∧
        q = ({ p.1 with closing := true, did := p.1.did ++ [.refused bad] }, p.2)) := by
  obtain ⟨hnext, hline⟩ := h
  simp only [next] at hnext
  split at hnext
  · cases hnext
  · next hopen =>
    refine ⟨by simpa using hopen, ?_⟩
    split at hnext
    · next used command hp =>
      cases hnext
      exact .inl ⟨used, command, hp, rfl⟩
    · cases hnext
    · next bad command hp =>
      cases hnext
      rw [hp] at hline
      exact .inr ⟨bad, command, by simpa using hline, hp, rfl⟩

theorem Solid.of_done {run : Dispatch σ} {p : Desk σ × List UInt8} (hopen : p.1.closing = false)
    {used : Nat} {command : Command} (hp : parsed p.2 = (.ok (.done used), command)) :
    Solid run p (p.1.dispatch run command (p.2.take used), p.2.drop used) := by
  refine ⟨?_, by simp [hp]⟩
  simp only [next, hopen, Bool.false_eq_true, if_false, hp]

theorem Solid.of_error {run : Dispatch σ} {p : Desk σ × List UInt8} (hopen : p.1.closing = false)
    {bad : Bad} {command : Command} (hbad : bad ≠ .noNewline) (hp : parsed p.2 = (.error bad, command)) :
    Solid run p ({ p.1 with closing := true, did := p.1.did ++ [.refused bad] }, p.2) := by
  refine ⟨?_, by simpa [hp] using hbad⟩
  simp only [next, hopen, Bool.false_eq_true, if_false, hp]

theorem Solid.append {run : Dispatch σ} {p q : Desk σ × List UInt8} (h : Solid run p q)
    (x : List UInt8) : Solid run (p.1, p.2 ++ x) (q.1, q.2 ++ x) := by
  obtain ⟨hopen, ⟨used, command, hp, rfl⟩ | ⟨bad, command, hbad, hp, rfl⟩⟩ := h.cases
  · have hle := (parsed_done_le hp).2.1
    have hsolid : Solid run (p.1, p.2 ++ x) _ :=
      Solid.of_done (p := (p.1, p.2 ++ x)) hopen (parsed_append hp x)
    rwa [List.take_append_of_le_length hle, List.drop_append_of_le_length hle] at hsolid
  · exact Solid.of_error (p := (p.1, p.2 ++ x)) hopen hbad (parsed_error_append hp hbad x)

theorem Path.append {run : Dispatch σ} {p q : Desk σ × List UInt8} (h : Path run p q)
    (x : List UInt8) : Path run (p.1, p.2 ++ x) (q.1, q.2 ++ x) := by
  induction h with
  | refl => exact .refl
  | tail _ hstep ih => exact ih.tail (hstep.append x)

theorem Solid.did {run : Dispatch σ} {p q : Desk σ × List UInt8} (h : Solid run p q) :
    ∃ d, q.1.did = p.1.did ++ [d] ∧ d ≠ .refused .noNewline := by
  obtain ⟨-, ⟨used, command, -, rfl⟩ | ⟨bad, command, hbad, -, rfl⟩⟩ := h.cases
  · simp only [dispatch]
    split
    · exact ⟨_, rfl, by simp⟩
    · exact ⟨_, rfl, by simp⟩
  · exact ⟨_, rfl, by simpa using hbad⟩

theorem Path.did {run : Dispatch σ} {p q : Desk σ × List UInt8} (h : Path run p q) :
    p = q ∨ ∃ d rest, q.1.did = p.1.did ++ d :: rest ∧ d ≠ .refused .noNewline := by
  induction h with
  | refl => exact .inl rfl
  | tail _ hstep ih =>
    right
    obtain ⟨d, hd, hne⟩ := hstep.did
    obtain rfl | ⟨d', rest, hd', hne'⟩ := ih
    · exact ⟨d, [], hd, hne⟩
    · exact ⟨d', rest ++ [d], by rw [hd, hd', List.append_assoc, List.cons_append], hne'⟩

/-- A path comes back to no point. -/
theorem Path.antisymm {run : Dispatch σ} {p q : Desk σ × List UInt8} (h : Path run p q)
    (h' : Path run q p) : p = q := by
  obtain heq | ⟨d, rest, hd, -⟩ := h.did
  · exact heq
  · obtain heq | ⟨d', rest', hd', -⟩ := h'.did
    · exact heq.symm
    · have hlen := congrArg List.length hd
      have hlen' := congrArg List.length hd'
      simp only [List.length_append, List.length_cons] at hlen hlen'
      omega

theorem Path.comparable {run : Dispatch σ} {p q q' : Desk σ × List UInt8} (h : Path run p q)
    (h' : Path run p q') : Path run q q' ∨ Path run q' q :=
  ReflTransGen.total_of_right_unique solid_unique h h'

theorem Path.suffix {run : Dispatch σ} {p q : Desk σ × List UInt8} (h : Path run p q) : q.2 <:+ p.2 := by
  induction h with
  | refl => exact List.suffix_rfl
  | tail _ hstep ih =>
    obtain ⟨-, ⟨used, command, -, rfl⟩ | ⟨bad, command, -, -, rfl⟩⟩ := hstep.cases
    · exact (List.drop_suffix _ _).trans ih
    · exact ih

theorem Path.before {run : Dispatch σ} {p e q : Desk σ × List UInt8} {x : List UInt8}
    (h : Path run p e) (hq : Path run (p.1, p.2 ++ x) q) (hle : Path run q (e.1, e.2 ++ x)) :
    ∃ v, q = (q.1, v ++ x) ∧ Path run p (q.1, v) ∧ Path run (q.1, v) e := by
  induction h using ReflTransGen.head_induction_on with
  | refl =>
    have heq := Path.antisymm hq hle
    rw [← heq]
    exact ⟨e.2, rfl, .refl, .refl⟩
  | @head p p1 hstep hrest ih =>
    obtain heq | ⟨p1', hp1, hq'⟩ := ReflTransGen.cases_head hq
    · rw [← heq]
      exact ⟨p.2, rfl, .refl, hrest.head hstep⟩
    · have hsame := solid_unique hp1 (hstep.append x)
      rw [hsame] at hq'
      obtain ⟨v, hv, hto, hfrom⟩ := ih hq'
      exact ⟨v, hv, hto.head hstep, hfrom⟩

/-- Work is a path, and at its end perhaps a refusal for want of a newline. -/
theorem Works.path {run : Dispatch σ} {p q : Desk σ × List UInt8} (h : Works run p q) :
    Path run p q ∨ ∃ r, ∃ command : Command, Path run p r ∧ r.1.closing = false ∧
      parsed r.2 = (.error .noNewline, command) ∧
      q = ({ r.1 with closing := true, did := r.1.did ++ [.refused .noNewline] }, r.2) := by
  induction h with
  | refl => exact .inl .refl
  | @tail b c _ hstep ih =>
    obtain hpath | ⟨r, command, -, -, -, rfl⟩ := ih
    · by_cases hline : (parsed b.2).1 = .error .noNewline
      · right
        have hp : parsed b.2 = (.error .noNewline, (parsed b.2).2) := by rw [← hline]
        simp only [next] at hstep
        split at hstep
        · cases hstep
        · next hopen =>
          rw [hp] at hstep
          cases hstep
          exact ⟨b, _, hpath, by simpa using hopen, hp, rfl⟩
      · exact .inl (hpath.tail ⟨hstep, hline⟩)
    · simp only [next, if_true] at hstep
      cases hstep

end Desk

/-! ## Giving up -/

/-- A connection that has seen so much of a request and no more closes. -/
def GivesUp (seen : List UInt8) : Prop :=
  (parsed seen).1 = .error .noNewline ∨
    (parsed seen).1 = .ok .more ∧ maxRequest - spare < seen.length

/-- One of the reads that bring the stream in these pieces ends where it gives
up on the request that stands before `rest`. -/
def Trips (pieces : List (List UInt8)) (rest : List UInt8) : Prop :=
  ∃ k, GivesUp (rest.take ((pieces.take k).flatten.length - (pieces.flatten.length - rest.length)))

theorem not_givesUp_nil : ¬ GivesUp [] := by
  rintro (h | ⟨-, h⟩)
  · cases h
  · exact absurd h (Nat.not_lt_zero _)

/-- A request that has been parsed is not given up on, however much is seen
behind it. -/
theorem Desk.Solid.not_givesUp {run : Dispatch σ} {p q : Desk σ × List UInt8} (h : Solid run p q)
    (x : List UInt8) : ¬ GivesUp (p.2 ++ x) := by
  obtain ⟨-, ⟨used, command, hp, -⟩ | ⟨bad, command, hbad, hp, -⟩⟩ := h.cases
  · rintro (hg | ⟨hg, -⟩)
    · rw [parsed_append hp x] at hg
      cases hg
    · rw [parsed_append hp x] at hg
      cases hg
  · rintro (hg | ⟨hg, -⟩)
    · rw [parsed_error_append hp hbad x] at hg
      cases hg
      exact hbad rfl
    · rw [parsed_error_append hp hbad x] at hg
      cases hg

/-- Only an array is waited for past the longest inline line, and only an
inline line is refused for want of a newline. -/
theorem head_of_more {seen : List UInt8} (h : (parsed seen).1 = .ok .more)
    (hlong : maxInline < seen.length) : seen.head? = some 42 := by
  cases seen with
  | nil => exact absurd hlong (Nat.not_lt_zero _)
  | cons first rest =>
    by_contra hstar
    have hne : first ≠ 42 := by simpa using hstar
    have hp : parse (first :: rest) = .ok (.ok .more, (parsed (first :: rest)).2) := by
      rw [parse_ok, ← h]
    rw [parse, if_neg hne, parseInline, line_eq, ok_bind] at hp
    cases hl : lineAt (first :: rest) 0 with
    | none =>
      rw [hl] at hp
      simp only [hlong, if_true, pure_ok] at hp
      cases hp
    | some found =>
      obtain ⟨line, next⟩ := found
      rw [hl] at hp
      simp only [pure_ok] at hp
      split at hp <;> cases hp

theorem head_of_noNewline {seen : List UInt8} (h : (parsed seen).1 = .error .noNewline) :
    seen.head? ≠ some 42 := by
  cases seen with
  | nil => cases h
  | cons first rest =>
    intro hstar
    rw [List.head?_cons, Option.some.injEq] at hstar
    have hp : parsed (first :: rest) = (.error .noNewline, (parsed (first :: rest)).2) := by
      rw [← h]
    have hline := (parsed_noNewline hp).2
    -- an array whose first line has not all arrived is waited for
    have hparse := parse_ok (first :: rest)
    rw [hp, parse, if_pos hstar, parseArray, line_eq, ok_bind, (lineAt_zero _).mpr hline] at hparse
    cases hparse

/-! ## Runs fed a stream -/

/-- What the reads of a run brought. -/
def arrivals (tr : List (Ringed σ × Moved × Ringed σ)) : List (List UInt8) :=
  tr.filterMap fun x => match x.2.1 with
    | .arrived data => some data
    | _ => none

/-- A run that has been given the pieces of a stream, in order, until it closed
or asked for more than there is. -/
structure Fed (run : Dispatch σ) (env : σ) (pieces : List (List UInt8))
    (tr : List (Ringed σ × Moved × Ringed σ)) (s : Ringed σ) : Prop where
  runs : Run (Ring run) (Ringed.new env) tr s
  given : arrivals tr <+: pieces
  rests : s.pending = some .close ∨
    (∃ at_ len, s.pending = some (.recv at_ len)) ∧ arrivals tr = pieces

def front (env : σ) (bytes : List UInt8) : Desk σ × List UInt8 := ((Peer.new env).desk, bytes)

/-- The connection waits, for the rest of a request it has room for. -/
def Waits (e : Desk σ × List UInt8) : Prop :=
  e.1.closing = false ∧ (parsed e.2).1 = .ok .more ∧ e.2.length ≤ maxRequest - spare

/-- How a run stands to the path through what it has received. -/
structure Follows (run : Dispatch σ) (env : σ) (tr : List (Ringed σ × Moved × Ringed σ))
    (s : Ringed σ) : Prop where
  inv : s.Inv
  received : s.peer.received = (arrivals tr).flatten
  on : Desk.Path run (front env s.peer.received) (s.peer.desk, s.peer.conn.unread) ∨
    ∃ r, ∃ command : Command, Desk.Path run (front env s.peer.received) r ∧ r.1.closing = false ∧
      parsed r.2 = (.error .noNewline, command) ∧
      (s.peer.desk, s.peer.conn.unread) =
        ({ r.1 with closing := true, did := r.1.did ++ [.refused .noNewline] }, r.2)
  waited : ∀ k < (arrivals tr).length, ∃ e,
    Desk.Path run (front env ((arrivals tr).take k).flatten) e ∧ Waits e

theorem Follows.new (run : Dispatch σ) (env : σ) : Follows run env [] (Ringed.new env) where
  inv := Ringed.inv_new env
  received := rfl
  on := .inl (by rw [show (Ringed.new env).peer.conn.unread = [] from Peer.unread_new env]; exact .refl)
  waited := by
    intro k hk
    cases hk

theorem Ringed.Inv.waits {s : Ringed σ} (h : s.Inv) {at_ len : Nat}
    (hp : s.pending = some (.recv at_ len)) : Waits (s.peer.desk, s.peer.conn.unread) := by
  obtain ⟨-, hopen, ⟨command, hmore⟩, rfl, hend, hspare⟩ := h.pending _ hp
  rw [parse_ok, Except.ok.injEq] at hmore
  refine ⟨hopen, by rw [hmore], ?_⟩
  have hlen := h.exact.sane.unread_length
  have hmax := h.exact.sane.size_le.2
  simp only
  omega

theorem Follows.step {run : Dispatch σ} {env : σ} {tr : List (Ringed σ × Moved × Ringed σ)}
    {s s' : Ringed σ} {e : Moved} (h : Follows run env tr s) (hs : Ring run s e s') :
    Follows run env (tr ++ [(s, e, s')]) s' := by
  have hinv := Ring.inv run h.inv hs
  cases hs with
  | @stepped passes answer peer hnone hstep =>
    have harrivals : arrivals (tr ++ [(s, .stepped answer, ⟨peer, some answer⟩)]) = arrivals tr := by
      simp [arrivals]
    obtain ⟨-, hstepped⟩ := Peer.stepLoop_unique run h.inv.exact hstep
    refine ⟨hinv, ?_, ?_, ?_⟩
    · rw [harrivals, ← h.received]
      exact hstepped.received
    · simp only [hstepped.received]
      obtain hon | ⟨r, command, hr, hopen, hp, heq⟩ := h.on
      · obtain hpath | ⟨r, command, hr, hopen, hp, heq⟩ := hstepped.works.path
        · exact .inl (hon.trans hpath)
        · exact .inr ⟨r, command, hon.trans hr, hopen, hp, heq⟩
      · -- refused already: the connection is closing, and does nothing more
        right
        refine ⟨r, command, hr, hopen, hp, ?_⟩
        rw [← heq]
        obtain hsame | ⟨q, hq, -⟩ := ReflTransGen.cases_head hstepped.works
        · exact hsame.symm
        · rw [heq] at hq
          simp only [Desk.next, if_true] at hq
          cases hq
    · rw [harrivals]
      exact h.waited
  | @arrived at_ len data peer hpending hpos hle hland =>
    have harrivals : arrivals (tr ++ [(s, .arrived data,
        ⟨{ peer with conn := peer.conn.arrived data.length }, none⟩)]) = arrivals tr ++ [data] := by
      simp [arrivals]
    have hwaits := h.inv.waits hpending
    have hfill := h.inv.arrived hpending hle hland
    have hpath : Desk.Path run (front env s.peer.received) (s.peer.desk, s.peer.conn.unread) := by
      obtain hon | ⟨r, command, -, -, -, heq⟩ := h.on
      · exact hon
      · have hopen := hwaits.1
        rw [heq] at hopen
        cases hopen
    refine ⟨hinv, ?_, .inl ?_, ?_⟩
    · rw [harrivals, List.flatten_append, ← h.received, List.flatten_singleton]
      exact hfill.received
    · have hreceived : peer.received = s.peer.received ++ data := hfill.received
      simp only [hfill.unread, hfill.work.desk]
      rw [hreceived]
      exact hpath.append data
    · intro k hk
      rw [harrivals, List.length_append, List.length_singleton] at hk
      rw [harrivals, List.take_append_of_le_length (by omega)]
      obtain hlt | heq := Nat.lt_or_eq_of_le (Nat.le_of_lt_succ hk)
      · exact h.waited k hlt
      · rw [heq, List.take_length, ← h.received]
        exact ⟨_, hpath, hwaits⟩
  | @written at_ len bytes hpending hpos hle =>
    have harrivals : arrivals (tr ++ [(s, .written bytes,
        ⟨{ s.peer.left at_ bytes with conn := s.peer.conn.written bytes }, none⟩)]) = arrivals tr := by
      simp [arrivals]
    have hflushed := h.inv.written hpending hle
    refine ⟨hinv, ?_, ?_, ?_⟩
    · rw [harrivals, ← h.received]
      exact hflushed.received
    · simp only [hflushed.unread, hflushed.work.desk]
      exact h.on
    · rw [harrivals]
      exact h.waited

theorem Follows.of_run {run : Dispatch σ} {env : σ} {tr : List (Ringed σ × Moved × Ringed σ)}
    {s : Ringed σ} (h : Run (Ring run) (Ringed.new env) tr s) : Follows run env tr s := by
  induction h with
  | nil => exact Follows.new run env
  | snoc _ hs ih => exact ih.step hs

/-! ## Where a run ends -/

/-- What is seen of a request once so much of the stream has come in. -/
theorem seen_of_length {r v x : List UInt8} (hle : v.length ≤ r.length) {n : Nat} (hn : r.length ≤ n) :
    (v ++ x).take (n - ((r ++ x).length - (v ++ x).length)) = v ++ x.take (n - r.length) := by
  have hpos : n - ((r ++ x).length - (v ++ x).length) = v.length + (n - r.length) := by
    simp only [List.length_append]
    omega
  rw [hpos, List.take_append, List.take_of_length_le (Nat.le_add_right _ _), Nat.add_sub_cancel_left]

/-- A read that leaves the connection waiting gives up on no request. -/
theorem Waits.passes {run : Dispatch σ} {env : σ} {r x : List UInt8} {e q : Desk σ × List UInt8}
    (hw : Waits e) (he : Desk.Path run (front env r) e) (hq : Desk.Path run (front env (r ++ x)) q)
    (hopen : q.1.closing = false) :
    ¬ GivesUp (q.2.take (r.length - ((r ++ x).length - q.2.length))) := by
  have hbefore : Desk.Path run q (e.1, e.2 ++ x) →
      ¬ GivesUp (q.2.take (r.length - ((r ++ x).length - q.2.length))) := by
    intro hle
    obtain ⟨v, hv, hto, hfrom⟩ := he.before hq hle
    have hlen : v.length ≤ r.length := hto.suffix.length_le
    rw [show q.2 = v ++ x from congrArg Prod.snd hv, seen_of_length hlen (Nat.le_refl _), Nat.sub_self,
      List.take_zero]
    obtain heq | ⟨q', hstep, -⟩ := ReflTransGen.cases_head hfrom
    · rw [List.append_nil, show v = e.2 from congrArg Prod.snd heq]
      rintro (hg | ⟨-, hg⟩)
      · rw [hw.2.1] at hg
        cases hg
      · exact absurd hg (Nat.not_lt.mpr hw.2.2)
    · exact hstep.not_givesUp []
  obtain hle | hge := hq.comparable (he.append x)
  · exact hbefore hle
  · obtain heq | ⟨q1, hstep, hrest⟩ := ReflTransGen.cases_head hge
    · apply hbefore
      rw [heq]
    · -- the request it waited for stands before `q`, so nothing of `q` is seen
      obtain ⟨-, ⟨used, command, hp, rfl⟩ | ⟨bad, command, -, -, rfl⟩⟩ := hstep.cases
      · have hused : e.2.length < used := by
          by_contra hle
          have hparse := parse_ok (e.2 ++ x)
          rw [hp] at hparse
          have hshort := parse_shrink hparse (Nat.not_lt.mp hle)
          have hmore := hw.2.1
          rw [parse_ok, Except.ok.injEq] at hshort
          rw [hshort] at hmore
          cases hmore
        have hlen := (Desk.Path.suffix hrest).length_le
        have hle := (parsed_done_le hp).2.1
        simp only [List.length_drop, List.length_append] at hlen hle
        have hnone : r.length - ((r ++ x).length - q.2.length) = 0 := by
          rw [List.length_append]
          omega
        rw [hnone, List.take_zero]
        exact not_givesUp_nil
      · obtain rfl | ⟨q2, hstep2, -⟩ := ReflTransGen.cases_head hrest
        · cases hopen
        · have hopen2 := hstep2.cases.1
          cases hopen2

/-- What a run leaves behind it is given up on by none of its reads, and by no
later one. -/
theorem Follows.passes {run : Dispatch σ} {env : σ} {pieces extra : List (List UInt8)}
    {tr : List (Ringed σ × Moved × Ringed σ)} {s : Ringed σ} (h : Follows run env tr s)
    (hpieces : pieces = arrivals tr ++ extra) {e q : Desk σ × List UInt8}
    (he : Desk.Path run (front env s.peer.received) e)
    (hq : Desk.Path run (front env pieces.flatten) q)
    (hle : Desk.Path run q (e.1, e.2 ++ extra.flatten)) (hne : q ≠ (e.1, e.2 ++ extra.flatten)) :
    ¬ Trips pieces q.2 := by
  have hflat : pieces.flatten = s.peer.received ++ extra.flatten := by
    rw [hpieces, List.flatten_append, h.received]
  rintro ⟨k, hk⟩
  obtain hlt | hge := Nat.lt_or_ge k (arrivals tr).length
  · obtain ⟨e', he', hw⟩ := h.waited k hlt
    have htake : pieces.take k = (arrivals tr).take k := by
      rw [hpieces, List.take_append_of_le_length (by omega)]
    have hsplit : pieces.flatten = ((arrivals tr).take k).flatten ++ (pieces.drop k).flatten := by
      rw [← htake, ← List.flatten_append, List.take_append_drop]
    have hopen : q.1.closing = false := by
      obtain heq | ⟨q', hstep, -⟩ := ReflTransGen.cases_head hle
      · exact absurd heq hne
      · exact hstep.cases.1
    rw [hsplit] at hq
    rw [htake, hsplit] at hk
    exact hw.passes he' hq hopen hk
  · rw [hflat] at hq hk
    -- beyond what has arrived a read ends with all that was seen
    obtain ⟨v, hv, hto, hfrom⟩ := he.before hq hle
    have hmany : s.peer.received.length ≤ (pieces.take k).flatten.length := by
      rw [hpieces, List.take_append, List.take_of_length_le hge, List.flatten_append, List.length_append,
        h.received]
      omega
    have hshort : v.length ≤ s.peer.received.length := hto.suffix.length_le
    rw [show q.2 = v ++ extra.flatten from congrArg Prod.snd hv, seen_of_length hshort hmany] at hk
    obtain heq | ⟨q', hstep, -⟩ := ReflTransGen.cases_head hfrom
    · apply hne
      rw [hv, ← heq]
    · exact hstep.not_givesUp _ hk

/-- What was done by a connection that gave up on a request. -/
def gaveUp (p : Desk σ × List UInt8) : List Did :=
  p.1.did ++ if p.2.head? = some 42 then [] else [.refused .noNewline]

/-- How a run that was fed some pieces may end. -/
inductive Ended (run : Dispatch σ) (env : σ) (pieces : List (List UInt8)) (s : Ringed σ) : Prop
  /-- At the end of the path, having given up on nothing. -/
  | done {e} : Desk.Path run (front env pieces.flatten) e → Desk.next run e = none →
      s.peer.did = e.1.did → (s.pending = some .close ↔ e.1.closing = true) →
      (∀ q, Desk.Path run (front env pieces.flatten) q → q.1.closing = false → ¬ Trips pieces q.2) →
      Ended run env pieces s
  /-- At the first request it gave up on. -/
  | gave {p} : Desk.Path run (front env pieces.flatten) p → p.1.closing = false → Trips pieces p.2 →
      (∀ q, Desk.Path run (front env pieces.flatten) q → Desk.Path run q p → q ≠ p →
        ¬ Trips pieces q.2) →
      s.pending = some .close → s.peer.did = gaveUp p → Ended run env pieces s

section ended
variable {run : Dispatch σ} {env : σ} {pieces extra : List (List UInt8)} {tr : List (Ringed σ × Moved × Ringed σ)}
  {s : Ringed σ}

theorem Follows.flat (hf : Follows run env tr s) (hpieces : pieces = arrivals tr ++ extra) :
    pieces.flatten = s.peer.received ++ extra.flatten := by
  rw [hpieces, List.flatten_append, hf.received]

theorem Follows.trips (hf : Follows run env tr s) (hpieces : pieces = arrivals tr ++ extra) {u : List UInt8}
    (hle : u.length ≤ s.peer.received.length) (hg : GivesUp u) : Trips pieces (u ++ extra.flatten) := by
  refine ⟨(arrivals tr).length, ?_⟩
  have htake : (pieces.take (arrivals tr).length).flatten = s.peer.received := by
    rw [hpieces, List.take_left, hf.received]
  rw [htake, hf.flat hpieces, seen_of_length hle (Nat.le_refl _), Nat.sub_self, List.take_zero, List.append_nil]
  exact hg

theorem Follows.path (hf : Follows run env tr s) (hpieces : pieces = arrivals tr ++ extra) {e : Desk σ × List UInt8}
    (he : Desk.Path run (front env s.peer.received) e) :
    Desk.Path run (front env pieces.flatten) (e.1, e.2 ++ extra.flatten) := by
  rw [hf.flat hpieces]
  exact he.append extra.flatten

theorem Follows.ended_closing (hf : Follows run env tr s) (hpieces : pieces = arrivals tr ++ extra)
    (hon : Desk.Path run (front env s.peer.received) (s.peer.desk, s.peer.conn.unread))
    (hclosing : s.peer.conn.closing = true) (hclose : s.pending = some .close) : Ended run env pieces s := by
  have hto := hf.path hpieces hon
  have hdesk : s.peer.desk.closing = true := hclosing
  refine .done hto ?_ rfl (by simp [hclose, hdesk]) ?_
  · simp only [Desk.next, hdesk, if_true]
  · intro q hq hopen
    have hne : q ≠ (s.peer.desk, s.peer.conn.unread ++ extra.flatten) := by
      intro heq
      rw [heq, hdesk] at hopen
      cases hopen
    obtain hle | hge := hq.comparable hto
    · exact hf.passes hpieces hon hq hle hne
    · obtain heq | ⟨q', hstep, -⟩ := ReflTransGen.cases_head hge
      · exact absurd heq.symm hne
      · have hopen' := hstep.cases.1
        simp only [hdesk] at hopen'
        cases hopen'

theorem Follows.ended_large (hf : Follows run env tr s) (hpieces : pieces = arrivals tr ++ extra)
    (hon : Desk.Path run (front env s.peer.received) (s.peer.desk, s.peer.conn.unread))
    (hopen : s.peer.conn.closing = false) (hmore : (parsed s.peer.conn.unread).1 = .ok .more)
    (hbig : maxRequest - spare < s.peer.conn.unread.length) (hclose : s.pending = some .close) :
    Ended run env pieces s := by
  have hshort : s.peer.conn.unread.length ≤ s.peer.received.length := hon.suffix.length_le
  have hstar := head_of_more hmore (Nat.lt_trans (by decide) hbig)
  refine .gave (hf.path hpieces hon) hopen (hf.trips hpieces hshort (.inr ⟨hmore, hbig⟩)) ?_ hclose ?_
  · intro q hq hle hne
    exact hf.passes hpieces hon hq hle hne
  · simp only [gaveUp, List.head?_append, hstar, Option.some_or, if_true, List.append_nil]
    rfl

theorem Follows.ended_line (hf : Follows run env tr s) (hpieces : pieces = arrivals tr ++ extra)
    {r : Desk σ × List UInt8} (hr : Desk.Path run (front env s.peer.received) r) (hopen : r.1.closing = false)
    (hline : (parsed r.2).1 = .error .noNewline) (hdid : s.peer.did = r.1.did ++ [.refused .noNewline])
    (hclose : s.pending = some .close) : Ended run env pieces s := by
  have hshort : r.2.length ≤ s.peer.received.length := hr.suffix.length_le
  refine .gave (hf.path hpieces hr) hopen (hf.trips hpieces hshort (.inl hline)) ?_ hclose ?_
  · intro q hq hle hne
    exact hf.passes hpieces hr hq hle hne
  · have hstar : (r.2 ++ extra.flatten).head? ≠ some 42 := by
      have hhead := head_of_noNewline hline
      cases hr2 : r.2 with
      | nil =>
        rw [hr2] at hline
        cases hline
      | cons first rest =>
        rw [hr2] at hhead
        exact hhead
    rw [hdid, gaveUp, if_neg hstar]

theorem Follows.ended_waiting (hf : Follows run env tr s) (hall : arrivals tr = pieces) {at_ len : Nat}
    (hrecv : s.pending = some (.recv at_ len)) : Ended run env pieces s := by
  have hw := hf.inv.waits hrecv
  have hon : Desk.Path run (front env s.peer.received) (s.peer.desk, s.peer.conn.unread) := by
    obtain hon | ⟨r, command, -, -, -, heq⟩ := hf.on
    · exact hon
    · have hopen := hw.1
      rw [heq] at hopen
      cases hopen
  have hflat : pieces.flatten = s.peer.received := by
    rw [← hall, hf.received]
  -- wherever a read ended, the loop was left waiting for more
  have hreads : ∀ k, ∃ e, Desk.Path run (front env (pieces.take k).flatten) e ∧ Waits e := by
    intro k
    obtain hlt | hge := Nat.lt_or_ge k (arrivals tr).length
    · rw [← hall]
      exact hf.waited k hlt
    · rw [hall] at hge
      rw [List.take_of_length_le hge, hflat]
      exact ⟨_, hon, hw⟩
  rw [← hflat] at hon
  refine .done hon ?_ rfl ?_ ?_
  · have hopen : s.peer.desk.closing = false := hw.1
    have hmore : parsed s.peer.conn.unread = (.ok .more, (parsed s.peer.conn.unread).2) := by
      have hfirst := hw.2.1
      rw [← hfirst]
    simp only [Desk.next, hopen, Bool.false_eq_true, if_false]
    rw [hmore]
  · simp [hrecv, show s.peer.desk.closing = false from hw.1]
  · rintro q hq hopen ⟨k, hk⟩
    obtain ⟨e, he, hwe⟩ := hreads k
    have hsplit : pieces.flatten = (pieces.take k).flatten ++ (pieces.drop k).flatten := by
      rw [← List.flatten_append, List.take_append_drop]
    rw [hsplit] at hq
    apply hwe.passes he hq hopen
    rw [← hsplit]
    exact hk

theorem Fed.ended (h : Fed run env pieces tr s) : Ended run env pieces s := by
  have hf := Follows.of_run h.runs
  obtain ⟨extra, hpieces⟩ := h.given
  obtain hclose | ⟨⟨at_, len, hrecv⟩, hall⟩ := h.rests
  · obtain ⟨-, hwhy⟩ := hf.inv.pending _ hclose
    obtain hon | ⟨r, command, hr, hopen, hp, heq⟩ := hf.on
    · cases hclosing : s.peer.conn.closing with
      | true => exact hf.ended_closing hpieces.symm hon hclosing hclose
      | false =>
        obtain hc | ⟨⟨command, hmore⟩, hbig⟩ := hwhy
        · rw [hclosing] at hc
          cases hc
        · rw [parse_ok, Except.ok.injEq] at hmore
          exact hf.ended_large hpieces.symm hon hclosing (by rw [hmore]) hbig hclose
    · exact hf.ended_line hpieces.symm hr hopen (by rw [hp]) (congrArg (fun p => p.1.did) heq) hclose
  · exact hf.ended_waiting hall hrecv

end ended

/-! ## Two runs -/

/-- The same commands ran, with the same arguments, and the connection waits for
more or has closed, with the same framing error if there was one. -/
def Agree (s1 s2 : Ringed σ) : Prop :=
  s1.peer.did = s2.peer.did ∧ (s1.pending = some .close ↔ s2.pending = some .close)

theorem Agree.symm {s1 s2 : Ringed σ} (h : Agree s1 s2) : Agree s2 s1 := ⟨h.1.symm, h.2.symm⟩

/-- One that gave up on a request agrees with none that went past it. -/
theorem gaveUp_ne {run : Dispatch σ} {p q : Desk σ × List UInt8} (h : Desk.Path run p q) (hne : p ≠ q)
    {rest : List Did} : gaveUp p ≠ q.1.did ++ rest := by
  obtain heq | ⟨d, tail, hd, hline⟩ := h.did
  · exact absurd heq hne
  · rw [hd, gaveUp, List.append_assoc]
    intro hsame
    have hsame := List.append_cancel_left hsame
    split at hsame
    · cases hsame
    · rw [List.cons_append, List.cons.injEq] at hsame
      exact hline hsame.1.symm

/-- A request given up on first by one of two runs that agree is given up on by
the other. -/
theorem Agree.trips {run : Dispatch σ} {env : σ} {first second : List (List UInt8)}
    {s1 s2 : Ringed σ} (hsame : first.flatten = second.flatten) (h1 : Ended run env first s1)
    (h2 : Ended run env second s2) (hagree : Agree s1 s2) {p : Desk σ × List UInt8}
    (hp : Desk.Path run (front env first.flatten) p) (hopen : p.1.closing = false)
    (hfirst : ∀ q, Desk.Path run (front env first.flatten) q → Desk.Path run q p → q ≠ p →
      ¬ Trips first q.2 ∧ ¬ Trips second q.2) (ht : Trips first p.2) : Trips second p.2 := by
  obtain ⟨hdid, hclosed⟩ := hagree
  cases h1 with
  | done he hnext hd hc hnone => exact absurd ht (hnone p hp hopen)
  | @gave p1 hp1 hopen1 ht1 hbefore hclose hd =>
    have heq : p1 = p := by
      by_contra hne
      obtain hle | hge := hp1.comparable hp
      · exact (hfirst p1 hp1 hle hne).1 ht1
      · exact hbefore p hp hge (fun heq => hne heq.symm) ht
    rw [heq] at hd
    cases h2 with
    | @done e he hnext hd2 hc hnone =>
      -- the other run is at the end of the path, so at `p` or past it
      rw [← hsame] at he
      obtain hle | hge := hp.comparable he
      · by_cases hpe : p = e
        · have hopen2 : ¬ s2.pending = some .close := by
            rw [hc, ← hpe, hopen]
            exact Bool.false_ne_true
          exact absurd (hclosed.mp hclose) hopen2
        · rw [hd, hd2] at hdid
          exact absurd (hdid.trans (List.append_nil _).symm) (gaveUp_ne hle hpe)
      · obtain heq | ⟨q, hstep, -⟩ := ReflTransGen.cases_head hge
        · have hopen2 : ¬ s2.pending = some .close := by
            rw [hc, heq, hopen]
            exact Bool.false_ne_true
          exact absurd (hclosed.mp hclose) hopen2
        · rw [hstep.1] at hnext
          cases hnext
    | @gave p2 hp2 hopen2 ht2 hbefore2 hclose2 hd2 =>
      rw [← hsame] at hp2
      obtain hle | hge := hp.comparable hp2
      · by_cases hpe : p = p2
        · rw [hpe]
          exact ht2
        · rw [hd, hd2] at hdid
          exact absurd hdid (gaveUp_ne hle hpe)
      · by_cases hpe : p2 = p
        · rw [← hpe]
          exact ht2
        · exact absurd ht2 (hfirst p2 hp2 hge hpe).2

/-- Two runs fed the same stream agree exactly when the first request that
either gives up on is given up on by both. -/
theorem cuts_agree_iff (run : Dispatch σ) (env : σ) {first second : List (List UInt8)}
    (hsame : first.flatten = second.flatten) {tr1 tr2 : List (Ringed σ × Moved × Ringed σ)}
    {s1 s2 : Ringed σ} (h1 : Fed run env first tr1 s1) (h2 : Fed run env second tr2 s2) :
    Agree s1 s2 ↔
      ∀ p, Desk.Path run (front env first.flatten) p → p.1.closing = false →
        (∀ q, Desk.Path run (front env first.flatten) q → Desk.Path run q p → q ≠ p →
          ¬ Trips first q.2 ∧ ¬ Trips second q.2) →
        (Trips first p.2 ↔ Trips second p.2) := by
  have he1 := h1.ended
  have he2 := h2.ended
  constructor
  · intro hagree p hp hopen hbefore
    constructor
    · intro ht
      exact hagree.trips hsame he1 he2 hp hopen hbefore ht
    · intro ht
      refine hagree.symm.trips hsame.symm he2 he1 (p := p) ?_ hopen ?_ ht
      · rw [← hsame]
        exact hp
      · rw [← hsame]
        intro q hq hle hne
        exact (hbefore q hq hle hne).symm
  · intro hcond
    -- each is done with all of the bytes, or gave up where a read ended too soon
    cases he1 with
    | @done e1 hp1 hn1 hd1 hc1 ht1 =>
      cases he2 with
      | @done e2 hp2 hn2 hd2 hc2 ht2 =>
        rw [← hsame] at hp2
        -- both are at the end of one path
        have heq : e1 = e2 := by
          obtain hle | hge := hp1.comparable hp2
          · obtain heq | ⟨q, hstep, -⟩ := ReflTransGen.cases_head hle
            · exact heq
            · rw [hstep.1] at hn1
              cases hn1
          · obtain heq | ⟨q, hstep, -⟩ := ReflTransGen.cases_head hge
            · exact heq.symm
            · rw [hstep.1] at hn2
              cases hn2
        exact ⟨by rw [hd1, hd2, heq], by rw [hc1, hc2, heq]⟩
      | @gave p2 hp2 hopen2 ht2 hb2 hc2 hd2 =>
        rw [← hsame] at hp2 hb2
        have hnone := ht1 p2 hp2 hopen2
        refine absurd ((hcond p2 hp2 hopen2 ?_).mpr ht2) hnone
        intro q hq hle hne
        have hopen : q.1.closing = false := by
          obtain heq | ⟨q', hstep, -⟩ := ReflTransGen.cases_head hle
          · exact absurd heq hne
          · exact hstep.cases.1
        exact ⟨ht1 q hq hopen, hb2 q hq hle hne⟩
    | @gave p1 hp1 hopen1 ht1 hb1 hc1 hd1 =>
      cases he2 with
      | @done e2 hp2 hn2 hd2 hc2 ht2 =>
        rw [← hsame] at ht2
        refine absurd ((hcond p1 hp1 hopen1 ?_).mp ht1) (ht2 p1 hp1 hopen1)
        intro q hq hle hne
        have hopen : q.1.closing = false := by
          obtain heq | ⟨q', hstep, -⟩ := ReflTransGen.cases_head hle
          · exact absurd heq hne
          · exact hstep.cases.1
        exact ⟨hb1 q hq hle hne, ht2 q hq hopen⟩
      | @gave p2 hp2 hopen2 ht2 hb2 hc2 hd2 =>
        rw [← hsame] at hp2 hb2
        -- both gave up, and neither could pass the point where the other did
        have heq : p1 = p2 := by
          by_contra hne
          obtain hle | hge := hp1.comparable hp2
          · refine absurd ((hcond p1 hp1 hopen1 ?_).mp ht1) (hb2 p1 hp1 hle hne)
            intro q hq hle' hne'
            refine ⟨hb1 q hq hle' hne', hb2 q hq (hle'.trans hle) ?_⟩
            intro heq
            rw [heq] at hle'
            exact hne (hle.antisymm hle')
          · refine absurd ((hcond p2 hp2 hopen2 ?_).mpr ht2) (hb1 p2 hp2 hge (fun heq => hne heq.symm))
            intro q hq hle' hne'
            refine ⟨hb1 q hq (hle'.trans hge) ?_, hb2 q hq hle' hne'⟩
            intro heq
            rw [heq] at hle'
            exact hne (hle'.antisymm hge)
        exact ⟨by rw [hd1, hd2, heq], by simp [hc1, hc2]⟩

/-! ## Every stream can be fed -/

/-- How much there is still to do: the unread bytes, and to close. -/
def Desk.todo (p : Desk σ × List UInt8) : Nat := p.2.length + if p.1.closing then 0 else 1

theorem Desk.Works.todo_lt {run : Dispatch σ} {p q : Desk σ × List UInt8} (h : Works run p q) :
    p = q ∨ todo q < todo p := by
  induction h with
  | refl => exact .inl rfl
  | @tail b c _ hstep ih =>
    right
    have hlt : todo c < todo b := by
      simp only [next] at hstep
      split at hstep
      · cases hstep
      · next hopen =>
        have hclosing : b.1.closing = false := by simpa using hopen
        split at hstep
        · next used command hp =>
          cases hstep
          have hpos := parsed_done_le hp
          simp only [todo, hclosing, List.length_drop, Bool.false_eq_true, if_false]
          split <;> omega
        · cases hstep
        · cases hstep
          simp only [todo, hclosing, Bool.false_eq_true, if_false, if_true]
          omega
    obtain rfl | hlt' := ih
    · exact hlt
    · exact Nat.lt_trans hlt hlt'

/-- A run at which nothing is in flight or owed goes on until the loop asks for
a read or closes, with every reply written in one piece. -/
theorem comes_to_rest (run : Dispatch σ) (env : σ) {tr : List (Ringed σ × Moved × Ringed σ)}
    {s : Ringed σ} (h : Run (Ring run) (Ringed.new env) tr s) (hnone : s.pending = none)
    (hnil : s.peer.conn.owed = []) :
    ∃ tr' s', Run (Ring run) (Ringed.new env) tr' s' ∧ arrivals tr' = arrivals tr ∧
      (s'.pending = some .close ∨ ∃ at_ len, s'.pending = some (.recv at_ len)) := by
  generalize hn : Desk.todo (s.peer.desk, s.peer.conn.unread) = n
  induction n using Nat.strongRecOn generalizing tr s with
  | ind n ih =>
    have hinv := (Follows.of_run h).inv
    obtain ⟨answer, p1, hall, hstepped⟩ := Peer.stepLoop_ok run hinv.exact
    have hrun := h.snoc (.stepped hnone (hall 0))
    cases answer with
    | recv at_ len => exact ⟨_, _, hrun, by simp [arrivals], .inr ⟨at_, len, rfl⟩⟩
    | close => exact ⟨_, _, hrun, by simp [arrivals], .inl rfl⟩
    | send at_ len =>
      obtain ⟨rfl, hpos, hend⟩ := hstepped.answers
      have hinv1 := (Follows.of_run hrun).inv
      have hflushed := hinv1.written rfl (Nat.le_refl len)
      have hrun2 := hrun.snoc (.written rfl hpos (Nat.le_refl len))
      have hlen : p1.conn.owed.length = len := by
        rw [Conn.owed, List.length_drop]
        omega
      have hgone := hflushed.owed
      rw [List.drop_of_length_le (Nat.le_of_eq hlen)] at hgone
      -- a reply was made, so something was done
      have hless : Desk.todo (p1.desk, p1.conn.unread) < n := by
        obtain heq | hlt := hstepped.works.todo_lt
        · have hdid : s.peer.did = p1.did := congrArg (fun p => p.1.did) heq
          have h1 := hinv.exact.answered_length.2
          have h2 := hstepped.exact.answered_length.2
          rw [hnil, List.length_nil, hdid] at h1
          rw [hstepped.taken] at h2
          omega
        · rw [← hn]
          exact hlt
      obtain ⟨tr', s', hrest, hno, hend⟩ := ih _ hless hrun2 rfl hgone (by
        rw [hflushed.work.desk, hflushed.unread])
      exact ⟨tr', s', hrest, by rw [hno]; simp [arrivals], hend⟩

/-- A stream in pieces no larger than the room that is always there can be fed. -/
theorem fed_of_le_spare (run : Dispatch σ) (env : σ) (pieces : List (List UInt8))
    (hpieces : ∀ d ∈ pieces, 0 < d.length ∧ d.length ≤ spare) : ∃ tr s, Fed run env pieces tr s := by
  induction pieces using List.reverseRecOn with
  | nil =>
    obtain ⟨tr, s, hrun, hno, hend⟩ := comes_to_rest run env .nil rfl rfl
    refine ⟨tr, s, hrun, ⟨[], by rw [hno]; rfl⟩, ?_⟩
    obtain hclose | hrecv := hend
    · exact .inl hclose
    · exact .inr ⟨hrecv, hno⟩
  | append_singleton pieces data ih =>
    obtain ⟨tr, s, hrun, ⟨extra, hgiven⟩, hend⟩ := ih fun d hd => hpieces d (by simp [hd])
    obtain hclose | ⟨⟨at_, len, hrecv⟩, hall⟩ := hend
    · exact ⟨tr, s, hrun, ⟨extra ++ [data], by rw [← hgiven, List.append_assoc]⟩, .inl hclose⟩
    · have hinv := (Follows.of_run hrun).inv
      obtain ⟨howed, -, -, hat, hlen, hspare⟩ := hinv.pending _ hrecv
      obtain ⟨hpos, hle⟩ := hpieces data (by simp)
      have hfits : s.peer.conn.filled + data.length ≤ s.peer.conn.buf.length := by omega
      obtain ⟨peer, hland, -⟩ := Peer.arrived_ok hinv.exact hfits
      rw [← hat] at hland
      have hle' : data.length ≤ len := Nat.le_trans hle hspare
      have hfill := hinv.arrived hrecv hle' hland
      have hrun2 := hrun.snoc (.arrived hrecv hpos hle' hland)
      obtain ⟨tr', s', hrest, hno, hend⟩ := comes_to_rest run env hrun2 rfl (by
        rw [Conn.owed, hfill.out, hfill.sent]
        exact howed)
      have harrivals : arrivals tr' = pieces ++ [data] := by
        rw [hno, arrivals, List.filterMap_append, ← arrivals, hall]
        rfl
      refine ⟨tr', s', hrest, ⟨[], by rw [harrivals, List.append_nil]⟩, ?_⟩
      obtain hclose | hrecv := hend
      · exact .inl hclose
      · exact .inr ⟨hrecv, harrivals⟩

/-- A command in one read and in two. -/
theorem cuts_agree_ping : ∃ tr1 s1 tr2 s2,
    let run : Dispatch Unit := fun env _ dialect => ⟨env, Encoder.simple (ascii "PONG"), dialect, false⟩
    let first := [ascii "PING\r\n"]
    let second := [ascii "PI", ascii "NG\r\n"]
    Fed run () first tr1 s1 ∧ Fed run () second tr2 s2 ∧ (Agree s1 s2 ↔
      ∀ p, Desk.Path run (front () first.flatten) p → p.1.closing = false →
        (∀ q, Desk.Path run (front () first.flatten) q → Desk.Path run q p → q ≠ p →
          ¬ Trips first q.2 ∧ ¬ Trips second q.2) →
        (Trips first p.2 ↔ Trips second p.2)) := by
  obtain ⟨tr1, s1, h1⟩ := fed_of_le_spare
    (fun env _ dialect => ⟨env, Encoder.simple (ascii "PONG"), dialect, false⟩) ()
    [ascii "PING\r\n"] (by decide)
  obtain ⟨tr2, s2, h2⟩ := fed_of_le_spare
    (fun env _ dialect => ⟨env, Encoder.simple (ascii "PONG"), dialect, false⟩) ()
    [ascii "PI", ascii "NG\r\n"] (by decide)
  have hsame : [ascii "PING\r\n"].flatten = [ascii "PI", ascii "NG\r\n"].flatten := by decide
  exact ⟨tr1, s1, tr2, s2, h1, h2, cuts_agree_iff _ () hsame h1 h2⟩

/-! ## A line of one byte too many -/

theorem noNewline_of_long {seen : List UInt8} (hx : ∀ b ∈ seen, b = 120)
    (hlong : maxInline < seen.length) : (parsed seen).1 = .error .noNewline := by
  cases seen with
  | nil => exact absurd hlong (Nat.not_lt_zero _)
  | cons first rest =>
    have hfirst : first = 120 := hx first (by simp)
    have hline : newline (first :: rest) = none := by
      rw [newline, List.findIdx?_eq_none_iff]
      intro b hb
      rw [hx b hb]
      rfl
    have hp := parse_ok (first :: rest)
    rw [parse, if_neg (by rw [hfirst]; decide), parseInline, line_eq, ok_bind,
      (lineAt_zero _).mpr hline] at hp
    simp only [hlong, if_true, pure_ok, Except.ok.injEq] at hp
    rw [← hp]

/-- The longest inline line, one byte more, and its newline: refused where a read
ends before the newline, and run where none does. -/
theorem trips_differ {body : List (List UInt8)} (hlen : body.flatten.length = maxInline)
    (hx : ∀ b ∈ body.flatten, b = 120) :
    Trips (body ++ [[120], [10]]) (body ++ [[120], [10]]).flatten ∧
      ¬ Trips (body ++ [[120, 10]]) (body ++ [[120], [10]]).flatten := by
  have hall : (body ++ [[120], [10]]).flatten = body.flatten ++ [120, 10] := by simp
  constructor
  · refine ⟨body.length + 1, .inl ?_⟩
    have htake : ((body ++ [[120], [10]]).take (body.length + 1)).flatten = body.flatten ++ [120] := by
      rw [List.take_append, List.take_of_length_le (Nat.le_succ _), Nat.add_sub_cancel_left,
        List.flatten_append]
      rfl
    rw [htake, Nat.sub_self, Nat.sub_zero, hall, show [120, 10] = [(120 : UInt8)] ++ [10] from rfl,
      ← List.append_assoc, List.take_left]
    apply noNewline_of_long
    · intro b hb
      obtain hb | hb := List.mem_append.mp hb
      · exact hx b hb
      · exact List.mem_singleton.mp hb
    · rw [List.length_append, hlen]
      exact Nat.lt_succ_self _
  · rintro ⟨k, hk⟩
    have hsame : (body ++ [[120, 10]]).flatten = body.flatten ++ [120, 10] := by simp
    rw [hall, hsame, Nat.sub_self, Nat.sub_zero] at hk
    have hshort : ((body.flatten ++ [120, 10]).take
        (((body ++ [[120, 10]]).take k).flatten.length)).length ≤ maxInline + 2 := by
      rw [List.length_take, List.length_append, hlen]
      exact Nat.min_le_right _ _
    obtain hline | ⟨-, hbig⟩ := hk
    · obtain ⟨hlong, hnone⟩ := parsed_noNewline (Prod.ext hline rfl)
      obtain hk | hk := Nat.lt_or_ge body.length k
      · -- the last read brings the newline with it
        have htake : (body ++ [[120, 10]]).take k = body ++ [[120, 10]] := by
          apply List.take_of_length_le
          rw [List.length_append, List.length_singleton]
          exact hk
        rw [htake, hsame, List.take_length, newline, List.findIdx?_eq_none_iff] at hnone
        have hno := hnone 10 (by simp)
        cases hno
      · have hle : ((body ++ [[120, 10]]).take k).flatten.length ≤ maxInline := by
          have hsplit := congrArg List.length (congrArg List.flatten (List.take_append_drop k body))
          rw [List.flatten_append, List.length_append, hlen] at hsplit
          rw [List.take_append_of_le_length hk]
          omega
        rw [List.length_take] at hlong
        omega
    · have hmax : maxInline + 2 ≤ maxRequest - spare := by decide
      omega

/-- The same line cut in two ways comes to two ends. -/
theorem cuts_differ : ¬ ∀ (run : Dispatch Unit) (first second : List (List UInt8))
    (tr1 tr2 : List (Ringed Unit × Moved × Ringed Unit)) (s1 s2 : Ringed Unit),
    first.flatten = second.flatten → Fed run () first tr1 s1 → Fed run () second tr2 s2 →
    Agree s1 s2 := by
  intro hall
  -- as long as a line may be, and one byte more before its newline
  obtain ⟨body, hbody⟩ : ∃ body, body = List.replicate 16 (List.replicate spare (120 : UInt8)) := ⟨_, rfl⟩
  have hpiece : ∀ d ∈ body, d = List.replicate spare 120 := by
    rw [hbody]
    exact fun d hd => List.eq_of_mem_replicate hd
  have hlen : body.flatten.length = maxInline := by
    rw [hbody, List.length_flatten, List.map_replicate, List.length_replicate, List.sum_replicate_nat]
    rfl
  have hx : ∀ b ∈ body.flatten, b = 120 := by
    intro b hb
    obtain ⟨d, hd, hb⟩ := List.mem_flatten.mp hb
    rw [hpiece d hd] at hb
    exact List.eq_of_mem_replicate hb
  have hsize : ∀ d ∈ body, 0 < d.length ∧ d.length ≤ spare := by
    intro d hd
    rw [hpiece d hd, List.length_replicate]
    exact ⟨by decide, Nat.le_refl _⟩
  obtain ⟨run, -⟩ : ∃ run : Dispatch Unit, run = fun env _ dialect => ⟨env, [], dialect, false⟩ :=
    ⟨_, rfl⟩
  obtain ⟨tr1, s1, h1⟩ := fed_of_le_spare run () (body ++ [[120], [10]]) (by
    intro d hd
    obtain hd | hd := List.mem_append.mp hd
    · exact hsize d hd
    · obtain rfl | hd := List.mem_cons.mp hd
      · decide
      · rw [List.mem_singleton.mp hd]
        decide)
  obtain ⟨tr2, s2, h2⟩ := fed_of_le_spare run () (body ++ [[120, 10]]) (by
    intro d hd
    obtain hd | hd := List.mem_append.mp hd
    · exact hsize d hd
    · rw [List.mem_singleton.mp hd]
      decide)
  have hsame : (body ++ [[120], [10]]).flatten = (body ++ [[120, 10]]).flatten := by simp
  obtain ⟨hyes, hno⟩ := trips_differ hlen hx
  have hcond := (cuts_agree_iff run () hsame h1 h2).mp (hall run _ _ tr1 tr2 s1 s2 hsame h1 h2)
  refine hno ((hcond (front () _) .refl rfl ?_).mp hyes)
  intro q hq hle hne
  exact absurd (hle.antisymm hq) hne

end Rugo
