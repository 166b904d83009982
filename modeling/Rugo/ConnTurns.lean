import Rugo.ConnRuns

/- What the readiness loop leaves undone.

     1. `never_asleep_iff`: it goes to sleep on a whole command exactly when a
        turn stalls: one that only writes leaves a command that an earlier turn
        stopped before, or one that reads stops at the reply ceiling before a
        command, and either way the socket takes everything that is owed.
     2. `answered_iff`: it drops a connection that is owed a reply exactly when a
        turn cuts it off: the read finds the end of input, or no room, while the
        flush before it left something, or while a whole command is unexecuted. -/
namespace Rugo
open Exec Resp Runs

variable {σ : Type}

/-- A complete command stands at the front. -/
def Whole (bytes : List UInt8) : Prop :=
  ∃ used, ∃ command : Command, parse bytes = .ok (.ok (.done used), command)

theorem whole_iff {bytes : List UInt8} :
    Whole bytes ↔ ∃ used, ∃ command : Command, parsed bytes = (.ok (.done used), command) := by
  simp only [Whole, parse_ok, Except.ok.injEq]

namespace Desk

/-- How many bytes of reply were made between two points of the work. -/
def made (p q : Desk σ × List UInt8) : Nat :=
  (answered q.1.did).length - (answered p.1.did).length

theorem answered_le {run : Dispatch σ} {p q : Desk σ × List UInt8} (h : Works run p q) :
    (answered p.1.did).length ≤ (answered q.1.did).length := by
  induction h with
  | refl => exact Nat.le_refl _
  | @tail q q' _ hstep ih =>
    refine Nat.le_trans ih ?_
    obtain ⟨⟨env, dialect, closing, did⟩, rest⟩ := q
    simp only [next] at hstep
    split at hstep
    · cases hstep
    · split at hstep
      · next used command _ =>
        cases hstep
        simp only [dispatch]
        split
        · simp only [answered_snoc, List.length_append]
          omega
        · simp only [answered_snoc, List.length_append]
          omega
      · cases hstep
      · cases hstep
        simp only [answered_snoc, List.length_append]
        omega

/-- Work that stops before a whole command started before one. -/
theorem whole_before {run : Dispatch σ} {p q : Desk σ × List UInt8} (h : Works run p q)
    (hopen : q.1.closing = false) (hwhole : Whole q.2) : p.1.closing = false ∧ Whole p.2 := by
  cases h using Relation.ReflTransGen.head_induction_on with
  | refl => exact ⟨hopen, hwhole⟩
  | @head p1 _ hstep hrest _ =>
    simp only [next] at hstep
    split at hstep
    · cases hstep
    · next hp =>
      refine ⟨by simpa using hp, ?_⟩
      split at hstep
      · next used command hparse => exact whole_iff.mpr ⟨used, command, hparse⟩
      · cases hstep
      · -- after a refusal nothing more is done, and `q` would be closing
        cases hstep
        cases hrest using Relation.ReflTransGen.head_induction_on with
        | refl => cases hopen
        | head hstep' _ _ =>
          simp only [next, if_true] at hstep'
          cases hstep'

end Desk

namespace Peer

theorem Executed.made {run : Dispatch σ} {s s' : Peer σ} (hs : s.Exact) (h : Executed run s s') :
    s'.conn.owed.length =
      s.conn.owed.length + Desk.made (s.desk, s.conn.unread) (s'.desk, s'.conn.unread) ∧
    s'.conn.out.length =
      s.conn.out.length + Desk.made (s.desk, s.conn.unread) (s'.desk, s'.conn.unread) := by
  have hle := Desk.answered_le h.works
  have h1 := hs.answered_length
  have h2 := h.exact.answered_length
  rw [h.taken, h.sent] at h2
  simp only [Desk.made, desk] at hle ⊢
  omega

end Peer

theorem Writes.fails_of_given {writes : Writes} {n : Nat} (h : writes.given n = n) :
    writes.fails n = false := by
  induction writes generalizing n with
  | took more next ih =>
    have hle := next.given_le (n - (more + 1))
    simp only [given] at h
    simp only [fails, ih (n := n - (more + 1)) (by omega), Bool.and_false]
  | interrupted next ih => simp only [fails, ih h, Bool.and_false]
  | zero => simp [fails, show n = 0 from h.symm]
  | wouldBlock => rfl
  | failed => simp [fails, show n = 0 from h.symm]

theorem Reads.fails_of_hungUp {reads : Reads} (h : reads.hungUp = true) : reads.fails = false := by
  induction reads with
  | interrupted next ih => exact ih h
  | eof => rfl
  | took first more => rfl
  | wouldBlock => rfl
  | failed => cases h

theorem Peer.Wrote.all {s s' : Peer σ} {writes : Writes} {good : Bool} (h : Wrote s s' writes good) :
    s'.conn.owed = [] ↔ writes.given s.conn.owed.length = s.conn.owed.length := by
  have hle := writes.given_le s.conn.owed.length
  rw [h.flushed.owed, List.drop_eq_nil_iff]
  omega

theorem Peer.verdict_read {c : Conn} : verdict c = .read ↔ c.owed = [] ∧ c.closing = false := by
  rw [verdict, Conn.owed, List.drop_eq_nil_iff]
  split
  · next hlt =>
    simp only [reduceCtorEq, false_iff]
    omega
  · next hlt =>
    cases c.closing with
    | false =>
      simp only [Bool.false_eq_true, if_false, true_iff, and_true]
      omega
    | true => simp

theorem Peer.verdict_close {c : Conn} (h : verdict c = .close) : c.owed = [] ∧ c.closing = true := by
  rw [verdict] at h
  rw [Conn.owed, List.drop_eq_nil_iff]
  split at h
  · cases h
  · next hlt =>
    split at h
    · next hc => exact ⟨by omega, hc⟩
    · cases h

/-! ## Going to sleep -/

/-- The turn ends with nothing owed before a whole command. -/
def Stalls (run : Dispatch σ) (s : Peer σ) (e : Woken) : Prop :=
  s.breaks e.writable e.io = false ∧
  if e.readable then
    s.conn.unread.length ≤ maxRequest - spare ∧
    e.io.reads.hungUp = false ∧ e.io.reads.fails = false ∧
    ∃ q, Desk.Works run (s.desk, s.conn.unread ++ e.io.reads.data s.conn.room) q ∧
      q.1.closing = false ∧ Whole q.2 ∧
      maxReply ≤ s.held e.writable e.io + Desk.made (s.desk, s.conn.unread) q ∧
      e.io.late.given (s.kept e.writable e.io + Desk.made (s.desk, s.conn.unread) q) =
        s.kept e.writable e.io + Desk.made (s.desk, s.conn.unread) q
  else s.kept e.writable e.io = 0 ∧ s.conn.closing = false ∧ Whole s.conn.unread

theorem asleep_iff (run : Dispatch σ) {s s' : Peer σ} (h : s.Exact) {readable writable : Bool} {io : Io}
    {answer : Turn} (hturn : s.turn run readable writable io = .ok (answer, s')) :
    (answer = .read ∧ Whole s'.conn.unread) ↔ Stalls run s ⟨readable, writable, io, answer⟩ := by
  obtain ⟨⟨⟨n, hflushed⟩, -, hkept, hheld⟩, heq⟩ := Peer.turn_early run h readable writable io
  rw [hturn] at heq
  simp only [Stalls]
  cases hb : s.breaks writable io with
  | true =>
    rw [hb, if_pos rfl] at heq
    cases heq
    simp
  | false =>
    rw [hb, if_neg Bool.false_ne_true] at heq
    have hheld := hheld hb
    generalize s.early writable io = s0 at heq hflushed hkept hheld
    have hdesk := hflushed.work.desk
    have hunread := hflushed.unread
    cases readable with
    | false =>
      cases heq
      simp only [Bool.false_eq_true, if_false, true_and]
      rw [Peer.verdict_read, ← hkept, List.length_eq_zero_iff, hunread, hflushed.work.closing, and_assoc]
    | true =>
      simp only [if_true, true_and]
      rw [Peer.turnOn, if_pos rfl] at heq
      obtain ⟨s1, hs, -, hgone, -⟩ | ⟨s1, s2, s3, good, hfill, hhere, -, hexec, hstop, hwrote, hs⟩ :=
        Peer.serve_cases run hflushed.exact io
      · rw [hs] at heq
        cases heq
        simp only [reduceCtorEq, false_and, false_iff]
        rintro ⟨hroom, hup, hfails, -⟩
        rw [hunread, hup, hfails] at hgone
        obtain hbig | hno := hgone
        · omega
        · cases hno
      · rw [hs] at heq
        cases heq
        -- the work of this turn, from what was unread and what came in
        have hstart : (s1.desk, s1.conn.unread) =
            (s.desk, s.conn.unread ++ io.reads.data s.conn.room) := by
          rw [hfill.work.desk, hdesk, hfill.unread, hunread, hflushed.room]
        have hworks := hexec.works
        have hmade := hexec.made hfill.exact
        rw [hstart] at hworks hmade
        have howed : s1.conn.owed.length = s.kept writable io := by
          rw [Conn.owed, hfill.out, hfill.sent, ← Conn.owed, hkept]
        have hout : s1.conn.out.length = s.held writable io := by rw [hfill.out, hheld]
        rw [howed, hout] at hmade
        have hhere : s.conn.unread.length ≤ maxRequest - spare ∧ io.reads.hungUp = false ∧
            io.reads.fails = false := by
          rw [hunread] at hhere
          simpa using hhere
        constructor
        · rintro ⟨hread, hwhole⟩
          have hgood : good = true := by
            cases good with
            | true => rfl
            | false => cases hread
          rw [hgood, if_pos rfl, Peer.verdict_read, hwrote.all, hwrote.flushed.work.closing] at hread
          obtain ⟨hall, hopen⟩ := hread
          rw [hwrote.flushed.unread] at hwhole
          refine ⟨hhere.1, hhere.2.1, hhere.2.2, (s2.desk, s2.conn.unread), hworks, hopen, hwhole, ?_, ?_⟩
          · obtain hc | hm | ⟨command, hmore⟩ := hstop
            · rw [hopen] at hc
              cases hc
            · rw [hmade.2] at hm
              exact hm
            · obtain ⟨used, command', hdone⟩ := whole_iff.mp hwhole
              rw [hmore] at hdone
              cases hdone
          · rw [hmade.1] at hall
            exact hall
        · rintro ⟨-, -, -, q, hq, hopen, hwhole, hceil, hgiven⟩
          -- execution stopped at the ceiling, so no later than the point given
          have hafter : Desk.Works run (s2.desk, s2.conn.unread) q := by
            have hto : Desk.Works run (s1.desk, s1.conn.unread) q := by
              rw [hstart]
              exact hq
            apply hexec.under.works_after hto
            have h1 := hfill.exact.answered_length.1
            have hle := Desk.answered_le hq
            have hdid : s1.did = s.did := by
              have := congrArg Desk.did (hfill.work.desk.trans hdesk)
              exact this
            rw [hdid] at h1
            have hself : s.desk.did = s.did := rfl
            simp only [Desk.made, hself] at hceil hle
            omega
          obtain ⟨hopen2, hwhole2⟩ := Desk.whole_before hafter hopen hwhole
          have hle : Desk.made (s.desk, s.conn.unread) (s2.desk, s2.conn.unread) ≤
              Desk.made (s.desk, s.conn.unread) q := by
            have hgrow : (answered s2.desk.did).length ≤ (answered q.1.did).length :=
              Desk.answered_le hafter
            simp only [Desk.made]
            omega
          have hall : io.late.given s2.conn.owed.length = s2.conn.owed.length := by
            rw [hmade.1]
            exact io.late.given_mono (Nat.add_le_add_left hle _) hgiven
          have hgood : good = true := by rw [hwrote.good, Writes.fails_of_given hall]; rfl
          rw [hgood, if_pos rfl, Peer.verdict_read, hwrote.all, hwrote.flushed.work.closing,
            hwrote.flushed.unread]
          exact ⟨⟨hall, hopen2⟩, hwhole2⟩

/-- A run of the readiness loop never goes to sleep on a whole command exactly
when none of its turns stalls. -/
theorem never_asleep_iff (run : Dispatch σ) (env : σ) {tr : List (Polled σ × Woken × Polled σ)}
    {s : Polled σ} (h : Run (Turned run) (Polled.new env) tr s) :
    (∀ x ∈ tr, x.2.1.answer = .read → ¬ Whole x.2.2.peer.conn.unread) ↔
      ∀ x ∈ tr, ¬ Stalls run x.1.peer x.2.1 := by
  have hsteps := (h.steps (I := fun s => s.peer.Exact) (Peer.exact_new env)
    (fun _ _ _ hex hs => Turned.inv run hex hs)).2
  have hone : ∀ x ∈ tr, (x.2.1.answer = .read ∧ Whole x.2.2.peer.conn.unread) ↔
      Stalls run x.1.peer x.2.1 := by
    intro ⟨s, e, s'⟩ hx
    obtain ⟨hex, hstep⟩ := hsteps _ hx
    cases hstep with
    | mk _ hturn => exact asleep_iff run hex hturn
  constructor
  · intro hall x hx hstall
    obtain ⟨hread, hwhole⟩ := (hone x hx).mpr hstall
    exact hall x hx hread hwhole
  · intro hall x hx hread hwhole
    exact hall x hx ((hone x hx).mp ⟨hread, hwhole⟩)

theorem run_turn (run : Dispatch σ) (env : σ) (readable writable : Bool) (io : Io) :
    ∃ answer s, (Peer.new env).turn run readable writable io = .ok (answer, s) ∧
      Run (Turned run) (Polled.new env) [(Polled.new env, ⟨readable, writable, io, answer⟩, ⟨s, answer⟩)]
        ⟨s, answer⟩ := by
  obtain ⟨answer, s, hturn, -⟩ := Turned.exact run (Peer.exact_new env) readable writable io
  have hnew : (Polled.new env).last ≠ .close := by simp [Polled.new]
  exact ⟨answer, s, hturn, .single (.mk hnew hturn)⟩

/-- `GET k`. -/
def getOne : List UInt8 := ascii "*2\r\n$3\r\nGET\r\n$1\r\nk\r\n"

theorem parsed_getOne (rest : List UInt8) :
    parsed (getOne ++ rest) = (.ok (.done 20), [⟨8, 3⟩, ⟨17, 1⟩]) := by
  have hone : parsed getOne = (.ok (.done getOne.length), [⟨8, 3⟩, ⟨17, 1⟩]) := by decide
  exact parsed_append hone rest

/-- A command that is answered with a value of one mebibyte. -/
def bigValue : Dispatch Unit := fun env _ dialect =>
  ⟨env, Encoder.bulk (List.replicate maxReply 0x78), dialect, false⟩

/-- A command that is answered with the absence of a value. -/
def noValue : Dispatch Unit := fun env _ dialect => ⟨env, Encoder.null dialect, dialect, false⟩

theorem maxReply_le_bigValue (env : Unit) (args : List (List UInt8)) (dialect : Dialect) :
    maxReply ≤ (bigValue env args dialect).reply.length := by
  have hle := Encoder.length_le_bulk (List.replicate maxReply 0x78)
  rwa [List.length_replicate] at hle

theorem next_getOne (run : Dispatch σ) (env : σ) {ran : Ran σ} (hran : run env [ascii "GET", ascii "k"] .resp2 = ran)
    (rest : List UInt8) : Desk.next run ((Peer.new env).desk, getOne ++ rest) =
      some (⟨ran.env, ran.dialect, ran.last, [.ran getOne [ascii "GET", ascii "k"] ran.reply]⟩, rest) := by
  have hargs : Command.args [⟨8, 3⟩, ⟨17, 1⟩] getOne = [ascii "GET", ascii "k"] := by decide
  have htake : (getOne ++ rest).take 20 = getOne := List.take_left' (by decide)
  have hdrop : (getOne ++ rest).drop 20 = rest := List.drop_left' (by decide)
  simp only [Desk.next, parsed_getOne, htake, hdrop, Desk.dispatch, Peer.desk, Peer.new, Conn.new, List.isEmpty_cons,
    Bool.false_eq_true, if_false, hargs, hran, Bool.false_or, List.nil_append]

/-- Two commands arrive at once, and the socket takes the whole first answer. -/
theorem stalls_getOne (run : Dispatch σ) (env : σ)
    (hbig : maxReply ≤ (run env [ascii "GET", ascii "k"] .resp2).reply.length)
    (hlast : (run env [ascii "GET", ascii "k"] .resp2).last = false) :
    ∃ io, ∀ answer, Stalls run (Peer.new env) ⟨true, false, io, answer⟩ := by
  generalize hran : run env [ascii "GET", ascii "k"] .resp2 = ran at hbig hlast
  have hnext := next_getOne run env hran getOne
  generalize hfirst : (⟨ran.env, ran.dialect, ran.last, [.ran getOne [ascii "GET", ascii "k"] ran.reply]⟩ : Desk σ) =
    first at hnext
  have hmade : Desk.made ((Peer.new env).desk, (Peer.new env).conn.unread) (first, getOne) =
      ran.reply.length := by
    simp only [Desk.made, ← hfirst, answered, Peer.desk, Peer.new, List.map_cons, List.map_nil, Did.reply,
      List.flatten_cons, List.flatten_nil, List.append_nil, List.length_nil, Nat.sub_zero]
  have hdata : (Reads.took 42 (getOne.drop 1 ++ getOne)).data (Peer.new env).conn.room =
      getOne ++ getOne := by
    rw [Peer.room_new]
    exact List.take_of_length_le (by decide)
  refine ⟨⟨.wouldBlock, .took 42 (getOne.drop 1 ++ getOne), .took ran.reply.length .wouldBlock⟩, ?_⟩
  intro answer
  refine ⟨rfl, Nat.zero_le _, rfl, rfl, (first, getOne), .single ?_, ?_, ?_, ?_, ?_⟩
  · simp only [hdata]
    rw [Peer.unread_new]
    exact hnext
  · rw [← hfirst]
    exact hlast
  · exact whole_iff.mpr ⟨20, [⟨8, 3⟩, ⟨17, 1⟩], parsed_getOne []⟩
  · rw [hmade]
    exact Nat.le_trans hbig (Nat.le_add_left _ _)
  · have hkept : (Peer.new env).kept false ⟨.wouldBlock, .took 42 (getOne.drop 1 ++ getOne),
        .took ran.reply.length .wouldBlock⟩ = 0 := rfl
    rw [hmade, hkept]
    simp only [Writes.given]
    omega

/-- A pipeline of two reads of a large value is left half answered. -/
theorem asleep_run : ¬ ∀ (run : Dispatch Unit) (tr : List (Polled Unit × Woken × Polled Unit))
    (s : Polled Unit), Run (Turned run) (Polled.new ()) tr s →
    ∀ x ∈ tr, x.2.1.answer = .read → ¬ Whole x.2.2.peer.conn.unread := by
  intro hall
  obtain ⟨io, hstalls⟩ := stalls_getOne bigValue () (maxReply_le_bigValue _ _ _) rfl
  obtain ⟨answer, s', hturn, hrun⟩ := run_turn bigValue () true false io
  obtain ⟨hread, hwhole⟩ := (asleep_iff bigValue (Peer.exact_new ()) hturn).mpr (hstalls answer)
  exact hall bigValue _ _ hrun _ (List.mem_singleton.mpr rfl) hread hwhole

theorem never_asleep_getOne : ∃ tr s, Run (Turned noValue) (Polled.new ()) tr s ∧ tr.length = 1 ∧
    ((∀ x ∈ tr, x.2.1.answer = .read → ¬ Whole x.2.2.peer.conn.unread) ↔
      ∀ x ∈ tr, ¬ Stalls noValue x.1.peer x.2.1) := by
  obtain ⟨answer, s, -, hrun⟩ := run_turn noValue () true false
    ⟨.wouldBlock, .took 42 (getOne.drop 1), .took 5 .wouldBlock⟩
  exact ⟨_, _, hrun, rfl, never_asleep_iff noValue () hrun⟩

/-! ## Cutting off -/

/-- Everything the commands received were answered has been handed to the
socket: those executed, and there is none that was not. -/
def Answered (s : Peer σ) : Prop :=
  s.taken = answered s.did ∧ (s.conn.closing = true ∨ ¬ Whole s.conn.unread)

/-- The read finds the end of input, or no room, with something left to do. -/
def Cuts (s : Peer σ) (e : Woken) : Prop :=
  e.readable = true ∧ s.breaks e.writable e.io = false ∧
  (maxRequest - spare < s.conn.unread.length ∨ e.io.reads.hungUp = true) ∧
  (s.kept e.writable e.io ≠ 0 ∨ s.conn.closing = false ∧ Whole s.conn.unread)

theorem Peer.Exact.taken_iff {s : Peer σ} (h : s.Exact) :
    s.taken = answered s.did ↔ s.conn.owed = [] := by
  rw [← h.replies, List.self_eq_append_right]

theorem cuts_iff (run : Dispatch σ) {s s' : Peer σ} (h : s.Exact) (hgood : s.broken = false)
    {readable writable : Bool} {io : Io} {answer : Turn}
    (hturn : s.turn run readable writable io = .ok (answer, s')) :
    (answer = .close ∧ ¬ (s'.broken = true ∨ Answered s')) ↔
      Cuts s ⟨readable, writable, io, answer⟩ := by
  obtain ⟨⟨⟨n, hflushed⟩, hbroken, hkept, -⟩, heq⟩ := Peer.turn_early run h readable writable io
  rw [hturn] at heq
  simp only [Cuts]
  -- the bytes owed go out first, and a failure of that is no cut
  cases hb : s.breaks writable io with
  | true =>
    rw [hb, if_pos rfl] at heq
    cases heq
    simp [hbroken, hb]
  | false =>
    rw [hb, if_neg Bool.false_ne_true] at heq
    rw [hgood, hb] at hbroken
    generalize s.early writable io = s0 at heq hflushed hkept hbroken
    cases readable with
    | false =>
      cases heq
      simp only [Bool.false_eq_true, false_and, iff_false]
      rintro ⟨hclose, hnot⟩
      obtain ⟨howed, hclosing⟩ := Peer.verdict_close hclose
      exact hnot (.inr ⟨hflushed.exact.taken_iff.mpr howed, .inl hclosing⟩)
    | true =>
      rw [Peer.turnOn, if_pos rfl] at heq
      obtain ⟨s1, hs, hfill, hgone, hbroke⟩ | ⟨s1, s2, s3, good, hfill, hhere, hbroke, hexec, -, hwrote, hs⟩ :=
        Peer.serve_cases run hflushed.exact io
      · rw [hs] at heq
        cases heq
        have howed : s'.taken = answered s'.did ↔ s.kept writable io = 0 := by
          rw [hfill.exact.taken_iff, Conn.owed, hfill.out, hfill.sent, ← Conn.owed, ← hkept,
            List.length_eq_zero_iff]
        have hunread : s'.conn.unread = s.conn.unread := by
          rw [hfill.unread, List.append_nil, hflushed.unread]
        have hclosing : s'.conn.closing = s.conn.closing :=
          hfill.work.closing.trans hflushed.work.closing
        rw [hbroken, hflushed.unread] at hbroke
        rw [hflushed.unread] at hgone
        rw [Answered, howed, hunread, hclosing]
        -- it closes after the read: too much is unread, the peer has hung up, or the read failed
        by_cases hcut : maxRequest - spare < s.conn.unread.length ∨ io.reads.hungUp = true
        · have hwell : s'.broken = false := by
            rw [hbroke]
            obtain hbig | hup := hcut
            · simp [Nat.not_le.mpr hbig]
            · simp [Reads.fails_of_hungUp hup]
          simp only [hwell, hcut, Bool.false_eq_true, false_or, true_and, not_and_or, not_or, not_not,
            Bool.not_eq_true, ne_eq]
        · rw [not_or] at hcut
          have hfails : io.reads.fails = true := by simpa [hcut.1, hcut.2] using hgone
          simp [hbroke, hfails, hcut.1, hcut.2, Nat.not_lt.mp hcut.1]
      · rw [hs] at heq
        cases heq
        rw [hflushed.unread] at hhere
        have hno : ¬ (maxRequest - spare < s.conn.unread.length ∨ io.reads.hungUp = true) := by
          rintro (hbig | hup)
          · exact hhere (.inl hbig)
          · exact hhere (.inr (by simp [hup]))
        constructor
        · rintro ⟨hclose, hnot⟩
          cases good with
          | true =>
            obtain ⟨howed, hclosing⟩ := Peer.verdict_close hclose
            exact absurd (.inr ⟨hwrote.flushed.exact.taken_iff.mpr howed, .inl hclosing⟩) hnot
          | false =>
            have hfails := hwrote.good
            rw [eq_comm, Bool.not_eq_false'] at hfails
            exact absurd (.inl (by simp [hwrote.broken, hfails])) hnot
        · rintro ⟨-, -, hgone, -⟩
          exact absurd hgone hno

/-- What every state the readiness loop reaches meets. -/
structure Polled.Inv (s : Polled σ) : Prop where
  exact : s.peer.Exact
  good : s.last ≠ .close → s.peer.broken = false

theorem Polled.inv_new (env : σ) : (Polled.new env).Inv := ⟨Peer.exact_new env, fun _ => rfl⟩

theorem Turned.good (run : Dispatch σ) {s : Polled σ} {e : Woken} {s' : Polled σ} (h : s.Inv)
    (hs : Turned run s e s') : s'.Inv := by
  refine ⟨Turned.inv run h.exact hs, ?_⟩
  cases hs with
  | mk hlast hturn =>
    obtain ⟨answer, s1, hok, -, hsame⟩ := Turned.exact run h.exact _ _ _
    rw [hturn] at hok
    cases hok
    intro hopen
    rw [hsame hopen, h.good hlast]

/-- A run of the readiness loop drops a connection only once it was answered, or
the socket failed, exactly when none of its turns cuts one off. -/
theorem answered_iff (run : Dispatch σ) (env : σ) {tr : List (Polled σ × Woken × Polled σ)}
    {s : Polled σ} (h : Run (Turned run) (Polled.new env) tr s) :
    (∀ x ∈ tr, x.2.1.answer = .close → x.2.2.peer.broken = true ∨ Answered x.2.2.peer) ↔
      ∀ x ∈ tr, ¬ Cuts x.1.peer x.2.1 := by
  have hsteps := (h.steps (Polled.inv_new env) (fun _ _ _ hinv hs => Turned.good run hinv hs)).2
  have hone : ∀ x ∈ tr, (x.2.1.answer = .close ∧ ¬ (x.2.2.peer.broken = true ∨ Answered x.2.2.peer)) ↔
      Cuts x.1.peer x.2.1 := by
    intro ⟨s, e, s'⟩ hx
    obtain ⟨hinv, hstep⟩ := hsteps _ hx
    cases hstep with
    | mk hlast hturn => exact cuts_iff run hinv.exact (hinv.good hlast) hturn
  constructor
  · intro hall x hx hcut
    obtain ⟨hclose, hnot⟩ := (hone x hx).mpr hcut
    exact hnot (hall x hx hclose)
  · intro hall x hx hclose
    by_contra hnot
    exact hall x hx ((hone x hx).mp ⟨hclose, hnot⟩)

theorem answered_getOne : ∃ tr s, Run (Turned noValue) (Polled.new ()) tr s ∧ tr.length = 1 ∧
    ((∀ x ∈ tr, x.2.1.answer = .close → x.2.2.peer.broken = true ∨ Answered x.2.2.peer) ↔
      ∀ x ∈ tr, ¬ Cuts x.1.peer x.2.1) := by
  obtain ⟨answer, s, -, hrun⟩ := run_turn noValue () true false
    ⟨.wouldBlock, .took 42 (getOne.drop 1), .took 5 .wouldBlock⟩
  exact ⟨_, _, hrun, rfl, answered_iff noValue () hrun⟩

/-- A command read while the socket takes nothing leaves its reply owed. -/
theorem owes_getOne (run : Dispatch σ) (env : σ)
    (hreply : (run env [ascii "GET", ascii "k"] .resp2).reply ≠ []) {answer : Turn} {s' : Peer σ}
    (hturn : (Peer.new env).turn run true false
      ⟨.wouldBlock, .took 42 (getOne.drop 1), .wouldBlock⟩ = .ok (answer, s')) :
    answer ≠ .close ∧ s'.conn.owed ≠ [] := by
  generalize hran : run env [ascii "GET", ascii "k"] .resp2 = ran at hreply
  have hdata : (Reads.took 42 (getOne.drop 1)).data (Peer.new env).conn.room = getOne := by
    rw [Peer.room_new]
    exact List.take_of_length_le (by decide)
  have hparse := parsed_getOne []
  rw [List.append_nil] at hparse
  have hargs : Command.args [⟨8, 3⟩, ⟨17, 1⟩] getOne = [ascii "GET", ascii "k"] := by decide
  change (Peer.new env).serve run ⟨.wouldBlock, .took 42 (getOne.drop 1), .wouldBlock⟩ = _ at hturn
  obtain ⟨s1, -, -, hgone, -⟩ | ⟨s1, s2, s3, good, hfill, -, -, hexec, hstop, hwrote, hs⟩ :=
    Peer.serve_cases run (Peer.exact_new env) ⟨.wouldBlock, .took 42 (getOne.drop 1), .wouldBlock⟩
  · rw [Peer.unread_new] at hgone
    obtain hbig | hno := hgone
    · exact absurd hbig (Nat.not_lt_zero _)
    · cases hno
  · rw [hs] at hturn
    have hgood : good = true := hwrote.good
    rw [hgood, if_pos rfl] at hturn
    cases hturn
    have howed : s'.conn.owed = s2.conn.owed := by rw [hwrote.flushed.owed]; rfl
    have hworks := hexec.works
    rw [hfill.work.desk, hfill.unread, hdata, Peer.unread_new, List.nil_append] at hworks
    -- the command has run: it was whole, and nothing is at the ceiling before it
    have hanswered : answered s2.did = ran.reply := by
      obtain heq | ⟨p, hp, hrest⟩ := Relation.ReflTransGen.cases_head hworks
      · rw [Prod.mk.injEq] at heq
        obtain ⟨hdesk, hunread⟩ := heq
        have hclosing : s2.conn.closing = false := congrArg Desk.closing hdesk.symm
        have hdid : s2.did = [] := congrArg Desk.did hdesk.symm
        obtain hc | hm | ⟨command, hmore⟩ := hstop
        · rw [hclosing] at hc
          cases hc
        · have hlen := hexec.exact.answered_length.1
          have hsent : s2.conn.sent = 0 := by
            rw [hexec.sent, hfill.sent]
            rfl
          rw [hdid, hsent] at hlen
          have hempty : (answered []).length = 0 := rfl
          have hmax : 0 < maxReply := by decide
          omega
        · rw [← hunread, hparse] at hmore
          cases hmore
      · simp only [Desk.next, hparse, Peer.desk, Peer.new, Conn.new, Bool.false_eq_true, if_false,
          Option.some.injEq] at hp
        have hrest' : Desk.Works run p (s2.desk, s2.conn.unread) := hrest
        rw [← hp] at hrest'
        obtain heq | ⟨q, hq, -⟩ := Relation.ReflTransGen.cases_head hrest'
        · have hdid := congrArg (fun p => answered p.1.did) heq
          simp only [Desk.dispatch, List.isEmpty_cons, Bool.false_eq_true, if_false,
            show List.take 20 getOne = getOne from rfl, hargs, hran] at hdid
          rw [← show answered s2.desk.did = answered s2.did from rfl, ← hdid]
          simp [answered, Did.reply]
        · -- nothing is left to parse
          simp only [Desk.next, show List.drop 20 getOne = [] from rfl, parsed_nil] at hq
          split at hq <;> cases hq
    have hne : s'.conn.owed ≠ [] := by
      have hreplies := hexec.exact.replies
      rw [hexec.taken, hfill.taken, hanswered] at hreplies
      rw [howed]
      intro hnil
      rw [hnil] at hreplies
      exact hreply hreplies.symm
    refine ⟨?_, hne⟩
    intro hclose
    exact hne (Peer.verdict_close hclose).1

/-- The reply to a command is still owed when the end of input is read. -/
theorem cut_run : ¬ ∀ (run : Dispatch Unit) (tr : List (Polled Unit × Woken × Polled Unit))
    (s : Polled Unit), Run (Turned run) (Polled.new ()) tr s →
    ∀ x ∈ tr, x.2.1.answer = .close → x.2.2.peer.broken = true ∨ Answered x.2.2.peer := by
  intro hall
  let io : Io := ⟨.wouldBlock, .took 42 (getOne.drop 1), .wouldBlock⟩
  let io' : Io := ⟨.wouldBlock, .eof, .wouldBlock⟩
  obtain ⟨answer, s1, hturn, -⟩ := Turned.exact noValue (Peer.exact_new ()) true false io
  have hnew : (Polled.new ()).last ≠ .close := by simp [Polled.new]
  have hfirst : Turned noValue (Polled.new ()) ⟨true, false, io, answer⟩ ⟨s1, answer⟩ := .mk hnew hturn
  have hinv := Turned.good noValue (Polled.inv_new ()) hfirst
  obtain ⟨hopen, howed⟩ := owes_getOne noValue () (by decide) hturn
  obtain ⟨answer', s2, hturn', -⟩ := Turned.exact noValue hinv.exact true false io'
  have hcut : Cuts s1 ⟨true, false, io', answer'⟩ := by
    refine ⟨rfl, rfl, .inr rfl, .inl ?_⟩
    intro hkept
    exact howed (List.length_eq_zero_iff.mp hkept)
  obtain ⟨hclose, hnot⟩ := (cuts_iff noValue hinv.exact (hinv.good hopen) hturn').mpr hcut
  have hsecond : Turned noValue ⟨s1, answer⟩ ⟨true, false, io', answer'⟩ ⟨s2, answer'⟩ :=
    .mk hopen hturn'
  have hrun := Run.snoc (Run.snoc Run.nil hfirst) hsecond
  exact hnot (hall noValue _ _ hrun _ (List.mem_append_right _ (List.mem_singleton.mpr rfl)) hclose)

end Rugo
