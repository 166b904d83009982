import Rugo.ConnTurns

/- What piles up in a read buffer while replies are not taken. A turn reads whether or
   not its replies go out, and execution stops at the reply ceiling; what was not
   executed stays where it was read to, and the room for the next read is made, or
   refused, before any of it is looked at again.

     1. `patient_iff`: a read is refused for want of room for one request that is too
        long, and a connection whose peer is there is dropped for nothing else, exactly
        when no turn reads with more than that behind work left undone. -/
namespace Rugo
open Exec Resp Runs

variable {σ : Type}

def Refuses (s : Peer σ) (e : Woken) : Prop :=
  e.readable = true ∧ s.breaks e.writable e.io = false ∧
    ∃ c, (s.early e.writable e.io).conn.makeRoom = .ok (false, c)

/-- What is unexecuted is the beginning of one request, too long for any read to have room behind it. -/
def Oversized (c : Conn) : Prop :=
  (∃ command : Command, parsed c.unread = (.ok .more, command)) ∧ maxRequest - spare < c.unread.length

/-- A request, or what cannot be one, stands unexecuted at the front of the read buffer. -/
def Behind (c : Conn) : Prop := ∀ command : Command, parsed c.unread ≠ (.ok .more, command)

/-- The turn reads, and the buffer is full behind work left undone. -/
def Overrun (s : Peer σ) (e : Woken) : Prop :=
  e.readable = true ∧ s.breaks e.writable e.io = false ∧ Behind s.conn ∧ maxRequest - spare < s.conn.unread.length

/-- A turn refuses a read, and drops a connection whose peer is there, only for one request that
is too long; any other that it drops was to be closed, and is owed nothing. -/
structure Patient (s : Peer σ) (e : Woken) (s' : Peer σ) : Prop where
  refuses : Refuses s e → Oversized s.conn
  closes : e.answer = .close → s'.broken = true ∨ e.io.reads.hungUp = true ∨ Oversized s.conn ∨
    s'.conn.closing = true ∧ s'.conn.owed = []

/-- The execution of a turn stopped at the reply ceiling. -/
def Ceiled (run : Dispatch σ) (s : Peer σ) (e : Woken) : Prop :=
  e.readable = true ∧ ∃ s₁ s₂, (s.early e.writable e.io).fill e.io.reads = .ok (true, s₁) ∧
    s₁.execute run = .ok s₂ ∧ maxReply ≤ s₂.conn.out.length

/-! ## One turn -/

/-- Room is refused by length alone. -/
theorem refuses_iff (run : Dispatch σ) {s : Peer σ} (h : s.Exact) (e : Woken) :
    Refuses s e ↔ e.readable = true ∧ s.breaks e.writable e.io = false ∧ maxRequest - spare < s.conn.unread.length := by
  obtain ⟨⟨⟨n, hflushed⟩, -⟩, -⟩ := Peer.turn_early run h e.readable e.writable e.io
  obtain ⟨there, c, hc, -, -, -, hfull⟩ := Conn.makeRoom_ok hflushed.exact.sane
  rw [hflushed.unread] at hfull
  rw [Refuses, hc, ← hfull]
  apply and_congr_right
  intro _
  apply and_congr_right
  intro _
  constructor
  · intro ⟨c', hc'⟩
    cases hc'
    rfl
  · intro hthere
    rw [hthere]
    exact ⟨c, rfl⟩

/-- What is too long is one request, or stands behind another. -/
theorem oversized_or_behind {c : Conn} (hlong : maxRequest - spare < c.unread.length) : Oversized c ∨ Behind c := by
  by_cases hmore : ∃ command : Command, parsed c.unread = (.ok .more, command)
  · exact .inl ⟨hmore, hlong⟩
  · exact .inr fun command heq => hmore ⟨command, heq⟩

theorem Oversized.not_behind {c : Conn} (h : Oversized c) : ¬ Behind c := by
  obtain ⟨⟨command, hmore⟩, -⟩ := h
  intro hbehind
  exact hbehind command hmore

theorem patient_turn (run : Dispatch σ) {s s' : Peer σ} (h : s.Exact) {e : Woken}
    (hturn : s.turn run e.readable e.writable e.io = .ok (e.answer, s')) :
    Patient s e s' ↔ ¬ Overrun s e := by
  constructor
  · intro hpatient ⟨hreadable, hgood, hbehind, hlong⟩
    have hrefuses := (refuses_iff run h e).mpr ⟨hreadable, hgood, hlong⟩
    exact (hpatient.refuses hrefuses).not_behind hbehind
  · intro hclear
    have hlong : e.readable = true → s.breaks e.writable e.io = false →
        maxRequest - spare < s.conn.unread.length → Oversized s.conn := by
      intro hreadable hgood hlong
      obtain hover | hbehind := oversized_or_behind hlong
      · exact hover
      · exact absurd ⟨hreadable, hgood, hbehind, hlong⟩ hclear
    refine ⟨?_, ?_⟩
    · intro hrefuses
      obtain ⟨hreadable, hgood, hfull⟩ := (refuses_iff run h e).mp hrefuses
      exact hlong hreadable hgood hfull
    · intro hclose
      obtain ⟨⟨⟨n, hflushed⟩, hbroken, -⟩, heq⟩ := Peer.turn_early run h e.readable e.writable e.io
      rw [hturn, hclose] at heq
      cases hb : s.breaks e.writable e.io with
      | true =>
        rw [hb, if_pos rfl] at heq
        cases heq
        exact .inl (by simp [hbroken, hb])
      | false =>
        rw [hb, if_neg Bool.false_ne_true] at heq
        rw [hb, Bool.or_false] at hbroken
        generalize s.early e.writable e.io = s0 at heq hflushed hbroken
        have hverdict : ∀ s₃ : Peer σ, Peer.verdict s₃.conn = .close → s₃.conn.closing = true ∧ s₃.conn.owed = [] := by
          intro s₃ hv
          obtain ⟨howed, hclosing⟩ := Peer.verdict_close hv
          exact ⟨hclosing, howed⟩
        cases hreadable : e.readable with
        | false =>
          rw [hreadable] at heq
          obtain ⟨hv, rfl⟩ := (Prod.mk.injEq ..).mp (Except.ok.inj heq)
          exact .inr (.inr (.inr (hverdict _ hv.symm)))
        | true =>
          rw [hreadable, Peer.turnOn, if_pos rfl] at heq
          obtain ⟨s1, hs, -, hgone, hbroke⟩ | ⟨s1, s2, s3, good, -, -, -, -, -, hwrote, hs⟩ :=
            Peer.serve_cases run hflushed.exact e.io
          · rw [hs] at heq
            cases heq
            rw [hflushed.unread] at hgone hbroke
            by_cases hfull : maxRequest - spare < s.conn.unread.length
            · exact .inr (.inr (.inl (hlong hreadable hb hfull)))
            · obtain hbig | hends := hgone
              · exact absurd hbig hfull
              · -- nobody is there, or the socket failed
                obtain hup | hfails := (Bool.or_eq_true ..).mp hends
                · exact .inr (.inl hup)
                · exact .inl (by simp [hbroke, hfails, Nat.not_lt.mp hfull])
          · rw [hs] at heq
            obtain ⟨hv, rfl⟩ := (Prod.mk.injEq ..).mp (Except.ok.inj heq)
            cases good with
            | true => exact .inr (.inr (.inr (hverdict _ hv.symm)))
            | false =>
              have hfails := hwrote.good
              rw [eq_comm, Bool.not_eq_false'] at hfails
              exact .inl (by simp [hwrote.broken, hfails])

/-- Work left undone by a turn was left by a turn before it, or by this one, which stopped at the
ceiling, or the connection is to be closed. -/
theorem behind_turn (run : Dispatch σ) {s s' : Peer σ} (h : s.Exact) {e : Woken}
    (hturn : s.turn run e.readable e.writable e.io = .ok (e.answer, s')) (hbehind : Behind s'.conn) :
    s'.conn.closing = true ∨ Ceiled run s e ∨ Behind s.conn ∧ s.conn.closing = s'.conn.closing := by
  obtain ⟨⟨⟨n, hflushed⟩, -⟩, heq⟩ := Peer.turn_early run h e.readable e.writable e.io
  -- where no command is run, what is unread is what it was
  have hsame : ∀ s₃ : Peer σ, s₃.conn.unread = (s.early e.writable e.io).conn.unread →
      s₃.conn.closing = (s.early e.writable e.io).conn.closing → Behind s₃.conn →
      Behind s.conn ∧ s.conn.closing = s₃.conn.closing := by
    intro s₃ hunread hclosing hbehind₃
    rw [Behind, hunread, hflushed.unread] at hbehind₃
    exact ⟨hbehind₃, (hclosing.trans hflushed.work.closing).symm⟩
  rw [hturn] at heq
  split at heq
  · obtain ⟨-, rfl⟩ := (Prod.mk.injEq ..).mp (Except.ok.inj heq)
    exact .inr (.inr (hsame _ rfl rfl hbehind))
  · rw [Peer.turnOn] at heq
    split at heq
    · next hreadable =>
      rw [Peer.serve] at heq
      obtain ⟨there, s1, hfill, hfilled, -⟩ := Peer.fill_ok hflushed.exact e.io.reads
      rw [hfill, ok_bind] at heq
      cases there with
      | false =>
        obtain ⟨-, rfl⟩ := (Prod.mk.injEq ..).mp (Except.ok.inj heq)
        exact .inr (.inr (hsame _ (hfilled.unread.trans (List.append_nil _)) hfilled.work.closing hbehind))
      | true =>
        obtain ⟨s2, hs2, hexec, hstop⟩ := Peer.execute_ok run hfilled.exact
        obtain ⟨good, s3, hs3, hwrote, -⟩ := Peer.flush_ok hexec.exact e.io.late
        simp only [Bool.not_true, Bool.false_eq_true, if_false, hs2, ok_bind, hs3] at heq
        have hlast : s' = s3 := by
          cases good with
          | true => exact ((Prod.mk.injEq ..).mp (Except.ok.inj heq)).2
          | false => exact ((Prod.mk.injEq ..).mp (Except.ok.inj heq)).2
        rw [hlast, Behind, hwrote.flushed.unread] at hbehind
        obtain hclosing | hceil | ⟨command, hmore⟩ := hstop
        · rw [hlast]
          exact .inl (hwrote.flushed.work.closing.trans hclosing)
        · exact .inr (.inl ⟨hreadable, s1, s2, hfill, hs2, hceil⟩)
        · exact absurd hmore (hbehind command)
    · obtain ⟨-, rfl⟩ := (Prod.mk.injEq ..).mp (Except.ok.inj heq)
      exact .inr (.inr (hsame _ rfl rfl hbehind))

/-! ## Runs -/

/-- Whatever stands before work left undone, some turn left it. -/
theorem behind_cause (run : Dispatch σ) (env : σ) {tr : List (Polled σ × Woken × Polled σ)} {s : Polled σ}
    (h : Run (Turned run) (Polled.new env) tr s) :
    (∀ x ∈ tr, Behind x.1.peer.conn → x.1.peer.conn.closing = true ∨ ∃ y ∈ tr, Ceiled run y.1.peer y.2.1) ∧
    (Behind s.peer.conn → s.peer.conn.closing = true ∨ ∃ y ∈ tr, Ceiled run y.1.peer y.2.1) := by
  induction h with
  | nil =>
    refine ⟨fun x hx => absurd hx List.not_mem_nil, ?_⟩
    intro hbehind
    have hnil : parsed (Polled.new env).peer.conn.unread = (.ok .more, []) :=
      (congrArg parsed (Peer.unread_new env)).trans parsed_nil
    exact absurd hnil (hbehind [])
  | @snoc tr s e s' hrun hs ih =>
    have hex := (hrun.steps (I := fun s => s.peer.Exact) (Peer.exact_new env)
      (fun _ _ _ hex hs => Turned.inv run hex hs)).1
    obtain ⟨hbefore, hlast⟩ := ih
    -- what has happened stays in the trace
    have hlater : ∀ {b : Prop}, (b ∨ ∃ y ∈ tr, Ceiled run y.1.peer y.2.1) →
        b ∨ ∃ y ∈ tr ++ [(s, e, s')], Ceiled run y.1.peer y.2.1 := by
      intro b hb
      refine hb.imp_right ?_
      intro ⟨y, hy, hceiled⟩
      exact ⟨y, List.mem_append_left _ hy, hceiled⟩
    refine ⟨?_, ?_⟩
    · intro x hx hbehind
      obtain hx | hx := List.mem_append.mp hx
      · exact hlater (hbefore x hx hbehind)
      · rw [List.mem_singleton.mp hx] at hbehind ⊢
        exact hlater (hlast hbehind)
    · intro hbehind
      have hturn : s.peer.turn run e.readable e.writable e.io = .ok (e.answer, s'.peer) := by
        cases hs with
        | mk _ hturn => exact hturn
      · obtain hclosing | hceiled | ⟨hbehind', hclosing⟩ := behind_turn run hex hturn hbehind
        · exact .inl hclosing
        · exact .inr ⟨_, List.mem_append_right _ (List.mem_singleton.mpr rfl), hceiled⟩
        · rw [← hclosing]
          exact hlater (hlast hbehind')

/-- In a run of the readiness loop every turn is patient exactly when no turn reads over a
backlog; and a backlog is left by turns that stopped at the reply ceiling, or after a last reply. -/
theorem patient_iff (run : Dispatch σ) (env : σ) {tr : List (Polled σ × Woken × Polled σ)} {s : Polled σ}
    (h : Run (Turned run) (Polled.new env) tr s) :
    ((∀ x ∈ tr, Patient x.1.peer x.2.1 x.2.2.peer) ↔ ∀ x ∈ tr, ¬ Overrun x.1.peer x.2.1) ∧
    ∀ x ∈ tr, Overrun x.1.peer x.2.1 →
      x.1.peer.conn.closing = true ∨ ∃ y ∈ tr, Ceiled run y.1.peer y.2.1 := by
  have hsteps := (h.steps (I := fun s => s.peer.Exact) (Peer.exact_new env)
    (fun _ _ _ hex hs => Turned.inv run hex hs)).2
  have hone : ∀ x ∈ tr, Patient x.1.peer x.2.1 x.2.2.peer ↔ ¬ Overrun x.1.peer x.2.1 := by
    intro ⟨s, e, s'⟩ hx
    obtain ⟨hex, hstep⟩ := hsteps _ hx
    cases hstep with
    | mk _ hturn => exact patient_turn run hex hturn
  refine ⟨forall₂_congr hone, ?_⟩
  intro x hx hover
  exact (behind_cause run env h).1 x hx hover.2.2.1

theorem patient_getOne : ∃ tr s, Run (Turned noValue) (Polled.new ()) tr s ∧ tr.length = 1 ∧
    ((∀ x ∈ tr, Patient x.1.peer x.2.1 x.2.2.peer) ↔ ∀ x ∈ tr, ¬ Overrun x.1.peer x.2.1) := by
  obtain ⟨answer, s, -, hrun⟩ := run_turn noValue () true false
    ⟨.wouldBlock, .took 42 (getOne.drop 1), .took 5 .wouldBlock⟩
  exact ⟨_, _, hrun, rfl, (patient_iff noValue () hrun).1⟩

/-! ## A backlog of small commands -/

/-- So many commands, one behind the other. -/
def gets (n : Nat) : List UInt8 := (List.replicate n getOne).flatten

theorem gets_succ (n : Nat) : gets (n + 1) = getOne ++ gets n := by
  rw [gets, List.replicate_succ, List.flatten_cons, gets]

theorem gets_add (m n : Nat) : gets (m + n) = gets m ++ gets n := by
  rw [gets, gets, gets, List.replicate_add, List.flatten_append]

theorem length_gets (n : Nat) : (gets n).length = 20 * n := by
  induction n with
  | zero => rfl
  | succ n ih =>
    have hone : getOne.length = 20 := by decide
    rw [gets_succ, List.length_append, ih, hone]
    omega

theorem behind_gets {c : Conn} {n : Nat} (h : c.unread = gets (n + 1)) : Behind c := by
  intro command heq
  rw [h, gets_succ, parsed_getOne] at heq
  cases heq

/-- A connection that is owed replies up to the ceiling, with so many commands unexecuted. -/
structure Blocked (n : Nat) (s : Peer σ) : Prop where
  exact : s.Exact
  open_ : s.conn.closing = false
  owed : maxReply ≤ s.conn.owed.length
  unread : s.conn.unread = gets n

theorem Peer.Executed.idle {run : Dispatch σ} {s s' : Peer σ} (h : s.Exact) (hexec : Executed run s s')
    (howed : maxReply ≤ s.conn.owed.length) :
    s'.conn.closing = s.conn.closing ∧ s'.conn.unread = s.conn.unread ∧ s'.conn.owed = s.conn.owed := by
  obtain heq | ⟨p, hp, -⟩ := Relation.ReflTransGen.cases_head hexec.under
  · obtain ⟨hdesk, hunread⟩ := (Prod.mk.injEq ..).mp heq
    have hdid : s.did = s'.did := congrArg Desk.did hdesk
    refine ⟨(congrArg Desk.closing hdesk).symm, hunread.symm, ?_⟩
    have hreplies := hexec.exact.replies
    rw [hexec.taken, ← hdid, ← h.replies] at hreplies
    exact List.append_cancel_left hreplies
  · have hlength := h.answered_length.2
    have hunder : ¬ maxReply + s.taken.length ≤ (answered s.did).length + s.conn.sent := hp.2
    omega

/-- A turn that reads some more commands, while the socket takes nothing. -/
def readMore (n : Nat) : Io := ⟨.wouldBlock, .took 42 ((gets n).drop 1), .wouldBlock⟩

theorem readMore_data {n room : Nat} (hroom : 20 * (n + 1) ≤ room) :
    (readMore (n + 1)).reads.data room = gets (n + 1) := by
  have hcons : 42 :: (gets (n + 1)).drop 1 = gets (n + 1) := by
    rw [gets_succ]
    rfl
  rw [readMore, Reads.data, hcons]
  apply List.take_of_length_le
  rw [length_gets]
  exact hroom

theorem verdict_owed {c : Conn} (h : c.owed ≠ []) : Peer.verdict c = .write := by
  rw [Peer.verdict, if_pos]
  by_contra hnone
  exact h (List.drop_eq_nil_of_le (Nat.not_lt.mp hnone))

theorem Peer.Wrote.blocked {s s' : Peer σ} {good : Bool} (h : Wrote s s' .wouldBlock good) :
    good = true ∧ s'.conn.owed = s.conn.owed ∧ s'.conn.unread = s.conn.unread ∧ s'.conn.closing = s.conn.closing :=
  ⟨h.good, h.flushed.owed, h.flushed.unread, h.flushed.work.closing⟩

theorem not_ends (n : Nat) : ¬ ((readMore n).reads.hungUp || (readMore n).reads.fails) = true := Bool.false_ne_true

theorem Blocked.turn {n : Nat} {s : Peer σ} (h : Blocked n s) (run : Dispatch σ) (hfits : 20 * n ≤ maxRequest - spare)
    (more : Nat) (hmore : 20 * (more + 1) ≤ spare) :
    ∃ s', s.turn run true false (readMore (more + 1)) = .ok (.write, s') ∧ Blocked (n + (more + 1)) s' := by
  have hlong : ¬ maxRequest - spare < s.conn.unread.length := by
    rw [h.unread, length_gets]
    exact Nat.not_lt.mpr hfits
  change ∃ s', s.serve run (readMore (more + 1)) = _ ∧ _
  obtain ⟨s1, -, -, hgone, -⟩ | ⟨s1, s2, s3, good, hfill, -, -, hexec, -, hwrote, hs⟩ :=
    Peer.serve_cases run h.exact (readMore (more + 1))
  · obtain hbig | hends := hgone
    · exact absurd hbig hlong
    · exact absurd hends (not_ends _)
  · have hroom : spare ≤ s.conn.room := by
      obtain ⟨there, c, -, -, -, hfree, hfull⟩ := Conn.makeRoom_ok h.exact.sane
      cases there with
      | true => exact (hfree rfl).1
      | false => exact absurd (hfull.mp rfl) hlong
    have howed : s1.conn.owed = s.conn.owed := by
      rw [Conn.owed, hfill.out, hfill.sent]
      rfl
    obtain ⟨hclosing, hunread, howed'⟩ := hexec.idle hfill.exact (howed ▸ h.owed)
    obtain ⟨rfl, howed₃, hunread₃, hclosing₃⟩ := hwrote.blocked
    have hlast : maxReply ≤ s3.conn.owed.length := by
      rw [howed₃, howed', howed]
      exact h.owed
    refine ⟨s3, ?_, hwrote.flushed.exact, ?_, hlast, ?_⟩
    · rw [hs, if_pos rfl, verdict_owed]
      intro hnil
      rw [hnil] at hlast
      exact absurd hlast (by decide)
    · rw [hclosing₃, hclosing, hfill.work.closing]
      exact h.open_
    · rw [hunread₃, hunread, hfill.unread, h.unread, readMore_data (Nat.le_trans hmore hroom)]
      exact (gets_add n (more + 1)).symm

theorem blocked_first (run : Dispatch σ) (env : σ)
    (hbig : maxReply ≤ (run env [ascii "GET", ascii "k"] .resp2).reply.length)
    (hlast : (run env [ascii "GET", ascii "k"] .resp2).last = false) :
    ∃ s', (Peer.new env).turn run true false (readMore 2) = .ok (.write, s') ∧ Blocked 1 s' := by
  generalize hran : run env [ascii "GET", ascii "k"] .resp2 = ran at hbig hlast
  have hnext := next_getOne run env hran (gets 1)
  have hanswered : ∀ d : Desk σ, d.did = [.ran getOne [ascii "GET", ascii "k"] ran.reply] →
      (answered d.did).length = ran.reply.length := by
    intro d hd
    rw [hd]
    simp [answered, Did.reply]
  change ∃ s', (Peer.new env).serve run (readMore 2) = _ ∧ _
  obtain ⟨s1, -, -, hgone, -⟩ | ⟨s1, s2, s3, good, hfill, -, -, hexec, hstop, hwrote, hs⟩ :=
    Peer.serve_cases run (Peer.exact_new env) (readMore 2)
  · rw [Peer.unread_new] at hgone
    obtain hbig | hends := hgone
    · exact absurd hbig (Nat.not_lt_zero _)
    · exact absurd hends (not_ends _)
  have hunread : s1.conn.unread = getOne ++ gets 1 := by
    rw [hfill.unread, Peer.unread_new, Peer.room_new, readMore_data (by decide), List.nil_append, gets_succ]
  have hsent : s1.conn.sent = 0 := hfill.sent
  have htaken : s1.taken = [] := hfill.taken
  have hunder := hexec.under
  rw [hfill.work.desk, hunread, hsent, htaken] at hunder
  have hone : s2.desk.did = [.ran getOne [ascii "GET", ascii "k"] ran.reply] ∧ s2.conn.closing = false ∧
      s2.conn.unread = gets 1 := by
    obtain heq | ⟨p, ⟨hp, -⟩, hrest⟩ := Relation.ReflTransGen.cases_head hunder
    · -- nothing stops the work before the first command
      exfalso
      obtain ⟨hdesk, hsame⟩ := (Prod.mk.injEq ..).mp heq
      obtain hclosing | hceil | ⟨command, hmore⟩ := hstop
      · have hopen : s2.conn.closing = false := (congrArg Desk.closing hdesk).symm
        rw [hopen] at hclosing
        cases hclosing
      · have hdid : s2.did = [] := (congrArg Desk.did hdesk).symm
        have hlength := hexec.exact.answered_length.1
        rw [hdid, hexec.sent, hsent, hexec.taken, htaken] at hlength
        have hnone : (answered []).length = 0 := rfl
        have hmax : 0 < maxReply := by decide
        rw [hnone, List.length_nil] at hlength
        omega
      · rw [← hsame, parsed_getOne] at hmore
        cases hmore
    · rw [hnext] at hp
      cases hp
      obtain heq | ⟨q, ⟨-, hunder'⟩, -⟩ := Relation.ReflTransGen.cases_head hrest
      · obtain ⟨hdesk, hsame⟩ := (Prod.mk.injEq ..).mp heq
        exact ⟨(congrArg Desk.did hdesk).symm, (congrArg Desk.closing hdesk).symm.trans hlast, hsame.symm⟩
      · -- and the second would be run past the ceiling
        rw [hanswered _ rfl] at hunder'
        exact absurd (Nat.add_le_add hbig (Nat.le_refl 0)) hunder'
  obtain ⟨hdid, hopen, hgets⟩ := hone
  obtain ⟨rfl, howed₃, hunread₃, hclosing₃⟩ := hwrote.blocked
  have howed : maxReply ≤ s3.conn.owed.length := by
    have hlength := hexec.exact.answered_length.2
    rw [show s2.did = s2.desk.did from rfl, hanswered _ hdid, hexec.taken, htaken, List.length_nil,
      Nat.zero_add] at hlength
    rw [howed₃, ← hlength]
    exact hbig
  refine ⟨s3, ?_, hwrote.flushed.exact, hclosing₃.trans hopen, howed, hunread₃.trans hgets⟩
  rw [hs, if_pos rfl, verdict_owed]
  intro hnil
  rw [hnil] at howed
  exact absurd howed (by decide)

/-- Read by read the backlog grows. -/
theorem blocked_run (run : Dispatch σ) (env : σ)
    (hbig : maxReply ≤ (run env [ascii "GET", ascii "k"] .resp2).reply.length)
    (hlast : (run env [ascii "GET", ascii "k"] .resp2).last = false) (n : Nat)
    (hfits : n = 0 ∨ 20 * (1 + 204 * (n - 1)) ≤ maxRequest - spare) :
    ∃ tr s, Run (Turned run) (Polled.new env) tr s ∧ s.last = .write ∧ Blocked (1 + 204 * n) s.peer := by
  induction n with
  | zero =>
    obtain ⟨s', hturn, hblocked⟩ := blocked_first run env hbig hlast
    have hnew : (Polled.new env).last ≠ .close := by simp [Polled.new]
    exact ⟨_, ⟨s', .write⟩, .single (.mk hnew hturn), rfl, hblocked⟩
  | succ n ih =>
    have hroom : 20 * (1 + 204 * n) ≤ maxRequest - spare := hfits.resolve_left (Nat.succ_ne_zero n)
    obtain ⟨tr, s, hrun, hwrite, hblocked⟩ := ih (by omega)
    obtain ⟨s', hturn, hblocked'⟩ := hblocked.turn run hroom 203 (by decide)
    have hopen : s.last ≠ .close := by simp [hwrite]
    exact ⟨_, ⟨s', .write⟩, .snoc hrun (.mk hopen hturn), rfl, by rw [Nat.mul_succ, ← Nat.add_assoc]; exact hblocked'⟩

/-- A blocked connection with no more room is dropped at the next read, and what it is owed with it. -/
theorem Blocked.refused {n : Nat} {s : Peer σ} (h : Blocked n s) (run : Dispatch σ)
    (hfull : maxRequest - spare < 20 * n) (io : Io) (hfails : io.reads.fails = false) :
    ∃ s', s.turn run true false io = .ok (.close, s') ∧ s'.broken = s.broken ∧
      s'.conn.owed = s.conn.owed ∧ Overrun s ⟨true, false, io, .close⟩ := by
  have hlong : maxRequest - spare < s.conn.unread.length := by
    rw [h.unread, length_gets]
    exact hfull
  obtain ⟨n, rfl⟩ : ∃ m, n = m + 1 := Nat.exists_eq_succ_of_ne_zero (by omega)
  change ∃ s', s.serve run io = _ ∧ _
  obtain ⟨s1, hs, hfill, -, hbroken⟩ | ⟨-, -, -, -, -, hnot, -⟩ := Peer.serve_cases run h.exact io
  · refine ⟨s1, hs, ?_, ?_, rfl, rfl, behind_gets h.unread, hlong⟩
    · rw [hbroken, hfails, Bool.and_false, Bool.or_false]
    · rw [Conn.owed, hfill.out, hfill.sent]
      rfl
  · exact absurd (.inl hlong) hnot

/-- Whole commands of twenty bytes each fill the buffer while a reply is not taken, and the next
read is refused: the connection is dropped, and the reply with it. -/
theorem backlog_run : ∃ tr s, Run (Turned bigValue) (Polled.new ()) tr s ∧ ∃ x ∈ tr,
    x.2.1.answer = .close ∧ x.2.1.io.reads.hungUp = false ∧ x.2.2.peer.broken = false ∧
    maxReply ≤ x.2.2.peer.conn.owed.length ∧ ¬ Patient x.1.peer x.2.1 x.2.2.peer := by
  obtain ⟨tr, s, hrun, hwrite, hblocked⟩ :=
    blocked_run bigValue () (maxReply_le_bigValue _ _ _) rfl 4112 (.inr (by decide))
  have hopen : s.last ≠ .close := by simp [hwrite]
  have hgood : s.peer.broken = false :=
    (hrun.steps (I := Polled.Inv) (Polled.inv_new ()) (fun _ _ _ hinv hs => Turned.good bigValue hinv hs)).1.good hopen
  obtain ⟨s', hturn, hbroken, howed, hover⟩ :=
    hblocked.refused bigValue (by decide) (readMore 1) rfl
  refine ⟨_, ⟨s', .close⟩, .snoc hrun (.mk hopen hturn), _, List.mem_append_right _ (List.mem_singleton.mpr rfl), rfl,
    rfl, hbroken.trans hgood, ?_, ?_⟩
  · rw [howed]
    exact hblocked.owed
  · intro hpatient
    exact (patient_turn bigValue hblocked.exact (e := ⟨true, false, readMore 1, .close⟩) hturn).mp hpatient hover

end Rugo
