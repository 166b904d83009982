import Rugo.Lib.Runs
import Rugo.ConnSteps

/- Runs of a connection under either loop.

     1. `no_byte_lost`: in every state either loop reaches, the bytes received are
        the requests run and the unexecuted rest, the replies made are the bytes
        the socket took and those still owed, and the requests run are the
        successive parses of the bytes consumed.
     2. `step_complete`: what the completion loop asks for next, and that it
        answers within two passes. -/
namespace Rugo
open Exec Resp Runs

variable {σ : Type}

/-! ## Both loops -/

/-- One turn, as the poller calls for it and the socket answers it. -/
structure Woken where
  readable : Bool
  writable : Bool
  io : Io
  answer : Turn

/-- A connection under the readiness loop, and what its last turn answered. -/
structure Polled (σ : Type) where
  peer : Peer σ
  last : Turn

def Polled.new (env : σ) : Polled σ := ⟨.new env, .read⟩

/-- A connection is dropped when a turn says so; until then it has another. -/
inductive Turned (run : Dispatch σ) : Polled σ → Woken → Polled σ → Prop
  | mk {s peer readable writable io answer} : s.last ≠ .close →
      s.peer.turn run readable writable io = .ok (answer, peer) →
      Turned run s ⟨readable, writable, io, answer⟩ ⟨peer, answer⟩

inductive Moved where
  | stepped (answer : Step)
  /-- A read completed: the kernel put these bytes where it was told to. -/
  | arrived (data : List UInt8)
  /-- A write completed: the kernel took so many of the bytes it was shown. -/
  | written (bytes : Nat)

/-- A connection under the completion loop, and the operation it has in flight. -/
structure Ringed (σ : Type) where
  peer : Peer σ
  pending : Option Step

def Ringed.new (env : σ) : Ringed σ := ⟨.new env, none⟩

/-- An operation is asked for, and completes within the range it was given. -/
inductive Ring (run : Dispatch σ) : Ringed σ → Moved → Ringed σ → Prop
  | stepped {s passes answer peer} : s.pending = none →
      s.peer.stepLoop run passes = .ok (answer, peer) →
      Ring run s (.stepped answer) ⟨peer, some answer⟩
  | arrived {s at_ len data peer} : s.pending = some (.recv at_ len) →
      0 < data.length → data.length ≤ len → s.peer.landed at_ data = .ok peer →
      Ring run s (.arrived data) ⟨{ peer with conn := peer.conn.arrived data.length }, none⟩
  | written {s at_ len bytes} : s.pending = some (.send at_ len) → 0 < bytes → bytes ≤ len →
      Ring run s (.written bytes)
        ⟨{ s.peer.left at_ bytes with conn := s.peer.conn.written bytes }, none⟩

/-! ## What a run keeps -/

/-- The successive parses at the front of some bytes, and what they leave. -/
def parses : Nat → List UInt8 → List (List (List UInt8)) × List UInt8
  | 0, bytes => ([], bytes)
  | fuel + 1, bytes =>
    match parsed bytes with
    | (.ok (.done used), command) =>
      let (rest, left) := parses fuel (bytes.drop used)
      (command.args (bytes.take used) :: rest, left)
    | _ => ([], bytes)

/-- The arguments a parse read, none for a command without any. -/
def Did.args : Did → List (List UInt8)
  | .ran _ args _ => args
  | .skipped _ => []
  | .refused _ => []

theorem Did.parsed_used {d : Did} (hf : d.Framed) (hs : d.served = true) :
    ∃ command : Command, parsed d.used = (.ok (.done d.used.length), command) ∧
      command.args d.used = d.args := by
  cases d with
  | ran used args reply =>
    obtain ⟨command, -, hp, hargs⟩ := hf
    exact ⟨command, hp, hargs.symm⟩
  | skipped used => exact ⟨[], hf, rfl⟩
  | refused bad => cases hs

/-- Commands written one after another read back as themselves. -/
theorem parses_consumed {did : List Did} (hf : ∀ d ∈ did, d.Framed)
    (hs : ∀ d ∈ did, d.served = true) {fuel : Nat} (hfuel : (consumed did).length ≤ fuel) :
    parses fuel (consumed did) = (did.map Did.args, []) := by
  induction did generalizing fuel with
  | nil =>
    cases fuel with
    | zero => rfl
    | succ fuel => rfl
  | cons d did ih =>
    obtain ⟨command, hp, hargs⟩ := Did.parsed_used (hf d (by simp)) (hs d (by simp))
    have hcons : consumed (d :: did) = d.used ++ consumed did := by simp [consumed]
    have hpos := (parsed_done_le hp).1
    rw [hcons, List.length_append] at hfuel
    rw [hcons]
    cases fuel with
    | zero => omega
    | succ fuel =>
      have hless : (consumed did).length ≤ fuel := by omega
      have hrest := ih (fun e he => hf e (by simp [he])) (fun e he => hs e (by simp [he])) hless
      rw [parses, parsed_append hp]
      simp only [List.drop_left, List.take_left, hrest, hargs, List.map_cons]

/-- No byte is lost, duplicated or out of order. -/
structure Faithful (s : Peer σ) : Prop where
  order : s.conn.at_ ≤ s.conn.filled ∧ s.conn.filled ≤ s.conn.buf.length ∧
    s.conn.buf.length ≤ maxRequest ∧ s.conn.sent ≤ s.conn.out.length
  received : consumed s.did ++ (s.conn.buf.drop s.conn.at_).take (s.conn.filled - s.conn.at_) =
    s.received
  replies : s.taken ++ s.conn.out.drop s.conn.sent = answered s.did
  commands : ∃ commands tail, s.did = commands ++ tail ∧
    (tail = [] ∨ ∃ bad, tail = [.refused bad]) ∧
    parses (consumed s.did).length (consumed s.did) = (commands.map Did.args, [])

/-- A history in which every reply is the one `run` makes to its arguments, in what the command before
it left; and what the last one leaves. -/
inductive Told (run : Dispatch σ) (env : σ) : List Did → σ → Dialect → Prop
  | nil : Told run env [] env .resp2
  | ran {did e dialect} (used : List UInt8) (args : List (List UInt8)) : Told run env did e dialect →
      Told run env (did ++ [.ran used args (run e args dialect).reply]) (run e args dialect).env
        (run e args dialect).dialect
  | skipped {did e dialect} (used : List UInt8) : Told run env did e dialect →
      Told run env (did ++ [.skipped used]) e dialect
  | refused {did e dialect} (bad : Bad) : Told run env did e dialect →
      Told run env (did ++ [.refused bad]) e dialect

/-- The history of a connection is told by `run`, from the environment it began with. -/
def Peer.Told (run : Dispatch σ) (env : σ) (s : Peer σ) : Prop :=
  Rugo.Told run env s.did s.env s.conn.dialect

theorem Told.next {run : Dispatch σ} {env : σ} {p q : Desk σ × List UInt8} (hnext : Desk.next run p = some q)
    (h : Told run env p.1.did p.1.env p.1.dialect) : Told run env q.1.did q.1.env q.1.dialect := by
  rw [Desk.next] at hnext
  split at hnext
  · cases hnext
  · split at hnext
    · next used command _ =>
      cases hnext
      simp only [Desk.dispatch]
      split
      · exact h.skipped _
      · exact h.ran _ _
    · cases hnext
    · next bad _ _ =>
      cases hnext
      exact h.refused bad

theorem Told.works {run : Dispatch σ} {env : σ} {p q : Desk σ × List UInt8} (hworks : Desk.Works run p q)
    (h : Told run env p.1.did p.1.env p.1.dialect) : Told run env q.1.did q.1.env q.1.dialect := by
  induction hworks with
  | refl => exact h
  | tail _ hnext ih => exact ih.next hnext

theorem Peer.SameWork.told {run : Dispatch σ} {env : σ} {s s' : Peer σ} (h : SameWork s s')
    (htold : s.Told run env) : s'.Told run env := by
  rw [Told, h.did, h.env, h.dialect]
  exact htold

theorem Peer.Exact.faithful {s : Peer σ} (h : s.Exact) : Faithful s where
  order := ⟨h.sane.at_le, h.sane.filled_le, h.sane.size_le.2, h.sane.sent_le⟩
  received := h.bytes
  replies := h.replies
  commands := by
    obtain ⟨commands, tail, hdid, hserved, htail⟩ := h.ends
    have hconsumed : consumed s.did = consumed commands := by
      obtain rfl | ⟨bad, rfl, -⟩ := htail
      · rw [hdid, List.append_nil]
      · rw [hdid, consumed_snoc, Did.used, List.append_nil]
    refine ⟨commands, tail, hdid, ?_, ?_⟩
    · obtain htail | ⟨bad, htail, -⟩ := htail
      · exact .inl htail
      · exact .inr ⟨bad, htail⟩
    · rw [hconsumed]
      refine parses_consumed (fun d hd => h.framed d ?_) hserved (Nat.le_refl _)
      rw [hdid]
      exact List.mem_append_left _ hd

/-! ## The completion loop -/

/-- What `step` may answer, of the connection it leaves. -/
def Answers (s : Peer σ) : Step → Prop
  | .send at_ len => at_ = s.conn.sent ∧ 0 < len ∧ at_ + len = s.conn.out.length
  | .recv at_ len => s.conn.owed = [] ∧ s.conn.closing = false ∧
      (∃ command, parse s.conn.unread = .ok (.ok .more, command)) ∧
      at_ = s.conn.filled ∧ at_ + len = s.conn.buf.length ∧ spare ≤ len
  | .close => s.conn.owed = [] ∧ (s.conn.closing = true ∨
      (∃ command, parse s.conn.unread = .ok (.ok .more, command)) ∧
      maxRequest - spare < s.conn.unread.length)

namespace Peer

theorem emptied_ok {s : Peer σ} (h : s.Exact) (ho : s.conn.owed = []) : s.emptied.Exact where
  sane := ⟨h.sane.at_le, h.sane.filled_le, h.sane.size, Nat.le_refl _⟩
  bytes := h.bytes
  replies := by
    have hr := h.replies
    rw [ho] at hr
    exact hr
  framed := h.framed
  ends := h.ends

theorem ask_ok {s : Peer σ} (h : s.Exact) (ho : s.conn.owed = []) (hopen : s.conn.closing = false)
    (hmore : ∃ command, parse s.conn.unread = .ok (.ok .more, command)) :
    ∃ answer s', s.ask = .ok (answer, s') ∧ Filled s s' [] ∧ Answers s' answer := by
  obtain ⟨room, c, hc, hsane, hsame, hfree, hfull⟩ := Conn.makeRoom_ok h.sane
  have hroomed := Filled.of_room h hsane hsame
  have howed : c.owed = [] := by rw [Conn.owed, hsame.out, hsame.sent]; exact ho
  rw [ask, hc, ok_bind]
  cases room with
  | true =>
    have hle := hsane.filled_le
    obtain ⟨hfree, heq⟩ := hfree rfl
    simp only [if_true]
    rw [minus_ok hle, ok_bind]
    refine ⟨_, _, rfl, hroomed, howed, hsame.closing.trans hopen, ?_, rfl, ?_, heq ▸ hfree⟩
    · simp only [hsame.unread]
      exact hmore
    · simp only
      omega
  | false =>
    refine ⟨_, _, rfl, hroomed, howed, .inr ⟨?_, ?_⟩⟩
    · simp only [hsame.unread]
      exact hmore
    · simp only [hsame.unread]
      exact hfull.mp rfl

structure Stepped (run : Dispatch σ) (s s' : Peer σ) (answer : Step) : Prop where
  exact : Exact s'
  works : Desk.Works run (s.desk, s.conn.unread) (s'.desk, s'.conn.unread)
  received : s'.received = s.received
  taken : s'.taken = s.taken
  answers : Answers s' answer

theorem stepped_ask {run : Dispatch σ} {s s1 s2 : Peer σ} {answer : Step}
    (hw : Desk.Works run (s.desk, s.conn.unread) (s1.desk, s1.conn.unread))
    (hr : s1.received = s.received) (ht : s1.taken = s.taken) (hf : Filled s1 s2 [])
    (ha : Answers s2 answer) : Stepped run s s2 answer where
  exact := hf.exact
  works := by
    rw [hf.work.desk, hf.unread, List.append_nil]
    exact hw
  received := by rw [hf.received, List.append_nil, hr]
  taken := by rw [hf.taken, ht]
  answers := ha

/-- Two passes are enough, whatever there is to run. -/
theorem stepLoop_ok (run : Dispatch σ) {s : Peer σ} (h : s.Exact) :
    ∃ answer s', (∀ n, s.stepLoop run (n + 2) = .ok (answer, s')) ∧ Stepped run s s' answer := by
  by_cases howes : s.conn.owes = true
  · have hlt : s.conn.sent < s.conn.out.length := by simpa [Conn.owes] using howes
    refine ⟨.send s.conn.sent (s.conn.out.length - s.conn.sent), s,
      fun n => by rw [stepLoop, if_pos howes]; rfl, h, .refl, rfl, rfl, rfl, ?_, ?_⟩
    · omega
    · omega
  · have ho := owes_false howes
    have hex := emptied_ok h ho
    by_cases hclosing : s.conn.closing = true
    · refine ⟨.close, s.emptied, fun n => ?_, hex, .refl, rfl, rfl, rfl, .inl hclosing⟩
      rw [stepLoop, if_neg howes]
      simp only [if_pos (show s.emptied.conn.closing = true from hclosing)]
      rfl
    · have hopen : s.emptied.conn.closing = false := by
        change s.conn.closing = false
        simpa using hclosing
      by_cases hat : s.emptied.conn.at_ < s.emptied.conn.filled
      · obtain ⟨s2, hs2, hexec, hstop⟩ := execute_ok run hex
        -- the loop comes round once more, to send what the commands answered or to ask for more
        have hunfold : ∀ n, s.stepLoop run (n + 2) =
            if !s2.conn.out.isEmpty then stepLoop run (n + 1) s2
            else if s2.conn.closing then .ok (.close, s2) else s2.ask := by
          intro n
          rw [stepLoop, if_neg howes]
          simp only [hopen, Bool.false_eq_true, if_false, if_pos hat, hs2, ok_bind, pure_ok]
        by_cases hout : s2.conn.out = []
        · have hnil : s2.conn.owed = [] := by rw [Conn.owed, hout, List.drop_nil]
          by_cases hc2 : s2.conn.closing = true
          · refine ⟨.close, s2, fun n => ?_, hexec.exact, hexec.works, hexec.received, hexec.taken, hnil,
              .inl hc2⟩
            rw [hunfold n, hout, if_neg (by simp), if_pos hc2]
          · have hopen2 : s2.conn.closing = false := by simpa using hc2
            have hmore : ∃ command, parse s2.conn.unread = .ok (.ok .more, command) := by
              obtain hc | hm | ⟨command, hp⟩ := hstop
              · exact absurd hc hc2
              · rw [hout] at hm
                exact absurd hm (by decide)
              · exact ⟨command, by rw [parse_ok, hp]⟩
            obtain ⟨answer, s3, hs3, hfill, hans⟩ := ask_ok hexec.exact hnil hopen2 hmore
            refine ⟨answer, s3, fun n => ?_,
              stepped_ask hexec.works hexec.received hexec.taken hfill hans⟩
            rw [hunfold n, hout, if_neg (by simp), if_neg hc2, hs3]
        · have hsent : s2.conn.sent = 0 := hexec.sent
          have hlen : 0 < s2.conn.out.length := List.length_pos_iff.mpr hout
          have howes2 : s2.conn.owes = true := by simp [Conn.owes, hsent, hlen]
          refine ⟨.send s2.conn.sent (s2.conn.out.length - s2.conn.sent), s2, fun n => ?_, hexec.exact,
            hexec.works, hexec.received, hexec.taken, rfl, ?_, ?_⟩
          · rw [hunfold n, if_pos (by simp [hout]), stepLoop, if_pos howes2]
            rfl
          · omega
          · omega
      · have heq : s.emptied.conn.unread = [] := by
          have := hex.sane.unread_length
          exact List.length_eq_zero_iff.mp (by omega)
        have hmore : ∃ command, parse s.emptied.conn.unread = .ok (.ok .more, command) :=
          ⟨[], by rw [heq]; rfl⟩
        obtain ⟨answer, s3, hs3, hfill, hans⟩ := ask_ok hex rfl hopen hmore
        have hsame : Desk.Works run (s.desk, s.conn.unread) (s.emptied.desk, s.emptied.conn.unread) :=
          .refl
        refine ⟨answer, s3, fun n => ?_, stepped_ask hsame rfl rfl hfill hans⟩
        rw [stepLoop, if_neg howes]
        simp only [hopen, Bool.false_eq_true, if_false, if_neg hat, hs3]

theorem stepLoop_mono (run : Dispatch σ) {passes : Nat} {s : Peer σ} {r : Step × Peer σ}
    (h : s.stepLoop run passes = .ok r) : s.stepLoop run (passes + 1) = .ok r := by
  induction passes generalizing s with
  | zero => cases h
  | succ passes ih =>
    rw [stepLoop] at h ⊢
    split
    · next ho => rwa [if_pos ho] at h
    · next ho =>
      rw [if_neg ho] at h
      simp only at h ⊢
      split
      · next hc => rwa [if_pos hc] at h
      · next hc =>
        rw [if_neg hc] at h
        split
        · next hat =>
          rw [if_pos hat] at h
          obtain ⟨s2, hs2, hrest⟩ := bind_ok_iff.mp h
          rw [hs2, ok_bind]
          split
          · next hout =>
            rw [if_pos hout] at hrest
            exact ih hrest
          · next hout => rwa [if_neg hout] at hrest
        · next hat => rwa [if_neg hat] at h

theorem stepLoop_unique (run : Dispatch σ) {s s' : Peer σ} {answer : Step} {passes : Nat}
    (h : s.Exact) (hs : s.stepLoop run passes = .ok (answer, s')) :
    (∀ n, s.stepLoop run (n + 2) = .ok (answer, s')) ∧ Stepped run s s' answer := by
  obtain ⟨answer', s1, hall, hstep⟩ := stepLoop_ok run h
  have hmany : ∀ k, s.stepLoop run (passes + k) = .ok (answer, s') := by
    intro k
    induction k with
    | zero => exact hs
    | succ k ih => exact stepLoop_mono run ih
  have heq := hmany 2
  rw [hall passes] at heq
  cases heq
  exact ⟨hall, hstep⟩

end Peer

/-- The operation in flight is on the range the connection's own cursors give. -/
structure Ringed.Inv (s : Ringed σ) : Prop where
  exact : s.peer.Exact
  pending : ∀ answer, s.pending = some answer → Answers s.peer answer

theorem Ringed.inv_new (env : σ) : (Ringed.new env).Inv := ⟨Peer.exact_new env, by simp [Ringed.new]⟩

theorem Ringed.Inv.arrived {s : Ringed σ} (h : s.Inv) {at_ len : Nat} {data : List UInt8} {peer : Peer σ}
    (hpending : s.pending = some (.recv at_ len)) (hle : data.length ≤ len)
    (hland : s.peer.landed at_ data = .ok peer) :
    s.peer.Filled { peer with conn := peer.conn.arrived data.length } data := by
  obtain ⟨-, -, -, rfl, hend, -⟩ := h.pending _ hpending
  have hfits : s.peer.conn.filled + data.length ≤ s.peer.conn.buf.length := by omega
  obtain ⟨p, hp, hfill⟩ := Peer.arrived_ok h.exact hfits
  rw [hland] at hp
  cases hp
  have hlen : peer.conn.buf.length = s.peer.conn.buf.length ∧ peer.conn.filled = s.peer.conn.filled := by
    obtain ⟨buf, hb, hpeer⟩ := bind_ok_iff.mp hland
    rw [← Except.ok.inj hpeer]
    exact ⟨splice_length hb, rfl⟩
  have hmin : peer.conn.arrived data.length =
      { peer.conn with filled := s.peer.conn.filled + data.length } := by
    rw [Conn.arrived, hlen.1, hlen.2, Nat.min_eq_right (by omega)]
  rw [hmin]
  exact hfill

theorem Ringed.Inv.written {s : Ringed σ} (h : s.Inv) {at_ len bytes : Nat}
    (hpending : s.pending = some (.send at_ len)) (hle : bytes ≤ len) :
    s.peer.Flushed { s.peer.left at_ bytes with conn := s.peer.conn.written bytes } bytes := by
  obtain ⟨rfl, -, hend⟩ := h.pending _ hpending
  have hlen : s.peer.conn.owed.length = s.peer.conn.out.length - s.peer.conn.sent := List.length_drop
  have hgave := Peer.gave_ok h.exact (n := bytes) (by omega)
  have hmin : s.peer.conn.written bytes = { s.peer.conn with sent := s.peer.conn.sent + bytes } := by
    rw [Conn.written, Nat.min_eq_right (by omega)]
  rw [hmin]
  exact hgave

theorem Ring.inv (run : Dispatch σ) {s : Ringed σ} {e : Moved} {s' : Ringed σ} (h : s.Inv)
    (hs : Ring run s e s') : s'.Inv := by
  cases hs with
  | stepped hnone hstep =>
    obtain ⟨-, hstepped⟩ := Peer.stepLoop_unique run h.exact hstep
    refine ⟨hstepped.exact, ?_⟩
    intro answer' ha
    cases ha
    exact hstepped.answers
  | arrived hpending hpos hle hland => exact ⟨(h.arrived hpending hle hland).exact, by simp⟩
  | written hpending hpos hle => exact ⟨(h.written hpending hle).exact, by simp⟩

theorem Turned.exact (run : Dispatch σ) {s : Peer σ} (h : s.Exact) (readable writable : Bool) (io : Io) :
    ∃ answer s', s.turn run readable writable io = .ok (answer, s') ∧ s'.Exact ∧
      (answer ≠ .close → s'.broken = s.broken) := by
  obtain ⟨⟨⟨n, hearly⟩, hbroken, -, -⟩, hturn⟩ := Peer.turn_early run h readable writable io
  rw [hturn]
  split
  · exact ⟨_, _, rfl, hearly.exact, by simp⟩
  · next hb =>
    rw [Bool.not_eq_true] at hb
    rw [hb, Bool.or_false] at hbroken
    cases readable with
    | false => exact ⟨_, _, rfl, hearly.exact, fun _ => hbroken⟩
    | true =>
      obtain ⟨s', hs, hfill, -⟩ | ⟨s1, s2, s3, good, -, -, hbroke, hexec, -, hwrote, hs⟩ :=
        Peer.serve_cases run hearly.exact io
      · exact ⟨_, s', hs, hfill.exact, by simp⟩
      · refine ⟨_, s3, hs, hwrote.flushed.exact, ?_⟩
        intro hopen
        cases good with
        | false => exact absurd rfl hopen
        | true =>
          have hfails := hwrote.good
          rw [eq_comm, Bool.not_eq_true'] at hfails
          rw [hwrote.broken, hfails, Bool.or_false, hexec.broken, hbroke, hbroken]

/-- What is kept by bytes put behind, by commands run and by bytes taken is kept by a turn. -/
theorem Turned.keeps {run : Dispatch σ} {I : Peer σ → Prop}
    (hfilled : ∀ {s s' : Peer σ} {data : List UInt8}, s.Filled s' data → I s → I s')
    (hexecuted : ∀ {s s' : Peer σ}, s.Executed run s' → I s → I s')
    (hflushed : ∀ {s s' : Peer σ} {n : Nat}, s.Flushed s' n → I s → I s')
    {s s' : Polled σ} {e : Woken} (hexact : s.peer.Exact) (hi : I s.peer) (hs : Turned run s e s') : I s'.peer := by
  cases hs with
  | @mk peer readable writable io answer _ hturn =>
    obtain ⟨⟨⟨n, hearly⟩, -, -, -⟩, heq⟩ := Peer.turn_early run hexact readable writable io
    have hstart := hflushed hearly hi
    rw [hturn] at heq
    split at heq
    · cases heq
      exact hstart
    · cases readable with
      | false =>
        cases heq
        exact hstart
      | true =>
        rw [Peer.turnOn, if_pos rfl] at heq
        obtain ⟨s₁, hserve, hfill, -⟩ | ⟨s₁, s₂, s₃, good, hfill, -, -, hexec, -, hwrote, hserve⟩ :=
          Peer.serve_cases run hearly.exact io
        · rw [hserve] at heq
          cases heq
          exact hfilled hfill hstart
        · rw [hserve] at heq
          cases heq
          exact hflushed hwrote.flushed (hexecuted hexec (hfilled hfill hstart))

theorem Turned.inv (run : Dispatch σ) {s : Polled σ} {e : Woken} {s' : Polled σ} (h : s.peer.Exact)
    (hs : Turned run s e s') : s'.peer.Exact :=
  Turned.keeps (fun hfilled _ => hfilled.exact) (fun hexecuted _ => hexecuted.exact)
    (fun hflushed _ => hflushed.exact) h h hs

theorem Turned.told {run : Dispatch σ} {env : σ} {s s' : Polled σ} {e : Woken} (h : s.peer.Exact)
    (htold : s.peer.Told run env) (hs : Turned run s e s') : s'.peer.Told run env :=
  Turned.keeps (fun hfilled => hfilled.work.told) (fun hexecuted => Told.works hexecuted.works)
    (fun hflushed => hflushed.work.told) h htold hs

theorem Ring.told {run : Dispatch σ} {env : σ} {s s' : Ringed σ} {e : Moved} (h : s.Inv)
    (htold : s.peer.Told run env) (hs : Ring run s e s') : s'.peer.Told run env := by
  cases hs with
  | stepped hnone hstep => exact Told.works (Peer.stepLoop_unique run h.exact hstep).2.works htold
  | arrived hpending hpos hle hland => exact (h.arrived hpending hle hland).work.told htold
  | written hpending hpos hle => exact (h.written hpending hle).work.told htold

/-- No byte is lost, duplicated or reordered, under either loop, every reply is the
one `run` makes, and neither loop ever stops with a panic. -/
theorem no_byte_lost (run : Dispatch σ) (env : σ) :
    (∀ tr s, Run (Turned run) (Polled.new env) tr s → Faithful s.peer ∧ s.peer.Told run env ∧
      ∀ readable writable io, ∃ r, s.peer.turn run readable writable io = .ok r) ∧
    (∀ tr s, Run (Ring run) (Ringed.new env) tr s → Faithful s.peer ∧ s.peer.Told run env ∧
      (∃ r, s.peer.stepLoop run 2 = .ok r) ∧
      ∀ at_ len data, s.pending = some (.recv at_ len) → data.length ≤ len →
        ∃ peer, s.peer.landed at_ data = .ok peer) := by
  constructor
  · intro tr s hrun
    have hinv := hrun.invariant (I := fun s => s.peer.Exact ∧ s.peer.Told run env) (C := fun _ _ => True)
      ⟨Peer.exact_new env, .nil⟩ (fun _ _ _ h _ hs => ⟨Turned.inv run h.1 hs, Turned.told h.1 h.2 hs⟩)
      (fun _ _ => trivial)
    obtain ⟨⟨hex, htold⟩, -⟩ := hinv
    refine ⟨hex.faithful, htold, ?_⟩
    intro readable writable io
    obtain ⟨answer, s', hok, -⟩ := Turned.exact run hex readable writable io
    exact ⟨_, hok⟩
  · intro tr s hrun
    have hinv := hrun.invariant (I := fun s => s.Inv ∧ s.peer.Told run env) (C := fun _ _ => True)
      ⟨Ringed.inv_new env, .nil⟩ (fun _ _ _ h _ hs => ⟨Ring.inv run h.1 hs, Ring.told h.1 h.2 hs⟩)
      (fun _ _ => trivial)
    obtain ⟨⟨hinv, htold⟩, -⟩ := hinv
    refine ⟨hinv.exact.faithful, htold, ?_, ?_⟩
    · obtain ⟨answer, s', hall, -⟩ := Peer.stepLoop_ok run hinv.exact
      exact ⟨_, hall 0⟩
    · intro at_ len data hpending hle
      obtain ⟨-, -, -, rfl, hend, -⟩ := hinv.pending _ hpending
      have hfits : s.peer.conn.filled + data.length ≤ s.peer.conn.buf.length := by omega
      obtain ⟨p, hp, -⟩ := Peer.arrived_ok hinv.exact hfits
      exact ⟨p, hp⟩

/-- The step of a connection the completion loop has reached: within two passes,
and with nothing left undone that it could have done. -/
theorem step_complete (run : Dispatch σ) (env : σ) {tr : List (Ringed σ × Moved × Ringed σ)}
    {s : Ringed σ} (h : Run (Ring run) (Ringed.new env) tr s) :
    ∃ answer s', (∀ passes, 2 ≤ passes → s.peer.stepLoop run passes = .ok (answer, s')) ∧
      Answers s' answer := by
  have hinv : s.Inv := (h.invariant (I := Ringed.Inv) (C := fun _ _ => True)
    (Ringed.inv_new env) (fun _ _ _ h _ hs => Ring.inv run h hs) (fun _ _ => trivial)).1
  obtain ⟨answer, s', hall, hstep⟩ := Peer.stepLoop_ok run hinv.exact
  refine ⟨answer, s', ?_, hstep.answers⟩
  intro passes hle
  obtain ⟨n, rfl⟩ : ∃ n, passes = n + 2 := ⟨passes - 2, by omega⟩
  exact hall n

/-- A command is answered with its own words. -/
def echo : Dispatch Unit := fun env args dialect => ⟨env, Encoder.bulk args.flatten, dialect, false⟩

/-- Two commands at once, and the start of a third. -/
def pipeline : List UInt8 := ascii "PING\r\nPING\r\nPI"

/-- They arrive, both are answered, and the socket takes three bytes of the answers. -/
theorem ring_pipeline : ∃ tr s, Run (Ring echo) (Ringed.new ()) tr s ∧
    tr.map (fun x => x.2.1) = [.stepped (.recv 0 chunk), .arrived pipeline, .stepped (.send 0 20), .written 3] ∧
    s.peer.stepLoop echo 2 = .ok (.send 3 17, s.peer) := by
  have hplayed : ((Peer.new ()).stepLoop echo 2 >>= fun x => x.2.landed 0 pipeline >>= fun p =>
      Peer.stepLoop echo 2 { p with conn := p.conn.arrived pipeline.length } >>= fun y =>
      pure (x.1, y.1, y.2.conn.sent, y.2.conn.out.length)) = .ok (.recv 0 chunk, .send 0 20, 0, 20) := by
    decide +kernel
  obtain ⟨⟨first, p₁⟩, h₁, hplayed⟩ := bind_ok_iff.mp hplayed
  obtain ⟨p₂, h₂, hplayed⟩ := bind_ok_iff.mp hplayed
  obtain ⟨⟨second, p₃⟩, h₃, hplayed⟩ := bind_ok_iff.mp hplayed
  simp only [pure_ok, Except.ok.injEq, Prod.mk.injEq] at hplayed
  obtain ⟨rfl, rfl, hsent, hout⟩ := hplayed
  have s₁ : Ring echo (Ringed.new ()) (.stepped (.recv 0 chunk)) ⟨p₁, some (.recv 0 chunk)⟩ := .stepped rfl h₁
  have s₂ : Ring echo ⟨p₁, some (.recv 0 chunk)⟩ (.arrived pipeline)
      ⟨{ p₂ with conn := p₂.conn.arrived pipeline.length }, none⟩ :=
    .arrived rfl (by decide) (by decide) h₂
  have s₃ : Ring echo _ (.stepped (.send 0 20)) ⟨p₃, some (.send 0 20)⟩ :=
    .stepped (s := ⟨{ p₂ with conn := p₂.conn.arrived pipeline.length }, none⟩) rfl h₃
  have s₄ : Ring echo ⟨p₃, some (.send 0 20)⟩ (.written 3) ⟨{ p₃.left 0 3 with conn := p₃.conn.written 3 }, none⟩ :=
    .written rfl (by decide) (by decide)
  refine ⟨_, _, (((Run.single s₁).snoc s₂).snoc s₃).snoc s₄, rfl, ?_⟩
  have hsent' : (p₃.conn.written 3).sent = 3 := by
    rw [Conn.written, hout, hsent]
    rfl
  have howes : (p₃.conn.written 3).owes = true := by
    rw [Conn.owes, hsent', decide_eq_true_eq]
    exact hout.symm ▸ (by decide : 3 < 20)
  rw [Peer.stepLoop, if_pos howes]
  simp only [hsent', show (p₃.conn.written 3).out = p₃.conn.out from rfl, hout]
  rfl

/-- And the step after it goes on with the rest. -/
theorem step_complete_pipeline : ∃ tr s answer s', Run (Ring echo) (Ringed.new ()) tr s ∧ tr.length = 4 ∧
    (∀ passes, 2 ≤ passes → s.peer.stepLoop echo passes = .ok (answer, s')) ∧ Answers s' answer ∧
    answer = .send 3 17 := by
  obtain ⟨tr, s, hrun, hmoves, hstep⟩ := ring_pipeline
  obtain ⟨answer, s', hall, hanswers⟩ := step_complete echo () hrun
  have heq := hall 2 (Nat.le_refl 2)
  rw [hstep] at heq
  cases heq
  exact ⟨tr, s, _, _, hrun, by simpa using congrArg List.length hmoves, hall, hanswers, rfl⟩

/-- The two commands arrive, the socket takes three bytes of the answers, and all the rest when it is next writable. -/
theorem turned_pipeline : ∃ tr s, Run (Turned echo) (Polled.new ()) tr s ∧
    tr.map (fun x => x.2.1.answer) = [.write, .read] ∧ s.peer.received = pipeline ∧
    s.peer.taken = ascii "$4\r\nPING\r\n$4\r\nPING\r\n" := by
  let io : Io := ⟨.wouldBlock, .took 0x50 (pipeline.drop 1), .took 2 .wouldBlock⟩
  let io' : Io := ⟨.took 100 .wouldBlock, .wouldBlock, .wouldBlock⟩
  have hplayed : ((Peer.new ()).turn echo true false io >>= fun x => x.2.turn echo false true io' >>= fun y =>
      pure (x.1, y.1, y.2.received, y.2.taken)) =
        .ok (.write, .read, pipeline, ascii "$4\r\nPING\r\n$4\r\nPING\r\n") := by
    decide +kernel
  obtain ⟨⟨first, p₁⟩, h₁, hplayed⟩ := bind_ok_iff.mp hplayed
  obtain ⟨⟨second, p₂⟩, h₂, hplayed⟩ := bind_ok_iff.mp hplayed
  simp only [pure_ok, Except.ok.injEq, Prod.mk.injEq] at hplayed
  obtain ⟨rfl, rfl, hreceived, htaken⟩ := hplayed
  have t₁ : Turned echo (Polled.new ()) ⟨true, false, io, .write⟩ ⟨p₁, .write⟩ := .mk (by decide) h₁
  have t₂ : Turned echo ⟨p₁, .write⟩ ⟨false, true, io', .read⟩ ⟨p₂, .read⟩ :=
    .mk (show Turn.write ≠ .close by decide) h₂
  exact ⟨_, _, (Run.single t₁).snoc t₂, rfl, hreceived, htaken⟩

/-- Nothing is lost of it under either loop. -/
theorem no_byte_lost_pipeline :
    (∃ tr s, Run (Turned echo) (Polled.new ()) tr s ∧ tr.length = 2 ∧ Faithful s.peer ∧ s.peer.Told echo () ∧
      s.peer.received = pipeline ∧ s.peer.taken = ascii "$4\r\nPING\r\n$4\r\nPING\r\n") ∧
    ∃ tr s, Run (Ring echo) (Ringed.new ()) tr s ∧ tr.length = 4 ∧ Faithful s.peer ∧ s.peer.Told echo () := by
  obtain ⟨tr, s, hrun, hanswers, hreceived, htaken⟩ := turned_pipeline
  obtain ⟨tr', s', hrun', hmoves, -⟩ := ring_pipeline
  obtain ⟨hpolled, hringed⟩ := no_byte_lost echo ()
  obtain ⟨hfaithful, htold, -⟩ := hpolled tr s hrun
  obtain ⟨hfaithful', htold', -⟩ := hringed tr' s' hrun'
  have hlen : tr.length = 2 := by simpa using congrArg List.length hanswers
  have hlen' : tr'.length = 4 := by simpa using congrArg List.length hmoves
  exact ⟨⟨tr, s, hrun, hlen, hfaithful, htold, hreceived, htaken⟩, tr', s', hrun', hlen', hfaithful', htold'⟩

end Rugo
