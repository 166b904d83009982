import Rugo.ConnCuts
import Rugo.ConnTurns
import Rugo.Pipelines
import Rugo.Sections

/- Clients of the server: what each of them is sent back, while the others are served by
   other threads from the same shards.

   What a connection does with the bytes it is sent is a program on the map, `converse`:
   one command after another, each asking for what it asks for. The threads run such
   programs under the locks. What the map answered one of them is then told, call by call,
   to a connection with its buffers, its reads and its writes (`told`), and that does what
   its program did: however the bytes come in and go out, under either loop.

     1. `converse_served`: what was done with what a connection has received is a front of
        what its program came to, or that and giving up on a line.
     2. `clients_served`: a client that writes commands has been sent a front of their
        replies, all of which one cache gives that is asked for one section after another. -/
namespace Rugo
open Exec Progs Runs Resp
open Relation (ReflTransGen)

deriving instance DecidableEq for KeyOp
deriving instance DecidableEq for Sect

namespace Commands
variable {n : Nat} {ι : Type} (envs : Nat → Env)

/-! ## A connection as a program -/

/-- What is done with the bytes a connection is sent, where `envs` is the rest of what each of its
commands sees. Each parse takes a byte or more. -/
def converse : Nat → Nat → Dialect → List UInt8 → Work (List Did)
  | 0, _, _, _ => pure []
  | fuel + 1, k, dialect, bytes =>
    match parsed bytes with
    | (.ok (.done used), command) =>
      let seen := bytes.take used
      if command.isEmpty then do
        let more ← converse fuel k dialect (bytes.drop used)
        pure (.skipped seen :: more)
      else do
        let ran ← run (envs k) (command.args seen) dialect
        let did := Did.ran seen (command.args seen) ran.reply
        if ran.last then pure [did]
        else do
          let more ← converse fuel (k + 1) ran.dialect (bytes.drop used)
          pure (did :: more)
    | (.ok .more, _) => pure []
    | (.error bad, _) => pure [.refused bad]

/-- Commands that are told what these calls were answered, and which command is the next. -/
def told (n : Nat) : Dispatch (Nat × List (Made (@Sect.Answer n) ι)) := fun state args dialect =>
  match (sects n (run (envs state.1) args dialect)).follow state.2 with
  | some (ran, calls) => ⟨(state.1 + 1, calls), ran.reply, ran.dialect, ran.last⟩
  | none => ⟨state, [], dialect, true⟩

variable {envs}

theorem sects_bind {α β : Type} (x : Work α) (f : α → Work β) :
    sects n (x >>= f) = sects n x >>= fun a => sects n (f a) := x.expand_bind _ f

theorem told_run {k : Nat} {args : List (List UInt8)} {dialect : Dialect} {ran : Ran}
    {calls : List (Made (@Sect.Answer n) ι)} (h : Drives (sects n (run (envs k) args dialect)) calls (.ret ran))
    (more : List (Made (@Sect.Answer n) ι)) :
    told envs n (k, calls ++ more) args dialect = ⟨(k + 1, more), ran.reply, ran.dialect, ran.last⟩ := by
  rw [told, h.follow more]

/-- What a connection's program comes to, its desk comes to that is told what the calls of the
program were answered; and then there is no more to do. -/
theorem converse_works {fuel k : Nat} {dialect : Dialect} {bytes : List UInt8} (hfuel : bytes.length < fuel)
    {calls : List (Made (@Sect.Answer n) ι)} {did : List Did}
    (h : Drives (sects n (converse envs fuel k dialect bytes)) calls (.ret did)) (more : List (Made (@Sect.Answer n) ι))
    (before : List Did) :
    ∃ e, Desk.Works (told envs n) (⟨(k, calls ++ more), dialect, false, before⟩, bytes) e ∧
      Desk.next (told envs n) e = none ∧ e.1.did = before ++ did := by
  induction fuel generalizing k dialect bytes calls did before with
  | zero => exact absurd hfuel (Nat.not_lt_zero _)
  | succ fuel ih =>
    rw [converse] at h
    match hp : parsed bytes with
    | (.ok (.done used), command) =>
      -- a command uses bytes up, so that the fuel lasts
      obtain ⟨hpos, hle, -⟩ := parsed_done_le hp
      have hshorter : (bytes.drop used).length < fuel := by
        rw [List.length_drop]
        omega
      simp only [hp] at h
      by_cases hempty : command.isEmpty = true
      · rw [if_pos hempty, sects_bind] at h
        obtain ⟨did', first, rest, rfl, hrest, hret⟩ := h.bind
        cases hret
        obtain ⟨e, hworks, hend, hdid⟩ := ih hshorter hrest (before ++ [.skipped (bytes.take used)])
        refine ⟨e, .head ?_ hworks, hend, by simp [hdid]⟩
        simp [Desk.next, hp, Desk.dispatch, hempty]
      · rw [if_neg hempty, sects_bind] at h
        obtain ⟨ran, first, rest, rfl, hrun, hrest⟩ := h.bind
        -- the desk runs it on the answers that its calls were given
        have hnext : ∀ later, Desk.next (told envs n) (⟨(k, (first ++ rest) ++ later), dialect, false, before⟩, bytes) =
            some (⟨(k + 1, rest ++ later), ran.dialect, ran.last,
              before ++ [.ran (bytes.take used) (command.args (bytes.take used)) ran.reply]⟩, bytes.drop used) := by
          intro later
          simp [Desk.next, hp, Desk.dispatch, hempty, told_run hrun]
        by_cases hlast : ran.last = true
        · simp only [hlast, if_true] at hrest
          cases hrest
          refine ⟨_, .head (hnext more) .refl, ?_, rfl⟩
          simp [Desk.next, hlast]
        · rw [if_neg hlast, sects_bind] at hrest
          obtain ⟨did', second, last, rfl, hmore, hret⟩ := hrest.bind
          cases hret
          obtain ⟨e, hworks, hend, hdid⟩ := ih hshorter hmore
            (before ++ [.ran (bytes.take used) (command.args (bytes.take used)) ran.reply])
          rw [Bool.not_eq_true] at hlast
          refine ⟨e, .head (hnext more) ?_, hend, by simp [hdid]⟩
          rw [hlast, List.append_nil]
          exact hworks
    | (.ok .more, command) =>
      simp only [hp] at h
      cases h
      refine ⟨_, .refl, ?_, (List.append_nil before).symm⟩
      simp [Desk.next, hp]
    | (.error bad, command) =>
      simp only [hp] at h
      cases h
      have hnext : Desk.next (told envs n) (⟨(k, [] ++ more), dialect, false, before⟩, bytes) =
          some (⟨(k, [] ++ more), dialect, true, before ++ [.refused bad]⟩, bytes) := by
        simp [Desk.next, hp]
      exact ⟨_, .head hnext .refl, by simp [Desk.next], rfl⟩

end Commands

/-! ## A connection with its buffers -/

section along
variable {σ : Type} {run : Dispatch σ} {env : σ}

/-- What was done is on the path through what was received; or up to a line that was given up on,
after which nothing is done. -/
def Along (run : Dispatch σ) (env : σ) (s : Peer σ) : Prop :=
  Desk.Path run (front env s.received) (s.desk, s.conn.unread) ∨
    ∃ seen later r, s.received = seen ++ later ∧ Desk.Path run (front env seen) r ∧
      (parsed r.2).1 = .error .noNewline ∧
      s.desk = { r.1 with closing := true, did := r.1.did ++ [.refused .noNewline] }

theorem Along.moves {s s' : Peer σ} (h : Along run env s) {data : List UInt8}
    (hreceived : s'.received = s.received ++ data)
    (hworks : Desk.Works run (s.desk, s.conn.unread ++ data) (s'.desk, s'.conn.unread)) : Along run env s' := by
  obtain hpath | ⟨seen, later, r, hseen, hr, hline, hdesk⟩ := h
  · have hfar : Desk.Path run (front env s'.received) (s.desk, s.conn.unread ++ data) := by
      rw [hreceived]
      exact hpath.append data
    obtain hon | ⟨r, command, hr, -, hp, heq⟩ := hworks.path
    · exact .inl (hfar.trans hon)
    · exact .inr ⟨s'.received, [], r, (List.append_nil _).symm, hfar.trans hr, by rw [hp], congrArg Prod.fst heq⟩
  · right
    refine ⟨seen, later ++ data, r, by rw [hreceived, hseen, List.append_assoc], hr, hline, ?_⟩
    rw [← hdesk]
    obtain heq | ⟨q, hstep, -⟩ := ReflTransGen.cases_head hworks
    · exact (congrArg Prod.fst heq).symm
    · simp [Desk.next, hdesk] at hstep

theorem Along.new (run : Dispatch σ) (env : σ) : Along run env (Peer.new env) := by
  left
  rw [Peer.unread_new]
  exact .refl

theorem Along.turned {s s' : Polled σ} {e : Woken} (hexact : s.peer.Exact) (h : Along run env s.peer)
    (hturned : Turned run s e s') : Along run env s'.peer := by
  refine Turned.keeps ?_ ?_ ?_ hexact h hturned
  · intro s s' data hfilled halong
    apply halong.moves hfilled.received
    rw [hfilled.unread, hfilled.work.desk]
    exact .refl
  · intro s s' hexecuted halong
    apply halong.moves (hexecuted.received.trans (List.append_nil _).symm)
    rw [List.append_nil]
    exact hexecuted.works
  · intro s s' n hflushed halong
    apply halong.moves (hflushed.received.trans (List.append_nil _).symm)
    rw [List.append_nil, hflushed.unread, hflushed.work.desk]
    exact .refl

/-- A connection that one of the two loops has brought so far. -/
def Peer.Reached (run : Dispatch σ) (env : σ) (s : Peer σ) : Prop :=
  (∃ tr t, Run (Turned run) (Polled.new env) tr t ∧ t.peer = s) ∨
    ∃ tr t, Run (Ring run) (Ringed.new env) tr t ∧ t.peer = s

theorem Peer.Reached.along {s : Peer σ} (h : Peer.Reached run env s) : Along run env s ∧ s.Exact := by
  obtain ⟨tr, t, hrun, rfl⟩ | ⟨tr, t, hrun, rfl⟩ := h
  · have hinv := hrun.invariant (I := fun t => Along run env t.peer ∧ t.peer.Exact) (C := fun _ _ => True)
      ⟨.new run env, Peer.exact_new env⟩ (by
        intro t e t' hinv _ hturned
        exact ⟨hinv.1.turned hinv.2 hturned, Turned.inv run hinv.2 hturned⟩) (fun _ _ => trivial)
    exact hinv.1
  · have hfollows := Follows.of_run hrun
    refine ⟨hfollows.on.imp_right ?_, hfollows.inv.exact⟩
    intro hgave
    obtain ⟨r, command, hr, -, hp, heq⟩ := hgave
    exact ⟨_, [], r, (List.append_nil _).symm, hr, by rw [hp], congrArg Prod.fst heq⟩

theorem Desk.Works.did {p q : Desk σ × List UInt8} (h : Desk.Works run p q) : p.1.did <+: q.1.did := by
  induction h with
  | refl => exact List.prefix_rfl
  | tail _ hstep ih =>
    apply ih.trans
    simp only [Desk.next] at hstep
    split at hstep
    · cases hstep
    · split at hstep
      · cases hstep
        rw [Desk.dispatch]
        split <;> exact List.prefix_append _ _
      · cases hstep
      · cases hstep
        exact List.prefix_append _ _

theorem Desk.Path.works {p q : Desk σ × List UInt8} (h : Desk.Path run p q) : Desk.Works run p q := by
  induction h with
  | refl => exact .refl
  | tail _ hsolid ih => exact ih.tail hsolid.1

/-- What stands on the way to where there is no more to do. -/
theorem Desk.Works.toward {p q e : Desk σ × List UInt8} (h : Desk.Works run p q) (he : Desk.Works run p e)
    (hend : Desk.next run e = none) : Desk.Works run q e := by
  have hunique : Relator.RightUnique fun p q : Desk σ × List UInt8 => Desk.next run p = some q := by
    intro p q q' hq hq'
    rw [hq] at hq'
    exact Option.some.inj hq'
  obtain hto | hfrom := ReflTransGen.total_of_right_unique hunique h he
  · exact hto
  · obtain rfl | ⟨q', hstep, -⟩ := ReflTransGen.cases_head hfrom
    · exact .refl
    · rw [hend] at hstep
      cases hstep

end along

/-! ## What a connection is told -/

section upto
variable {n : Nat} {envs : Nat → Commands.Env} {calls : List (Made (@Sect.Answer n) Sky)} {bytes : List UInt8}
  {did : List Did} {fuel : Nat}

/-- What was done so far, of what there is to do; or that and giving up on a line. -/
def Upto (did done : List Did) : Prop := ∃ d, d <+: did ∧ (done = d ∨ done = d ++ [.refused .noNewline])

/-- A connection that is told what a program's calls were answered, and has given up on nothing, is on
the way to what the program did; it is there once it stops. -/
theorem path_upto (hfuel : bytes.length < fuel)
    (hdrives : Drives (Commands.sects n (Commands.converse envs fuel 0 .resp2 bytes)) calls (.ret did))
    {q : Desk (Nat × List (Made (@Sect.Answer n) Sky)) × List UInt8}
    (hpath : Desk.Path (Commands.told envs n) (front (0, calls) bytes) q) :
    q.1.did <+: did ∧ (Desk.next (Commands.told envs n) q = none → q.1.did = did) := by
  obtain ⟨e, hworks, hend, hdid⟩ := Commands.converse_works hfuel hdrives [] []
  rw [List.append_nil, List.nil_append] at *
  have hto := hpath.works.toward hworks hend
  rw [← hdid]
  refine ⟨hto.did, ?_⟩
  intro hstop
  obtain rfl | ⟨q', hstep, -⟩ := ReflTransGen.cases_head hto
  · rfl
  · rw [hstop] at hstep
    cases hstep

/-- One that has given up on a line did so on the way. -/
theorem Along.upto (hfuel : bytes.length < fuel)
    (hdrives : Drives (Commands.sects n (Commands.converse envs fuel 0 .resp2 bytes)) calls (.ret did))
    {s : Peer (Nat × List (Made (@Sect.Answer n) Sky))} (h : Along (Commands.told envs n) (0, calls) s)
    (hcome : s.received <+: bytes) :
    Upto did s.did ∧ (s.received = bytes → s.conn.closing = false → (parsed s.conn.unread).1 = .ok .more →
      s.did = did) := by
  obtain ⟨rest, rfl⟩ := hcome
  obtain hpath | ⟨seen, later, r, hseen, hr, -, hdesk⟩ := h
  · obtain ⟨hfront, hstop⟩ := path_upto hfuel hdrives (hpath.append rest)
    refine ⟨⟨s.did, hfront, .inl rfl⟩, ?_⟩
    intro hwhole hopen hmore
    have hnil : rest = [] := by simpa using hwhole
    have hp : parsed s.conn.unread = (.ok .more, (parsed s.conn.unread).2) := by rw [← hmore]
    apply hstop
    simp only [hnil, List.append_nil, Desk.next, show s.desk.closing = false from hopen, Bool.false_eq_true, if_false]
    rw [hp]
  · have hsame : seen ++ (later ++ rest) = s.received ++ rest := by rw [hseen, List.append_assoc]
    have hfar : Desk.Path (Commands.told envs n) (front (0, calls) (seen ++ (later ++ rest)))
      (r.1, r.2 ++ (later ++ rest)) :=
      hr.append (later ++ rest)
    rw [hsame] at hfar
    obtain ⟨hfront, -⟩ := path_upto hfuel hdrives hfar
    refine ⟨⟨r.1.did, hfront, .inr (congrArg Desk.did hdesk)⟩, ?_⟩
    intro _ hopen
    have hclosing : s.conn.closing = true := congrArg Desk.closing hdesk
    rw [hopen] at hclosing
    cases hclosing

end upto

/-! ## Commands as they are written -/

namespace Commands
variable (envs : Nat → Env)

/-- What a client may write: commands that can be sent, none of which ends the process. -/
structure Client (cmds : List (List (List UInt8))) : Prop where
  sendable : ∀ args ∈ cmds, Sendable args
  small : ∀ args ∈ cmds, (encode args).length < 2 ^ 32
  stays : ∀ args ∈ cmds, (arg args 0).map upper ≠ ascii "SHUTDOWN"

/-- A client's commands, one after another, until one is the last: what was done with each. -/
def transcript : Nat → Dialect → List (List (List UInt8)) → Work (List Did)
  | _, _, [] => pure []
  | k, dialect, args :: cmds => do
    let ran ← run (envs k) args dialect
    let did := Did.ran (encode args) args ran.reply
    if ran.last then pure [did]
    else do
      let more ← transcript (k + 1) ran.dialect cmds
      pure (did :: more)

variable {envs}

theorem Client.tail {args : List (List UInt8)} {cmds : List (List (List UInt8))} (h : Client (args :: cmds)) :
    Client cmds where
  sendable other hother := h.sendable other (List.mem_cons_of_mem _ hother)
  small other hother := h.small other (List.mem_cons_of_mem _ hother)
  stays other hother := h.stays other (List.mem_cons_of_mem _ hother)

theorem Client.parsed {args : List (List UInt8)} {cmds : List (List (List UInt8))} (h : Client (args :: cmds))
    (rest : List UInt8) : ∃ cmd : Command, parsed (encode args ++ rest) = (.ok (.done (encode args).length), cmd) ∧
      cmd.isEmpty = false ∧ cmd.args (encode args) = args := by
  have hsend := h.sendable args List.mem_cons_self
  obtain ⟨cmd, hparse, hargs⟩ := parse_encode hsend (h.small args List.mem_cons_self) []
  rw [List.append_nil] at hparse hargs
  rw [parse_ok, Except.ok.injEq] at hparse
  refine ⟨cmd, parsed_append hparse rest, ?_, hargs⟩
  rw [List.isEmpty_eq_false_iff]
  intro hnil
  rw [hnil] at hargs
  exact hsend.some hargs.symm

/-- What a connection does with the commands of a client, as they were written. -/
theorem converse_encode {cmds : List (List (List UInt8))} (h : Client cmds) {fuel : Nat}
    (hfuel : (cmds.flatMap encode).length < fuel) (k : Nat) (dialect : Dialect) :
    converse envs fuel k dialect (cmds.flatMap encode) = transcript envs k dialect cmds := by
  induction cmds generalizing fuel k dialect with
  | nil =>
    obtain ⟨fuel, rfl⟩ := Nat.exists_eq_succ_of_ne_zero (Nat.ne_of_gt (Nat.zero_lt_of_lt hfuel))
    rfl
  | cons args cmds ih =>
    obtain ⟨fuel, rfl⟩ := Nat.exists_eq_succ_of_ne_zero (Nat.ne_of_gt (Nat.zero_lt_of_lt hfuel))
    obtain ⟨cmd, hparsed, hsome, hargs⟩ := h.parsed (cmds.flatMap encode)
    have hpos := (parsed_done_le hparsed).1
    rw [List.flatMap_cons, List.length_append] at hfuel
    have hrest : ∀ ran : Ran, converse envs fuel (k + 1) ran.dialect (cmds.flatMap encode) =
        transcript envs (k + 1) ran.dialect cmds := fun ran => ih h.tail (by omega) _ _
    rw [converse, List.flatMap_cons, hparsed]
    simp only [List.take_left, List.drop_left, hsome, hargs, Bool.false_eq_true, if_false, hrest]
    rfl

theorem Client.path {σ : Type} {run : Dispatch σ} {cmds : List (List (List UInt8))} (h : Client cmds) {d : Desk σ}
    {q : Desk σ × List UInt8} (hpath : Desk.Path run (d, cmds.flatMap encode) q) :
    ∃ cmds', q.2 = cmds'.flatMap encode ∧ Client cmds' := by
  induction hpath with
  | refl => exact ⟨cmds, rfl, h⟩
  | @tail p q _ hstep ih =>
    obtain ⟨cmds', hrest, hclient⟩ := ih
    obtain ⟨-, ⟨used, command, hp, rfl⟩ | ⟨bad, command, -, hp, rfl⟩⟩ := hstep.cases
    · cases cmds' with
      | nil =>
        rw [hrest] at hp
        cases hp
      | cons args cmds' =>
        obtain ⟨cmd, hparsed, -⟩ := hclient.parsed (cmds'.flatMap encode)
        rw [hrest, List.flatMap_cons, hparsed] at hp
        cases hp
        refine ⟨cmds', ?_, hclient.tail⟩
        simp only [hrest, List.flatMap_cons, List.drop_left]
    · exact ⟨cmds', hrest, hclient⟩

theorem Client.along {σ : Type} {run : Dispatch σ} {env : σ} {cmds : List (List (List UInt8))} (h : Client cmds)
    {s : Peer σ} (halong : Along run env s) {rest : List UInt8} (hcome : s.received ++ rest = cmds.flatMap encode) :
    Desk.Path run (front env s.received) (s.desk, s.conn.unread) := by
  obtain hpath | ⟨seen, later, r, hseen, hr, hline, -⟩ := halong
  · exact hpath
  · exfalso
    have hsame : seen ++ (later ++ rest) = cmds.flatMap encode := by rw [← List.append_assoc, ← hseen, hcome]
    have hfar : Desk.Path run (front env (seen ++ (later ++ rest))) (r.1, r.2 ++ (later ++ rest)) :=
      hr.append (later ++ rest)
    rw [hsame] at hfar
    obtain ⟨cmds', hstands, hclient⟩ := h.path hfar
    have hhead := head_of_noNewline hline
    cases hline' : r.2 with
    | nil =>
      rw [hline'] at hline
      cases hline
    | cons first more =>
      rw [hline'] at hstands hhead
      cases cmds' with
      | nil => cases hstands
      | cons args cmds' =>
        have hfew := (hclient.sendable args List.mem_cons_self).few
        have hmax : maxArgs = 2 ^ 20 := rfl
        rw [List.flatMap_cons, encode_eq (by omega), List.cons_append] at hstands
        simp only [List.cons_append, List.cons.injEq] at hstands
        exact hhead (congrArg some hstands.1)

end Commands

/-! ## Served -/

/-- A client that asks whether a key is there, and what is under it. -/
def asked : List (List (List UInt8)) := [[ascii "EXISTS", ascii "k"], [ascii "GET", ascii "k"]]

def setter : List (List (List UInt8)) := [[ascii "SET", ascii "k", ascii "1"]]

theorem asked_client : Commands.Client asked where
  sendable args hargs := by
    obtain rfl | hargs := List.mem_cons.mp hargs
    · exact ⟨by decide, by decide, by decide⟩
    · rw [List.mem_singleton.mp hargs]
      exact ⟨by decide, by decide, by decide⟩
  small := by decide +kernel
  stays := by decide

/-- The threads that serve the two, of a map that was just made. -/
def serving : List (Sects fresh.shards.length (List Did)) :=
  [asked, setter].map fun cmds =>
    Commands.sects fresh.shards.length (Commands.transcript (fun _ => Commands.started) 0 .resp2 cmds)

/-- What the first has been answered once the key is found missing. -/
def missed : Did := .ran (encode [ascii "EXISTS", ascii "k"]) [ascii "EXISTS", ascii "k"] (Encoder.integer 0)

/-- And what the key holds once it is set. -/
def fetched : Did := .ran (encode [ascii "GET", ascii "k"]) [ascii "GET", ascii "k"] (Encoder.bulk (ascii "1"))

/-- What is left of the first in between. -/
def getting : Sects fresh.shards.length (List Did) :=
  .call (Sect.key (ascii "k") .get) fun found =>
    .ret [missed, .ran (encode [ascii "GET", ascii "k"]) [ascii "GET", ascii "k"] (Commands.bulkOr .resp2 found)]

def placed : Did := .ran (encode [ascii "SET", ascii "k", ascii "1"]) [ascii "SET", ascii "k", ascii "1"] Commands.okay

theorem serving_answered :
    ((fresh.sections .word .boxed).perform ⟨9, true⟩ fresh.tables (.key (ascii "k") .contains)).map Prod.fst =
      .ok false ∧
    ((fresh.sections .word .boxed).perform ⟨9, true⟩ (remains fresh fresh.tables (.key (ascii "k") .contains))
      (.key (ascii "k") (.set (ascii "1") none none))).map Prod.fst = .ok (.ok .inserted) ∧
    ((fresh.sections .word .boxed).perform ⟨9, true⟩
      (remains fresh (remains fresh fresh.tables (.key (ascii "k") .contains))
        (.key (ascii "k") (.set (ascii "1") none none)))
      (.key (ascii "k") .get)).map Prod.fst = .ok (some (ascii "1")) := by
  decide +kernel

/-- The key is set between the two commands of the first. -/
theorem serving_runs : ∃ tr m, Run (Machine.Step (fresh.sections .word .boxed))
      (.start (fresh.sections .word .boxed) fresh.tables serving) tr m ∧
    m.threads[0]? = some (.running (.ret [missed, fetched])) ∧
    ∀ x ∈ tr, ∀ made, x.2.1.made = some made → ¬ made.op.Refused made.answer := by
  obtain ⟨hmissed, hset, hfound⟩ := serving_answered
  let looked := remains fresh fresh.tables (.key (ascii "k") .contains)
  let left_ := remains fresh looked (.key (ascii "k") (.set (ascii "1") none none))
  have hfirst : Pool.Step (fresh.sections .word .boxed).perform ⟨fresh.tables, serving⟩
      ⟨0, ⟨9, true⟩, .key (ascii "k") .contains, false⟩ ⟨looked, serving.set 0 getting⟩ :=
    made_by rfl (remains_of hmissed) rfl
  have hsecond : Pool.Step (fresh.sections .word .boxed).perform ⟨looked, serving.set 0 getting⟩
      ⟨1, ⟨9, true⟩, .key (ascii "k") (.set (ascii "1") none none), .ok .inserted⟩
      ⟨left_, [getting, .ret [placed]]⟩ := made_by rfl (remains_of hset) rfl
  have hthird : Pool.Step (fresh.sections .word .boxed).perform ⟨left_, [getting, .ret [placed]]⟩
      ⟨0, ⟨9, true⟩, .key (ascii "k") .get, some (ascii "1")⟩
      ⟨remains fresh left_ (.key (ascii "k") .get), [.ret [missed, fetched], .ret [placed]]⟩ :=
        made_by rfl (remains_of hfound) rfl
  obtain ⟨tr, hrun, hmade⟩ := Machine.covers (((Run.single hfirst).snoc hsecond).snoc hthird)
  exact ⟨tr, _, hrun, rfl, granted_of hmade (by simp [Sect.Refused, KeyOp.Refused])⟩

section crowd
variable {imp : Imp} {p : Platform} {shards maxmemory : Nat} {seed : UInt64} {map : Map}
  {tr₀ : List (Map × Map.Act × Map)} {c : Cache} {envs : Nat → Commands.Env} {did : List Did}
  {progs : List (Sects map.shards.length (List Did))} {m : map.Crowd (List Did)} {who : Nat}
  {tr : List (map.Crowd (List Did) × Move (@Sect.Answer map.shards.length) Sky × map.Crowd (List Did))}

/-- What a connection makes of what it is sent, while the others are at work: however its bytes come
in and its replies go out, it has done a front of what its program did, or that and giving up on a
line, and answered what it has done; and all of it once it waits with all of the bytes received. -/
theorem converse_served (hreached : Run (Map.Returns imp p) (Map.withSeed shards maxmemory seed) tr₀ map)
    (hkeeps : ∀ x ∈ tr₀, Map.Unstranded p x.1 x.2.1) (hc : map.Stores imp c)
    (h : Run (Machine.Step (map.sections imp p)) (.start (map.sections imp p) map.tables progs) tr m)
    (hgranted : ∀ x ∈ tr, ∀ made, x.2.1.made = some made → ¬ made.op.Refused made.answer)
    {bytes : List UInt8}
    (hwho : progs[who]? = some (Commands.sects map.shards.length
      (Commands.converse envs (bytes.length + 1) 0 .resp2 bytes)))
    (hdone : m.threads[who]? = some (.running (.ret did))) :
    ∃ ctr pool, Run (Cache.Goes map) ⟨c, progs⟩ ctr pool ∧
      ctr.map (fun x => x.2.1) = tr.filterMap (fun x => x.2.1.made) ∧
      ∀ s, Peer.Reached (Commands.told envs map.shards.length) (0, (Pool.stepsOf who ctr).map fun x => x.2.1) s →
        s.received <+: bytes → Upto did s.did ∧ s.taken ++ s.conn.owed = answered s.did ∧
          (s.received = bytes → s.conn.closing = false → (parsed s.conn.unread).1 = .ok .more → s.did = did) := by
  obtain ⟨ctr, pool, hrun, hlabels, hprogs, -⟩ := sections_serve hreached hkeeps hc h hgranted
  have hdrives := crowd_drives hrun hprogs hwho hdone
  refine ⟨ctr, pool, hrun, hlabels, ?_⟩
  intro s hs hcome
  obtain ⟨halong, hexact⟩ := hs.along
  obtain ⟨hupto, hall⟩ := halong.upto (Nat.lt_succ_self _) hdrives hcome
  exact ⟨hupto, hexact.replies, hall⟩

theorem converse_served_between : ∃ tr m ctr pool, Run (Machine.Step (fresh.sections .word .boxed))
      (.start (fresh.sections .word .boxed) fresh.tables serving) tr m ∧
    Run (Cache.Goes fresh) ⟨fun _ => none, serving⟩ ctr pool ∧
    ∀ s, Peer.Reached (Commands.told (fun _ => Commands.started) fresh.shards.length)
        (0, (Pool.stepsOf 0 ctr).map fun x => x.2.1) s → s.received <+: asked.flatMap encode →
      Upto [missed, fetched] s.did ∧ s.taken ++ s.conn.owed = answered s.did ∧
        (s.received = asked.flatMap encode → s.conn.closing = false → (parsed s.conn.unread).1 = .ok .more →
          s.did = [missed, fetched]) := by
  obtain ⟨tr, m, hrun, hdone, hgranted⟩ := serving_runs
  have hreached : Run (Map.Returns .word .boxed) (Map.withSeed 1 0 0) [] fresh := .nil
  have hwho : serving[0]? = some (Commands.sects fresh.shards.length (Commands.converse (fun _ => Commands.started)
      ((asked.flatMap encode).length + 1) 0 .resp2 (asked.flatMap encode))) := by
    rw [Commands.converse_encode asked_client (Nat.lt_succ_self _)]
    rfl
  obtain ⟨ctr, pool, hserve, -, hall⟩ := converse_served hreached (List.forall_mem_nil _)
    (Map.is_withSeed .word 1 0 0).stores hrun hgranted hwho hdone
  exact ⟨tr, m, ctr, pool, hrun, hserve, hall⟩

/-- A client that writes commands, while others do: however they are cut on their way and whatever
else the threads do, what it has been sent and is still owed answers a front of its commands, each
as its program was answered; and all of them, once they have been received and run, or one closed
the connection. -/
theorem clients_served (hreached : Run (Map.Returns imp p) (Map.withSeed shards maxmemory seed) tr₀ map)
    (hkeeps : ∀ x ∈ tr₀, Map.Unstranded p x.1 x.2.1) (hc : map.Stores imp c)
    (h : Run (Machine.Step (map.sections imp p)) (.start (map.sections imp p) map.tables progs) tr m)
    (hgranted : ∀ x ∈ tr, ∀ made, x.2.1.made = some made → ¬ made.op.Refused made.answer)
    {cmds : List (List (List UInt8))} (hclient : Commands.Client cmds)
    (hwho : progs[who]? = some (Commands.sects map.shards.length (Commands.transcript envs 0 .resp2 cmds)))
    (hdone : m.threads[who]? = some (.running (.ret did))) :
    ∃ ctr pool, Run (Cache.Goes map) ⟨c, progs⟩ ctr pool ∧
      ctr.map (fun x => x.2.1) = tr.filterMap (fun x => x.2.1.made) ∧
      ∀ s, Peer.Reached (Commands.told envs map.shards.length) (0, (Pool.stepsOf who ctr).map fun x => x.2.1) s →
        s.received <+: cmds.flatMap encode → s.did <+: did ∧ s.taken ++ s.conn.owed = answered s.did ∧
          (s.conn.closing = true ∨ s.received = cmds.flatMap encode ∧ s.conn.unread = [] → s.did = did) := by
  obtain ⟨ctr, pool, hrun, hlabels, hprogs, -⟩ := sections_serve hreached hkeeps hc h hgranted
  have hdrives := crowd_drives hrun hprogs hwho hdone
  rw [← Commands.converse_encode hclient (Nat.lt_succ_self _)] at hdrives
  refine ⟨ctr, pool, hrun, hlabels, ?_⟩
  intro s hs hcome
  obtain ⟨rest, hrest⟩ := hcome
  obtain ⟨halong, hexact⟩ := hs.along
  have hpath : Desk.Path (Commands.told envs map.shards.length)
      (front (0, (Pool.stepsOf who ctr).map fun x => x.2.1) (s.received ++ rest)) (s.desk, s.conn.unread ++ rest) :=
    (hclient.along halong hrest).append rest
  rw [hrest] at hpath
  -- of the bytes still to come, whatever has arrived of them
  obtain ⟨hfront, hstop⟩ := path_upto (Nat.lt_succ_self _) hdrives hpath
  refine ⟨hfront, hexact.replies, ?_⟩
  intro hends
  apply hstop
  obtain hclosing | ⟨hwhole, hnone⟩ := hends
  · simp [Desk.next, show s.desk.closing = true from hclosing]
  · have hnil : rest = [] := by
      rw [hwhole] at hrest
      simpa using hrest
    rw [hnone, hnil, Desk.next]
    split
    · rfl
    · rfl

theorem clients_served_between : ∃ tr m ctr pool, Run (Machine.Step (fresh.sections .word .boxed))
      (.start (fresh.sections .word .boxed) fresh.tables serving) tr m ∧
    Run (Cache.Goes fresh) ⟨fun _ => none, serving⟩ ctr pool ∧
    ∀ s, Peer.Reached (Commands.told (fun _ => Commands.started) fresh.shards.length)
        (0, (Pool.stepsOf 0 ctr).map fun x => x.2.1) s → s.received <+: asked.flatMap encode →
      s.did <+: [missed, fetched] ∧ s.taken ++ s.conn.owed = answered s.did ∧
        (s.conn.closing = true ∨ s.received = asked.flatMap encode ∧ s.conn.unread = [] →
          s.did = [missed, fetched]) := by
  obtain ⟨tr, m, hrun, hdone, hgranted⟩ := serving_runs
  have hreached : Run (Map.Returns .word .boxed) (Map.withSeed 1 0 0) [] fresh := .nil
  obtain ⟨ctr, pool, hserve, -, hall⟩ := clients_served hreached (List.forall_mem_nil _)
    (Map.is_withSeed .word 1 0 0).stores hrun hgranted asked_client rfl hdone
  exact ⟨tr, m, ctr, pool, hrun, hserve, hall⟩

end crowd

end Rugo
