import Mathlib.Logic.Function.Basic
import Rugo.Poll

/- What each socket is watched for (`Worker::serve_poller` and `Worker::take` in
   `rugo-server/src/lib.rs`, `Conn::armed` and `Conn::arm`, and the pollers of
   `rugo-net/src/lib.rs`).

   The loop is that of `Poll`, beside the poller it tells: for each descriptor,
   the token and the interest it was last registered with. The events may be any
   at all, stale or made up. Of the system it is only asked that `accept` gives no
   descriptor that is open.

     1. `handle_worker`: what is done to the slots is what `Poll` does.
     2. `turn_armed`, `turn_settled`: a turn leaves what the connection believes,
        and unless it closes says whether a reply is owed.
     3. `armed_run`: so the belief is what the poller was told, it includes
        reading, and it includes writing exactly while a reply is owed. -/
namespace Rugo
open Exec Runs Slabs

variable {σ : Type}

/-- What a poller was last told of each descriptor: its token, and what it is watched for. -/
structure Poller where
  told : Nat → Option (Nat × Interest)

namespace Poller

def new : Poller := ⟨fun _ => none⟩

def add (p : Poller) (fd token : Nat) (interest : Interest) : Poller :=
  ⟨Function.update p.told fd (some (token, interest))⟩

def modify (p : Poller) (fd token : Nat) (interest : Interest) : Poller := p.add fd token interest

/-- Stop watching `fd`. A descriptor that is closed is not watched either. -/
def remove (p : Poller) (fd : Nat) : Poller := ⟨Function.update p.told fd none⟩

end Poller

/-- The connection whose descriptor an accept brings. -/
def Accepts.fd : Accepts → Option Nat
  | failed _ _ => none
  | interrupted next => next.fd
  | unprepared next => next.fd
  | took fd _ => some fd

/-- The slots of a thread, and the poller it tells. -/
structure Watch (σ : Type) where
  worker : Worker σ
  poller : Poller

namespace Watch

/-- The listeners registered, each under its index. -/
def new (listeners : List Nat) : Watch σ :=
  ⟨.new listeners.length, listeners.zipIdx.foldl (fun p l => p.add l.1 l.2 .READ) .new⟩

/-- Take one connection from a listener, if there is one, and register it for what it
believes it is registered for. -/
def take (s : Watch σ) (listeners : Nat) (env : σ) : Accepts → Exec (Bool × Watch σ)
  -- a listener with nobody behind it is no error; any other ends the thread
  | .failed kind _ => pure (kind == .wouldBlock, s)
  | .interrupted next => s.take listeners env next
  | .unprepared next => s.take listeners env next
  | .took fd added => do
    let held : Held σ := ⟨s.worker.accepted, fd, .new env⟩
    -- what the connection believes, and not a constant beside it
    let interest := held.peer.conn.armed
    let (at_, conns) ← s.worker.conns.put held
    let token := at_ + listeners
    if added then
      pure (true, ⟨⟨conns, token :: s.worker.watched, s.worker.accepted + 1⟩, s.poller.add fd token interest⟩)
    else do
      -- not registered, so not held either, and the thread ends
      let conns ← conns.clear at_
      pure (false, ⟨⟨conns, s.worker.watched, s.worker.accepted + 1⟩, s.poller⟩)

/-- The registration changed, if it is not the one the connection believes it has. -/
def rearm (s : Watch σ) (at_ : Nat) (held : Held σ) (token : Nat) (peer : Peer σ) (want : Interest)
    (modified : Bool) : Exec (Bool × Watch σ) :=
  if peer.conn.armed ≠ want then
    -- believed only once the poller has taken it
    if modified then do
      let conns ← s.worker.conns.set at_ { held with peer := peer.arm want }
      pure (true, ⟨{ s.worker with conns }, s.poller.modify held.fd token want⟩)
    else do
      let conns ← s.worker.conns.set at_ { held with peer }
      pure (false, ⟨{ s.worker with conns }, s.poller⟩)
  else do
    let conns ← s.worker.conns.set at_ { held with peer }
    pure (true, ⟨{ s.worker with conns }, s.poller⟩)

/-- What a turn came to, put into effect. -/
def settle (s : Watch σ) (at_ : Nat) (held : Held σ) (token : Nat) (modified : Bool) (peer : Peer σ) :
    Turn → Exec (Bool × Watch σ)
  | .read => s.rearm at_ held token peer ⟨true, false⟩ modified
  | .write => s.rearm at_ held token peer ⟨true, true⟩ modified
  | .close => do
    -- whatever `remove` answers: the descriptor is closed next
    let poller := s.poller.remove held.fd
    let conns ← s.worker.conns.clear at_
    pure (true, ⟨{ s.worker with conns, watched := s.worker.watched.erase token }, poller⟩)

def turned (run : Dispatch σ) (s : Watch σ) (at_ : Nat) (held : Held σ) (e : Ready) (g : Given σ) :
    Exec (Bool × Watch σ) := do
  let peer := { held.peer with env := g.env }
  -- a peer that is gone has no turn
  let (turn, peer) ← if e.gone then pure (Turn.close, peer) else peer.turn run e.read e.write g.io
  s.settle at_ held e.token g.modified peer turn

def handle (run : Dispatch σ) (listeners : Nat) (s : Watch σ) (e : Ready) (g : Given σ) :
    Exec (Bool × Watch σ) :=
  if e.token < listeners then s.take listeners g.env g.accepts
  else match s.worker.conns.get? (e.token - listeners) with
    | none => pure (true, s)
    | some held => s.turned run (e.token - listeners) held e g

end Watch

/-- The loop, with what is left of its batch. -/
structure Serving (σ : Type) where
  watch : Watch σ
  batch : List Ready
  /-- Whether the thread goes on. -/
  serving : Bool

def Serving.new (listeners : List Nat) : Serving σ := ⟨.new listeners, [], true⟩

/-- No socket of the thread has this descriptor. -/
def Watch.Closed (s : Watch σ) (listeners : List Nat) (fd : Nat) : Prop :=
  fd ∉ listeners ∧ ∀ at_ held, s.worker.conns.get? at_ = some held → held.fd ≠ fd

/-- A batch of any events is collected once the last one has been walked; or its next event
is handled, and an accept gives a descriptor that is not open. -/
inductive Serves (run : Dispatch σ) (listeners : List Nat) : Serving σ → Happened σ → Serving σ → Prop
  | waited {l ready} : l.serving = true → l.batch = [] →
      Serves run listeners l (.waited ready) { l with batch := ready }
  | handled {l e batch g on watch} : l.serving = true → l.batch = e :: batch →
      (∀ fd, e.token < listeners.length → g.accepts.fd = some fd → l.watch.Closed listeners fd) →
      l.watch.handle run listeners.length e g = .ok (on, watch) →
      Serves run listeners l (.handled e g) ⟨watch, batch, on⟩

/-! ## The slots are those of the loop -/

namespace Watch

def slots (r : Bool × Watch σ) : Bool × Worker σ := (r.1, r.2.worker)

theorem take_worker (s : Watch σ) (listeners : Nat) (env : σ) (accepts : Accepts) :
    slots <$> s.take listeners env accepts = s.worker.take listeners env accepts := by
  induction accepts with
  | failed kind handed => rfl
  | interrupted next ih => exact ih
  | unprepared next ih => exact ih
  | took fd added =>
    rw [take, Worker.take]
    cases s.worker.conns.put ⟨s.worker.accepted, fd, .new env⟩ with
    | error panic => rfl
    | ok put =>
      obtain ⟨at_, conns⟩ := put
      cases added with
      | true => rfl
      | false =>
        simp only [ok_bind, Bool.false_eq_true, if_false]
        cases conns.clear at_ with
        | error panic => rfl
        | ok conns => rfl

theorem rearm_worker (s : Watch σ) (at_ : Nat) (held : Held σ) (token : Nat) (peer : Peer σ) (want : Interest)
    (modified : Bool) : slots <$> s.rearm at_ held token peer want modified =
      s.worker.rearm at_ held peer want modified := by
  have hset : ∀ (held' : Held σ) (on : Bool) (p : Slab (Held σ) → Poller),
      slots <$> (s.worker.conns.set at_ held' >>= fun conns =>
        (pure (on, ⟨{ s.worker with conns }, p conns⟩) : Exec _)) =
        (s.worker.conns.set at_ held' >>= fun conns => pure (on, { s.worker with conns })) := by
    intro held' on p
    cases s.worker.conns.set at_ held' with
    | error panic => rfl
    | ok conns => rfl
  rw [rearm, Worker.rearm]
  split
  · split
    · exact hset _ true fun _ => s.poller.modify held.fd token want
    · exact hset _ false fun _ => s.poller
  · exact hset _ true fun _ => s.poller

theorem settle_worker (s : Watch σ) (at_ : Nat) (held : Held σ) (token : Nat) (modified : Bool) (peer : Peer σ)
    (turn : Turn) :
    slots <$> s.settle at_ held token modified peer turn = s.worker.settle at_ held token modified peer turn := by
  cases turn with
  | read => exact rearm_worker ..
  | write => exact rearm_worker ..
  | close =>
    rw [settle, Worker.settle]
    cases s.worker.conns.clear at_ with
    | error panic => rfl
    | ok conns => rfl

/-- Each event does to the slots what it does without the poller. -/
theorem handle_worker (run : Dispatch σ) (listeners : Nat) (s : Watch σ) (e : Ready) (g : Given σ) :
    slots <$> s.handle run listeners e g = s.worker.handle run listeners e g := by
  rw [handle, Worker.handle]
  split
  · exact take_worker ..
  · cases s.worker.conns.get? (e.token - listeners) with
    | none => rfl
    | some held =>
      simp only [turned, Worker.turned]
      split
      · exact settle_worker s (e.token - listeners) held e.token g.modified { held.peer with env := g.env } .close
      · cases Peer.turn run { held.peer with env := g.env } e.read e.write g.io with
        | error panic => rfl
        | ok turn => exact settle_worker ..

end Watch

/-! ## A turn leaves the belief -/

namespace Conn
variable {c c' : Conn} {there : Bool}

theorem compact_armed (h : c.compact = .ok c') : c'.armed = c.armed := by
  rw [compact] at h
  split at h
  · obtain ⟨live, -, h⟩ := bind_ok_iff.mp h
    obtain ⟨buf, -, h⟩ := bind_ok_iff.mp h
    obtain ⟨filled, -, h⟩ := bind_ok_iff.mp h
    cases h
    rfl
  · cases h
    rfl

theorem double_armed (c : Conn) : c.double.2.armed = c.armed := by
  rw [double]
  split <;> rfl

theorem makeRoom_armed (h : c.makeRoom = .ok (there, c')) : c'.armed = c.armed := by
  rw [makeRoom] at h
  obtain ⟨free, -, h⟩ := bind_ok_iff.mp h
  split at h
  · cases h
    rfl
  · obtain ⟨c₁, hcompact, h⟩ := bind_ok_iff.mp h
    obtain ⟨free', -, h⟩ := bind_ok_iff.mp h
    split at h
    · rw [pure_ok, Except.ok.injEq] at h
      have hdouble := double_armed c₁
      rw [h] at hdouble
      exact hdouble.trans (compact_armed hcompact)
    · cases h
      exact compact_armed hcompact

theorem tidy_armed (c : Conn) : c.tidy.armed = c.armed := by
  rw [tidy]
  split
  · rfl
  · split <;> rfl

theorem rewind_armed (c : Conn) : c.rewind.armed = c.armed := by
  rw [rewind]
  split <;> rfl

end Conn

namespace Peer
variable {run : Dispatch σ} {s s' : Peer σ} {there : Bool}

theorem read_armed {reads : Reads} (h : s.read reads = .ok (there, s')) : s'.conn.armed = s.conn.armed := by
  induction reads with
  | took first more =>
    rw [read] at h
    obtain ⟨room, -, h⟩ := bind_ok_iff.mp h
    simp only at h
    split at h
    · cases h
      rfl
    · obtain ⟨s₁, hlanded, h⟩ := bind_ok_iff.mp h
      rw [landed] at hlanded
      obtain ⟨buf, -, hlanded⟩ := bind_ok_iff.mp hlanded
      cases hlanded
      cases h
      rfl
  | interrupted next ih => exact ih h
  | eof | wouldBlock | failed =>
    cases h
    rfl

theorem fill_armed {reads : Reads} (h : s.fill reads = .ok (there, s')) : s'.conn.armed = s.conn.armed := by
  rw [fill] at h
  obtain ⟨⟨room, conn⟩, hroom, h⟩ := bind_ok_iff.mp h
  simp only at h
  split at h
  · cases h
    exact Conn.makeRoom_armed hroom
  · exact (read_armed h).trans (Conn.makeRoom_armed hroom)

theorem write_armed (s : Peer σ) (writes : Writes) : (s.write writes).2.conn.armed = s.conn.armed := by
  induction writes generalizing s with
  | took more next ih =>
    rw [write]
    split
    · exact ih _
    · rfl
  | interrupted next ih =>
    rw [write]
    split
    · exact ih _
    · rfl
  | wouldBlock => rfl
  | zero | failed =>
    rw [write]
    split <;> rfl

theorem flush_armed (s : Peer σ) (writes : Writes) : (s.flush writes).2.conn.armed = s.conn.armed := by
  rw [flush]
  simp only
  split
  · exact write_armed s writes
  · exact (Conn.tidy_armed _).trans (write_armed s writes)

theorem settle_armed {rest : List UInt8} {outcome : Resp.Outcome} {on : Bool}
    (h : s.settle run rest outcome = .ok (on, s')) : s'.conn.armed = s.conn.armed := by
  obtain ⟨parsed, command⟩ := outcome
  match parsed with
  | .ok (.done used) =>
    obtain ⟨seen, -, h⟩ := bind_ok_iff.mp h
    cases h
    show (dispatch ..).conn.armed = _
    rw [dispatch]
    split <;> rfl
  | .ok .more =>
    cases h
    rfl
  | .error bad =>
    cases h
    rfl

theorem executeLoop_armed {fuel : Nat} (h : executeLoop run fuel s = .ok s') : s'.conn.armed = s.conn.armed := by
  induction fuel generalizing s with
  | zero => cases h
  | succ fuel ih =>
    rw [executeLoop] at h
    split at h
    · cases h
      rfl
    · obtain ⟨rest, -, h⟩ := bind_ok_iff.mp h
      obtain ⟨outcome, -, h⟩ := bind_ok_iff.mp h
      obtain ⟨⟨on, s₁⟩, hsettle, h⟩ := bind_ok_iff.mp h
      simp only at h
      split at h
      · exact (ih h).trans (settle_armed hsettle)
      · cases h
        exact settle_armed hsettle

theorem execute_armed (h : s.execute run = .ok s') : s'.conn.armed = s.conn.armed := by
  rw [execute] at h
  obtain ⟨s₁, hloop, h⟩ := bind_ok_iff.mp h
  cases h
  exact (Conn.rewind_armed _).trans (executeLoop_armed hloop)

/-- What a turn answers with, and that the connection believes what it did. -/
def Settles (s : Peer σ) (answer : Turn × Peer σ) : Prop :=
  answer.2.conn.armed = s.conn.armed ∧ (answer.1 = .close ∨ answer.1 = verdict answer.2.conn)

theorem serve_settles {io : Io} {answer : Turn × Peer σ} (h : s.serve run io = .ok answer) : s.Settles answer := by
  rw [serve] at h
  obtain ⟨⟨there, s₁⟩, hfill, h⟩ := bind_ok_iff.mp h
  have hfilled := fill_armed hfill
  simp only at h
  split at h
  · cases h
    exact ⟨hfilled, .inl rfl⟩
  · obtain ⟨s₂, hexecute, h⟩ := bind_ok_iff.mp h
    have hflushed := ((flush_armed s₂ io.late).trans (execute_armed hexecute)).trans hfilled
    split at h
    · cases h
      exact ⟨hflushed, .inl rfl⟩
    · cases h
      exact ⟨hflushed, .inr rfl⟩

theorem turnOn_settles {readable : Bool} {io : Io} {answer : Turn × Peer σ}
    (h : s.turnOn run readable io = .ok answer) : s.Settles answer := by
  rw [turnOn] at h
  split at h
  · exact serve_settles h
  · cases h
    exact ⟨rfl, .inr rfl⟩

/-- A turn that does not close says whether a reply is owed. -/
theorem turn_settles {readable writable : Bool} {io : Io} {answer : Turn × Peer σ}
    (h : s.turn run readable writable io = .ok answer) : s.Settles answer := by
  rw [turn] at h
  split at h
  · have hflushed := flush_armed s io.early
    simp only at h
    split at h
    · cases h
      exact ⟨hflushed, .inl rfl⟩
    · obtain ⟨harmed, hanswer⟩ := turnOn_settles h
      exact ⟨harmed.trans hflushed, hanswer⟩
  · exact turnOn_settles h

theorem verdict_owes {c : Conn} : (verdict c = .write → c.owes = true) ∧ (verdict c = .read → c.owes = false) := by
  rw [verdict, Conn.owes]
  split
  · next hlt => exact ⟨fun _ => decide_eq_true hlt, fun h => by cases h⟩
  · next hge =>
    refine ⟨fun h => ?_, fun _ => decide_eq_false hge⟩
    split at h <;> cases h

end Peer

/-! ## The belief is what was told -/

namespace Watch
variable {run : Dispatch σ} {listeners : Nat} {s s' : Watch σ} {on : Bool}

/-- The poller was last told what the connection believes, and that includes reading. -/
def Fits (p : Poller) (listeners at_ : Nat) (held : Held σ) : Prop :=
  p.told held.fd = some (at_ + listeners, held.peer.conn.armed) ∧ held.peer.conn.armed.read = true

structure Inv (listeners : Nat) (s : Watch σ) : Prop where
  worker : s.worker.Inv listeners
  fits : ∀ at_ held, s.worker.conns.get? at_ = some held → Fits s.poller listeners at_ held

/-- Writing is watched for exactly where a reply is owed. -/
def Due (s : Watch σ) : Prop :=
  ∀ at_ held, s.worker.conns.get? at_ = some held → held.peer.conn.armed.write = held.peer.conn.owes

/-- No two connections share a descriptor: it was registered last under one token. -/
theorem Inv.apart (h : s.Inv listeners) {i j : Nat} {held held' : Held σ} (hi : s.worker.conns.get? i = some held)
    (hj : s.worker.conns.get? j = some held') (hfd : held.fd = held'.fd) : i = j := by
  have htold := (h.fits i held hi).1
  rw [hfd, (h.fits j held' hj).1, Option.some.injEq, Prod.mk.injEq] at htold
  omega

theorem Inv.changed (h : s.Inv listeners) (hworker : s'.worker.Inv listeners) {at_ fd : Nat} {new : Option (Held σ)}
    (hchanged : s.worker.conns.Changed s'.worker.conns at_ new)
    (hother : ∀ i held, i ≠ at_ → s.worker.conns.get? i = some held → held.fd ≠ fd)
    (htold : ∀ fd', fd' ≠ fd → s'.poller.told fd' = s.poller.told fd')
    (hnew : ∀ held, new = some held → Fits s'.poller listeners at_ held) : s'.Inv listeners where
  worker := hworker
  fits := by
    refine hchanged.each ?_ hnew
    intro i held hne hi
    rw [Fits, htold _ (hother i held hne hi)]
    exact h.fits i held hi

theorem worker_inv {token : Nat} {r : Exec (Bool × Watch σ)} {q : Exec (Bool × Worker σ)} {w : Worker σ}
    (hproj : slots <$> r = q) (hr : r = .ok (on, s'))
    (hq : ∃ on w', q = .ok (on, w') ∧ Worker.Handled listeners token w w') : s'.worker.Inv listeners := by
  obtain ⟨on', w', hw, hhandled⟩ := hq
  rw [hr, hw] at hproj
  cases hproj
  exact hhandled.inv

theorem take_inv {env : σ} {accepts : Accepts} (h : s.Inv listeners)
    (hfresh : ∀ fd, accepts.fd = some fd → ∀ at_ held, s.worker.conns.get? at_ = some held → held.fd ≠ fd)
    (hworker : s'.worker.Inv listeners) (hok : s.take listeners env accepts = .ok (on, s')) :
    s'.Inv listeners ∧ (s.Due → s'.Due) := by
  induction accepts with
  | failed kind handed =>
    cases hok
    exact ⟨h, id⟩
  | interrupted next ih => exact ih hfresh hok
  | unprepared next ih => exact ih hfresh hok
  | took fd added =>
    obtain ⟨at_, conns, hput, hsound, hfree, hchanged, -⟩ :=
      Slab.put_ok h.worker.sound (⟨s.worker.accepted, fd, .new env⟩ : Held σ)
    rw [take, hput, ok_bind] at hok
    cases added with
    | true =>
      cases hok
      constructor
      · refine h.changed hworker hchanged (fun i held _ hi => hfresh fd rfl i held hi) ?_ ?_
        · intro fd' hne
          exact Function.update_of_ne hne _ _
        · intro held hheld
          cases hheld
          exact ⟨Function.update_self _ _ _, rfl⟩
      · intro hdue
        refine hchanged.each (fun i held _ hi => hdue i held hi) ?_
        intro held hheld
        cases hheld
        rfl
    | false =>
      obtain ⟨conns', hclear, -, hchanged', -⟩ := Slab.clear_ok hsound hchanged.1
      simp only [Bool.false_eq_true, if_false] at hok
      rw [hclear] at hok
      cases hok
      -- put and cleared again, a slot holds what it held
      have hsame : ∀ i held, conns'.get? i = some held → s.worker.conns.get? i = some held := by
        refine hchanged'.each ?_ (fun _ hnone => by cases hnone)
        intro i held hne hi
        rw [← hchanged.2 i hne]
        exact hi
      exact ⟨⟨hworker, fun i held hi => h.fits i held (hsame i held hi)⟩,
        fun hdue i held hi => hdue i held (hsame i held hi)⟩

section settle
variable {token : Nat} {held : Held σ} {peer : Peer σ} {modified : Bool}

theorem rearm_inv (h : s.Inv listeners) (hle : listeners ≤ token)
    (hget : s.worker.conns.get? (token - listeners) = some held)
    (hworker : s'.worker.Inv listeners) (harmed : peer.conn.armed = held.peer.conn.armed)
    (hok : s.rearm (token - listeners) held token peer ⟨true, peer.conn.owes⟩ modified = .ok (on, s')) :
    s'.Inv listeners ∧ (s.Due → on = true → s'.Due) := by
  have hother : ∀ i held', i ≠ token - listeners → s.worker.conns.get? i = some held' → held'.fd ≠ held.fd :=
    fun i held' hne hi hfd => hne (h.apart hi hget hfd)
  have hfits := h.fits _ held hget
  rw [Fits, ← harmed] at hfits
  have hset := fun peer' : Peer σ => Slab.set_ok h.worker.sound hget { held with peer := peer' }
  rw [rearm] at hok
  split at hok
  · split at hok
    · obtain ⟨conns, hconns, -, hchanged, -⟩ := hset (peer.arm ⟨true, peer.conn.owes⟩)
      rw [hconns] at hok
      cases hok
      constructor
      -- the poller has taken the interest, and the connection believes it
      · refine h.changed hworker hchanged hother (fun fd' hne => Function.update_of_ne hne _ _) ?_
        intro held' hheld
        cases hheld
        refine ⟨?_, rfl⟩
        rw [Nat.sub_add_cancel hle]
        exact Function.update_self _ _ _
      · intro hdue _
        refine hchanged.each (fun i held' _ hi => hdue i held' hi) ?_
        intro held' hheld
        cases hheld
        rfl
    · obtain ⟨conns, hconns, -, hchanged, -⟩ := hset peer
      rw [hconns] at hok
      cases hok
      refine ⟨h.changed hworker hchanged hother (fun _ _ => rfl) ?_, fun _ hon => by cases hon⟩
      intro held' hheld
      cases hheld
      exact hfits
  · next hsame =>
    obtain ⟨conns, hconns, -, hchanged, -⟩ := hset peer
    rw [hconns] at hok
    cases hok
    constructor
    · refine h.changed hworker hchanged hother (fun _ _ => rfl) ?_
      intro held' hheld
      cases hheld
      exact hfits
    · intro hdue _
      refine hchanged.each (fun i held' _ hi => hdue i held' hi) ?_
      intro held' hheld
      cases hheld
      exact congrArg Interest.write (not_not.mp hsame)

theorem settle_inv (h : s.Inv listeners) (hle : listeners ≤ token)
    (hget : s.worker.conns.get? (token - listeners) = some held)
    (hworker : s'.worker.Inv listeners) (harmed : peer.conn.armed = held.peer.conn.armed) {turn : Turn}
    (hturn : turn = .close ∨ turn = Peer.verdict peer.conn)
    (hok : s.settle (token - listeners) held token modified peer turn = .ok (on, s')) :
    s'.Inv listeners ∧ (s.Due → on = true → s'.Due) := by
  have howes := Peer.verdict_owes (c := peer.conn)
  cases turn with
  | read =>
    have howed : peer.conn.owes = false := howes.2 (hturn.resolve_left (by decide)).symm
    rw [settle, ← howed] at hok
    exact rearm_inv h hle hget hworker harmed hok
  | write =>
    have howed : peer.conn.owes = true := howes.1 (hturn.resolve_left (by decide)).symm
    rw [settle] at hok
    nth_rewrite 2 [← howed] at hok
    exact rearm_inv h hle hget hworker harmed hok
  | close =>
    obtain ⟨conns, hclear, -, hchanged, -⟩ := Slab.clear_ok h.worker.sound hget
    rw [settle, hclear] at hok
    cases hok
    have hother : ∀ i held', i ≠ token - listeners → s.worker.conns.get? i = some held' → held'.fd ≠ held.fd :=
      fun i held' hne hi hfd => hne (h.apart hi hget hfd)
    refine ⟨h.changed hworker hchanged hother (fun fd' hne => Function.update_of_ne hne _ _) ?_, fun hdue _ => ?_⟩
    · intro held' hnone
      cases hnone
    · refine hchanged.each (fun i held' _ hi => hdue i held' hi) ?_
      intro held' hnone
      cases hnone

end settle

/-- One event leaves every belief what the poller was told, and unless the thread stops,
what is needed. -/
theorem handle_inv {e : Ready} {g : Given σ} (h : s.Inv listeners)
    (hfresh : ∀ fd, e.token < listeners → g.accepts.fd = some fd →
      ∀ at_ held, s.worker.conns.get? at_ = some held → held.fd ≠ fd)
    (hok : s.handle run listeners e g = .ok (on, s')) : s'.Inv listeners ∧ (s.Due → on = true → s'.Due) := by
  have hworker := worker_inv (handle_worker run listeners s e g) hok (Worker.handle_ok run h.worker e g)
  rw [handle] at hok
  split at hok
  · next hlt =>
    obtain ⟨hinv, hdue⟩ := take_inv h (fun fd => hfresh fd hlt) hworker hok
    exact ⟨hinv, fun hs _ => hdue hs⟩
  · next hge =>
    have hle : listeners ≤ e.token := Nat.not_lt.mp hge
    cases hget : s.worker.conns.get? (e.token - listeners) with
    | none =>
      rw [hget] at hok
      cases hok
      exact ⟨h, fun hs _ => hs⟩
    | some held =>
      rw [hget] at hok
      simp only [turned] at hok
      -- the map is another, and what the connection believes the same
      generalize hshared : ({ held.peer with env := g.env } : Peer σ) = shared at hok
      have hsame : shared.conn.armed = held.peer.conn.armed := by rw [← hshared]
      split at hok
      · have hclose : s.settle (e.token - listeners) held e.token g.modified shared .close = .ok (on, s') := hok
        exact settle_inv h hle hget hworker hsame (.inl rfl) hclose
      · obtain ⟨⟨turn, peer⟩, hturn, hok⟩ := bind_ok_iff.mp hok
        obtain ⟨harmed, hanswer⟩ := Peer.turn_settles hturn
        exact settle_inv h hle hget hworker (harmed.trans hsame) hanswer hok

theorem handle_ok (run : Dispatch σ) (h : s.Inv listeners) (e : Ready) (g : Given σ) :
    ∃ on s', s.handle run listeners e g = .ok (on, s') := by
  obtain ⟨on, w', hw, -⟩ := Worker.handle_ok run h.worker e g
  have hproj := handle_worker run listeners s e g
  rw [hw] at hproj
  cases hr : s.handle run listeners e g with
  | error panic =>
    rw [hr] at hproj
    cases hproj
  | ok r => exact ⟨r.1, r.2, rfl⟩

end Watch

/-! ## Runs -/

structure Serving.Inv (listeners : Nat) (l : Serving σ) : Prop where
  watch : l.watch.Inv listeners
  due : l.serving = true → l.watch.Due

theorem Serving.inv_new (listeners : List Nat) : (Serving.new listeners : Serving σ).Inv listeners.length where
  watch := ⟨Worker.inv_new _, fun at_ held hget => by cases hget⟩
  due := fun _ at_ held hget => by cases hget

theorem Serves.inv (run : Dispatch σ) {listeners : List Nat} {l : Serving σ} {x : Happened σ} {l' : Serving σ}
    (h : l.Inv listeners.length) (hs : Serves run listeners l x l') : l'.Inv listeners.length := by
  cases hs with
  | waited => exact ⟨h.watch, h.due⟩
  | handled hserving _ hclosed hhandle =>
    obtain ⟨hinv, hdue⟩ := Watch.handle_inv h.watch (fun fd hlt hfd => (hclosed fd hlt hfd).2) hhandle
    exact ⟨hinv, hdue (h.due hserving)⟩

/-- In every state reached, whatever the events: each connection was last registered for
what it believes, which includes reading, and while the thread goes on includes writing
exactly where reply bytes are owed; and the next event is handled, whatever it meets. -/
theorem armed_run (run : Dispatch σ) (listeners : List Nat) {tr : List (Serving σ × Happened σ × Serving σ)}
    {l : Serving σ} (h : Run (Serves run listeners) (Serving.new listeners) tr l) :
    (∀ at_ held, l.watch.worker.conns.get? at_ = some held →
      l.watch.poller.told held.fd = some (at_ + listeners.length, held.peer.conn.armed) ∧
      held.peer.conn.armed.read = true ∧
      (l.serving = true → held.peer.conn.armed.write = held.peer.conn.owes)) ∧
    ∀ e g, ∃ on watch, l.watch.handle run listeners.length e g = .ok (on, watch) := by
  have hinv := (h.steps (Serving.inv_new listeners) fun _ _ _ hl hs => Serves.inv run hl hs).1
  constructor
  · intro at_ held hget
    obtain ⟨htold, hread⟩ := hinv.watch.fits at_ held hget
    exact ⟨htold, hread, fun hserving => hinv.due hserving at_ held hget⟩
  · exact Watch.handle_ok run hinv.watch

/-- What the poller was told of the first connection, and whether that owes replies. -/
def Watch.owing (w : Watch Unit) : Option Bool := (w.worker.conns.get? 0).map fun held => held.peer.conn.owes

/-- A connection is accepted, two commands arrive of which the answers go out in part, and later the rest. -/
theorem serves_pipeline : ∃ tr l tr' l', Run (Serves echo [3]) (Serving.new [3]) tr l ∧
    Run (Serves echo [3]) (Serving.new [3]) (tr ++ tr') l' ∧ tr.length = 4 ∧ tr'.length = 2 ∧
    (l.serving = true ∧ l.watch.owing = some true) ∧ l'.serving = true ∧ l'.watch.owing = some false := by
  let accepted : Given Unit := ⟨.took 8 true, (), ⟨.wouldBlock, .wouldBlock, .wouldBlock⟩, true⟩
  let arrived : Given Unit :=
    ⟨.failed .wouldBlock (by decide), (), ⟨.wouldBlock, .took 0x50 (pipeline.drop 1), .took 2 .wouldBlock⟩, true⟩
  let drained : Given Unit := ⟨.failed .wouldBlock (by decide), (),
    ⟨.took 100 .wouldBlock, .wouldBlock, .wouldBlock⟩, true⟩
  have hplayed : ((Watch.new [3]).handle echo 1 ⟨0, true, false, false⟩ accepted >>= fun x =>
      x.2.handle echo 1 ⟨1, true, false, false⟩ arrived >>= fun y =>
      y.2.handle echo 1 ⟨1, false, true, false⟩ drained >>= fun z =>
      pure (x.1, y.1, y.2.owing, z.1, z.2.owing)) = .ok (true, true, some true, true, some false) := by
    decide +kernel
  obtain ⟨⟨on₁, w₁⟩, h₁, hplayed⟩ := bind_ok_iff.mp hplayed
  obtain ⟨⟨on₂, w₂⟩, h₂, hplayed⟩ := bind_ok_iff.mp hplayed
  obtain ⟨⟨on₃, w₃⟩, h₃, hplayed⟩ := bind_ok_iff.mp hplayed
  simp only [pure_ok, Except.ok.injEq, Prod.mk.injEq] at hplayed
  obtain ⟨rfl, rfl, hpart, rfl, hall⟩ := hplayed
  -- an event of a listener brings a descriptor that is not open, and no other event brings one
  have hhandled : ∀ {w w' : Watch Unit} {e : Ready} {g : Given Unit},
      (∀ fd, e.token < 1 → g.accepts.fd = some fd → w.Closed [3] fd) → w.handle echo 1 e g = .ok (true, w') →
      Serves echo [3] ⟨w, [e], true⟩ (.handled e g) ⟨w', [], true⟩ :=
    fun hclosed hhandle => .handled rfl rfl hclosed hhandle
  have hwaited : ∀ (w : Watch Unit) (e : Ready), Serves echo [3] ⟨w, [], true⟩ (.waited [e]) ⟨w, [e], true⟩ :=
    fun w e => .waited rfl rfl
  have hclosed : ∀ fd, 0 < 1 → accepted.accepts.fd = some fd → (Watch.new [3] : Watch Unit).Closed [3] fd := by
    intro fd _ hfd
    cases hfd
    exact ⟨by decide, fun at_ held hget => by cases hget⟩
  have hrun := (((Run.single (hwaited _ _)).snoc (hhandled hclosed h₁)).snoc (hwaited _ ⟨1, true, false, false⟩)).snoc
    (hhandled (fun _ hlt => absurd hlt (by decide)) h₂)
  have hrun' := (Run.single (hwaited _ ⟨1, false, true, false⟩)).snoc
    (hhandled (fun _ hlt => absurd hlt (by decide)) h₃)
  exact ⟨_, _, _, _, hrun, hrun.trans hrun', rfl, rfl, ⟨rfl, hpart⟩, rfl, hall⟩

theorem Watch.owing_some {w : Watch Unit} {b : Bool} (h : w.owing = some b) :
    ∃ held, w.worker.conns.get? 0 = some held ∧ held.peer.conn.owes = b := Option.map_eq_some_iff.mp h

/-- It is registered for writing as long as it owes, and then no more. -/
theorem armed_pipeline : ∃ tr l tr' l', Run (Serves echo [3]) (Serving.new [3]) tr l ∧
    Run (Serves echo [3]) (Serving.new [3]) (tr ++ tr') l' ∧ tr.length = 4 ∧ tr'.length = 2 ∧
    (∃ held, l.watch.worker.conns.get? 0 = some held ∧ held.peer.conn.owes = true ∧
      l.watch.poller.told held.fd = some (0 + 1, ⟨true, true⟩)) ∧
    ∃ held, l'.watch.worker.conns.get? 0 = some held ∧ held.peer.conn.owes = false ∧
      l'.watch.poller.told held.fd = some (0 + 1, ⟨true, false⟩) := by
  obtain ⟨tr, l, tr', l', hrun, hrun', hlen, hlen', ⟨hserving, howing⟩, hserving', howing'⟩ := serves_pipeline
  obtain ⟨held, hget, howes⟩ := Watch.owing_some howing
  obtain ⟨held', hget', howes'⟩ := Watch.owing_some howing'
  obtain ⟨htold, hread, hwrite⟩ := (armed_run echo [3] hrun).1 0 held hget
  obtain ⟨htold', hread', hwrite'⟩ := (armed_run echo [3] hrun').1 0 held' hget'
  have hmk : ∀ {i : Interest} {b : Bool}, i.read = true → i.write = b → i = ⟨true, b⟩ := by
    rintro ⟨_, _⟩ b rfl rfl
    rfl
  have harmed := hmk hread ((hwrite hserving).trans howes)
  have harmed' := hmk hread' ((hwrite' hserving').trans howes')
  exact ⟨tr, l, tr', l', hrun, hrun', hlen, hlen', ⟨held, hget, howes, harmed ▸ htold⟩, held', hget', howes',
    harmed' ▸ htold'⟩

end Rugo
