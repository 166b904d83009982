import Mathlib.Data.List.DropRight
import Rugo.Lib.Slab
import Rugo.ConnRuns

/- The readiness loop of one thread (`Worker::serve_poller` and `Worker::take` in
   `rugo-server/src/lib.rs`), over the connections of `ConnRuns`.

   What `accept`, the sockets and the poller answer comes with each event, and so
   does the map, which the other threads may have changed since the last one. A
   connection carries the number it was accepted under, and the loop remembers
   what the slots held when the batch was collected; neither is read by the code.
   `prepare` and the counters are left out.

     1. `event_owner_iff`: an event reaches the connection it was reported for
        exactly when its batch has not closed that one and filled the slot again.
     2. `owner_once_each`: it never is where each token is reported once. -/
namespace Rugo
open Exec Runs Slabs

variable {σ : Type}

/-- What an accept may fail with. -/
inductive ErrorKind where
  | wouldBlock
  | connectionAborted
  | interrupted
  | other
  deriving DecidableEq, Repr

/-- The answers to one `take`. A failure handed on is never an interruption: an `accept` that was
interrupted is made again below the loop. -/
inductive Accepts where
  | failed (kind : ErrorKind) (handed : kind ≠ .interrupted)
  /-- An interrupted call, and the answers to the one made in its place. -/
  | interrupted (next : Accepts)
  /-- A socket that cannot be prepared, and the answers to the next accept. -/
  | unprepared (next : Accepts)
  /-- A connection's descriptor, and whether the poller takes it. -/
  | took (fd : Nat) (added : Bool)

/-- What a `take` fails with, if it does. -/
def Accepts.fails : Accepts → Option ErrorKind
  | failed kind _ => some kind
  | interrupted next => next.fails
  | unprepared next => next.fails
  | took _ _ => none

/-- One socket that is ready, and what it is ready for. -/
structure Ready where
  token : Nat
  read : Bool
  write : Bool
  gone : Bool
  deriving DecidableEq, Repr

/-- What the world answers while an event is handled. -/
structure Given (σ : Type) where
  accepts : Accepts
  /-- The map, as the other threads have left it. -/
  env : σ
  io : Io
  /-- Whether the poller takes a changed registration. -/
  modified : Bool

/-- A connection in its slot, its descriptor, and how many were accepted before it. -/
structure Held (σ : Type) where
  who : Nat
  fd : Nat
  peer : Peer σ

structure Worker (σ : Type) where
  conns : Slab (Held σ)
  /-- The tokens registered with the poller. -/
  watched : List Nat
  /-- How many connections have been accepted. -/
  accepted : Nat

def Peer.arm (s : Peer σ) (want : Interest) : Peer σ := { s with conn := { s.conn with armed := want } }

namespace Worker

def new (listeners : Nat) : Worker σ := ⟨.empty, List.range listeners, 0⟩

/-- Take one connection from a listener, if there is one. The first of the pair
is whether the thread goes on. -/
def take (w : Worker σ) (listeners : Nat) (env : σ) : Accepts → Exec (Bool × Worker σ)
  | .failed kind _ => pure (kind == .wouldBlock, w)
  | .interrupted next => w.take listeners env next
  | .unprepared next => w.take listeners env next
  | .took fd added => do
    let (at_, conns) ← w.conns.put ⟨w.accepted, fd, .new env⟩
    if added then
      pure (true, ⟨conns, (at_ + listeners) :: w.watched, w.accepted + 1⟩)
    else do
      let conns ← conns.clear at_
      pure (false, ⟨conns, w.watched, w.accepted + 1⟩)

/-- The registration changed, if it is not the one there is. -/
def rearm (w : Worker σ) (at_ : Nat) (held : Held σ) (peer : Peer σ) (want : Interest)
    (modified : Bool) : Exec (Bool × Worker σ) :=
  if peer.conn.armed ≠ want then
    if modified then do
      let conns ← w.conns.set at_ { held with peer := peer.arm want }
      pure (true, { w with conns })
    else do
      let conns ← w.conns.set at_ { held with peer }
      pure (false, { w with conns })
  else do
    let conns ← w.conns.set at_ { held with peer }
    pure (true, { w with conns })

/-- What a turn came to, put into effect. -/
def settle (w : Worker σ) (at_ : Nat) (held : Held σ) (token : Nat) (modified : Bool) (peer : Peer σ) :
    Turn → Exec (Bool × Worker σ)
  | .read => w.rearm at_ held peer ⟨true, false⟩ modified
  | .write => w.rearm at_ held peer ⟨true, true⟩ modified
  | .close => do
    let conns ← w.conns.clear at_
    pure (true, { w with conns, watched := w.watched.erase token })

def turned (run : Dispatch σ) (w : Worker σ) (at_ : Nat) (held : Held σ) (e : Ready) (g : Given σ) :
    Exec (Bool × Worker σ) := do
  let peer := { held.peer with env := g.env }
  let (turn, peer) ← if e.gone then pure (Turn.close, peer) else peer.turn run e.read e.write g.io
  w.settle at_ held e.token g.modified peer turn

/-- The connection an event is applied to. -/
def target (w : Worker σ) (listeners : Nat) (e : Ready) : Option (Held σ) :=
  if e.token < listeners then none else w.conns.get? (e.token - listeners)

def handle (run : Dispatch σ) (listeners : Nat) (w : Worker σ) (e : Ready) (g : Given σ) :
    Exec (Bool × Worker σ) :=
  if e.token < listeners then w.take listeners g.env g.accepts
  else match w.conns.get? (e.token - listeners) with
    | none => pure (true, w)
    | some held => w.turned run (e.token - listeners) held e g

end Worker

/-- The loop, with what is left of its batch. -/
structure Loop (σ : Type) where
  worker : Worker σ
  batch : List Ready
  serving : Bool
  /-- The slots when the batch was collected. -/
  seen : Slab (Held σ)
  /-- How many connections had been accepted when the batch was collected. -/
  base : Nat

def Loop.new (listeners : Nat) : Loop σ := ⟨.new listeners, [], true, .empty, 0⟩

inductive Happened (σ : Type) where
  | waited (ready : List Ready)
  | handled (e : Ready) (g : Given σ)

/-- A batch is collected, of registered tokens in any order and number, once the
last one has been walked; or its next event is handled. -/
inductive Polls (run : Dispatch σ) (listeners : Nat) : Loop σ → Happened σ → Loop σ → Prop
  | waited {l ready} : l.serving = true → l.batch = [] → (∀ e ∈ ready, e.token ∈ l.worker.watched) →
      Polls run listeners l (.waited ready)
        ⟨l.worker, ready, true, l.worker.conns, l.worker.accepted⟩
  | handled {l e batch g on worker} : l.serving = true → l.batch = e :: batch →
      l.worker.handle run listeners e g = .ok (on, worker) →
      Polls run listeners l (.handled e g) { l with worker, batch, serving := on }

/-! ## The invariant -/

namespace Worker

structure Inv (listeners : Nat) (w : Worker σ) : Prop where
  sound : w.conns.Sound
  exact : ∀ at_ held, w.conns.get? at_ = some held → held.peer.Exact
  who : ∀ at_ held, w.conns.get? at_ = some held → held.who < w.accepted
  nodup : w.watched.Nodup
  watched : ∀ token, token ∈ w.watched ↔
    token < listeners ∨ listeners ≤ token ∧ (w.conns.get? (token - listeners)).isSome

theorem inv_new (listeners : Nat) : (new listeners : Worker σ).Inv listeners where
  sound := Slab.sound_empty
  exact := by simp [new, Slab.empty, Slab.get?]
  who := by simp [new, Slab.empty, Slab.get?]
  nodup := List.nodup_range
  watched := by simp [new, Slab.empty, Slab.get?]

structure Handled (listeners token : Nat) (w w' : Worker σ) : Prop where
  inv : w'.Inv listeners
  accepted : w.accepted ≤ w'.accepted
  /-- Another connection than the one the event is of stays as it is. -/
  kept : ∀ at_ held, at_ + listeners ≠ token → w.conns.get? at_ = some held →
    w'.conns.get? at_ = some held
  /-- What a slot holds it held before, or a listener's event has put it there. -/
  conns : ∀ at_ held', w'.conns.get? at_ = some held' →
    (∃ held, w.conns.get? at_ = some held ∧ held.who = held'.who) ∨
      token < listeners ∧ w.conns.get? at_ = none ∧ w.accepted ≤ held'.who

theorem Handled.refl {listeners token : Nat} {w : Worker σ} (h : w.Inv listeners) :
    Handled listeners token w w :=
  ⟨h, Nat.le_refl _, fun _ _ _ hget => hget, fun _ held' hget => .inl ⟨held', hget, rfl⟩⟩

theorem Handled.set {listeners token : Nat} {w : Worker σ} (h : w.Inv listeners) {at_ : Nat}
    {held held' : Held σ} {conns : Slab (Held σ)} (htoken : at_ + listeners = token)
    (hget : w.conns.get? at_ = some held)
    (hwho : held'.who = held.who) (hex : held'.peer.Exact) (hsound : conns.Sound)
    (hchanged : w.conns.Changed conns at_ (some held')) : Handled listeners token w { w with conns } := by
  obtain ⟨hat, hother⟩ := hchanged
  -- a connection that is there was there, and is whose it was
  have hback : ∀ i held'', conns.get? i = some held'' → ∃ held0, w.conns.get? i = some held0 ∧
      held0.who = held''.who ∧ held''.peer.Exact := by
    intro i held'' hi
    by_cases heq : i = at_
    · rw [heq, hat] at hi
      cases hi
      exact ⟨held, by rw [heq]; exact hget, hwho.symm, hex⟩
    · rw [hother i heq] at hi
      exact ⟨held'', hi, rfl, h.exact i held'' hi⟩
  have hsome : ∀ i, (conns.get? i).isSome = (w.conns.get? i).isSome := by
    intro i
    by_cases heq : i = at_
    · rw [heq, hat, hget]
      rfl
    · rw [hother i heq]
  refine ⟨⟨hsound, ?_, ?_, h.nodup, ?_⟩, Nat.le_refl _, ?_, ?_⟩
  · intro i held'' hi
    obtain ⟨-, -, -, hex⟩ := hback i held'' hi
    exact hex
  · intro i held'' hi
    obtain ⟨held0, h0, hw, -⟩ := hback i held'' hi
    rw [← hw]
    exact h.who i held0 h0
  · intro token
    simp only [hsome]
    exact h.watched token
  · intro i held'' hne hi
    rw [← hi]
    apply hother
    omega
  · intro i held'' hi
    obtain ⟨held0, h0, hw, -⟩ := hback i held'' hi
    exact .inl ⟨held0, h0, hw⟩

theorem Handled.clear {listeners : Nat} {w : Worker σ} (h : w.Inv listeners) {token : Nat}
    {conns : Slab (Held σ)} (hle : listeners ≤ token) (hsound : conns.Sound)
    (hchanged : w.conns.Changed conns (token - listeners) none) :
    Handled listeners token w { w with conns, watched := w.watched.erase token } := by
  obtain ⟨hat, hother⟩ := hchanged
  -- what is left was there
  have hback : ∀ i held, conns.get? i = some held → w.conns.get? i = some held := by
    intro i held hi
    by_cases heq : i = token - listeners
    · rw [heq, hat] at hi
      cases hi
    · rw [← hother i heq]
      exact hi
  refine ⟨⟨hsound, fun i held hi => h.exact i held (hback i held hi),
    fun i held hi => h.who i held (hback i held hi), h.nodup.erase _, ?_⟩, Nat.le_refl _, ?_,
    fun i held hi => .inl ⟨held, hback i held hi, rfl⟩⟩
  · intro t
    rw [h.nodup.mem_erase_iff, h.watched t]
    by_cases heq : t = token
    · have hnot : ¬ token < listeners := Nat.not_lt.mpr hle
      simp [heq, hat, hnot]
    · constructor
      · rintro ⟨-, hlt | ⟨hge, hsome⟩⟩
        · exact .inl hlt
        · refine .inr ⟨hge, ?_⟩
          rw [hother _ (by omega)]
          exact hsome
      · rintro (hlt | ⟨hge, hsome⟩)
        · exact ⟨heq, .inl hlt⟩
        · refine ⟨heq, .inr ⟨hge, ?_⟩⟩
          rw [hother _ (by omega)] at hsome
          exact hsome
  · intro i held hne hi
    rw [← hi]
    apply hother
    omega

theorem take_ok {listeners : Nat} {w : Worker σ} (h : w.Inv listeners) (env : σ) (accepts : Accepts) :
    ∃ on w', w.take listeners env accepts = .ok (on, w') ∧
      ∀ token < listeners, Handled listeners token w w' := by
  induction accepts with
  | failed kind handed => exact ⟨_, w, rfl, fun _ _ => .refl h⟩
  | interrupted next ih => exact ih
  | unprepared next ih => exact ih
  | took fd added =>
    obtain ⟨at_, conns, hput, hsound, hfree, hchanged, -⟩ :=
      Slab.put_ok h.sound (⟨w.accepted, fd, .new env⟩ : Held σ)
    rw [take, hput, ok_bind]
    obtain ⟨hat, hother⟩ := hchanged
    cases added with
    | true =>
      have hback : ∀ i held, conns.get? i = some held → w.conns.get? i = some held ∨
          w.conns.get? i = none ∧ held = ⟨w.accepted, fd, .new env⟩ := by
        intro i held hi
        by_cases heq : i = at_
        · rw [heq, hat] at hi
          cases hi
          rw [heq]
          exact .inr ⟨hfree, rfl⟩
        · rw [hother i heq] at hi
          exact .inl hi
      refine ⟨true, _, rfl, fun token htoken => ⟨⟨hsound, ?_, ?_, ?_, ?_⟩, Nat.le_succ _, ?_, ?_⟩⟩
      · intro i held hi
        obtain hold | ⟨-, rfl⟩ := hback i held hi
        · exact h.exact i held hold
        · exact Peer.exact_new env
      · intro i held hi
        obtain hold | ⟨-, rfl⟩ := hback i held hi
        · exact Nat.lt_succ_of_lt (h.who i held hold)
        · exact Nat.lt_succ_self _
      · rw [List.nodup_cons]
        refine ⟨?_, h.nodup⟩
        rw [h.watched]
        rintro (hlt | ⟨-, hsome⟩)
        · omega
        · rw [Nat.add_sub_cancel, hfree] at hsome
          cases hsome
      · intro token
        rw [List.mem_cons, h.watched]
        by_cases heq : token = at_ + listeners
        · simp [heq, hat]
        · simp only [heq, false_or]
          by_cases hge : listeners ≤ token
          · rw [hother _ (by omega)]
          · simp [hge]
      · intro i held _ hi
        rw [← hi]
        apply hother
        intro heq
        rw [heq, hfree] at hi
        cases hi
      · intro i held hi
        obtain hold | ⟨hnone, rfl⟩ := hback i held hi
        · exact .inl ⟨held, hold, rfl⟩
        · exact .inr ⟨htoken, hnone, Nat.le_refl _⟩
    | false =>
      obtain ⟨conns', hclear, hsound', hchanged', -, -⟩ := Slab.clear_ok hsound hat
      simp only [Bool.false_eq_true, if_false]
      rw [hclear, ok_bind]
      -- put and cleared again, the slots hold what they held
      have hsame : ∀ i, conns'.get? i = w.conns.get? i := by
        intro i
        by_cases heq : i = at_
        · rw [heq, hchanged'.1, hfree]
        · rw [hchanged'.2 i heq, hother i heq]
      refine ⟨false, _, rfl, fun token _ => ⟨⟨hsound', ?_, ?_, h.nodup, ?_⟩, Nat.le_succ _, ?_, ?_⟩⟩
      · intro i held hi
        rw [hsame] at hi
        exact h.exact i held hi
      · intro i held hi
        rw [hsame] at hi
        exact Nat.lt_succ_of_lt (h.who i held hi)
      · intro token
        simp only [hsame]
        exact h.watched token
      · intro i held _ hi
        simp only [hsame]
        exact hi
      · intro i held hi
        rw [hsame] at hi
        exact .inl ⟨held, hi, rfl⟩

theorem take_failed (w : Worker σ) (listeners : Nat) (env : σ) {accepts : Accepts} {kind : ErrorKind}
    (hfails : accepts.fails = some kind) :
    w.take listeners env accepts = .ok (kind == .wouldBlock, w) := by
  induction accepts with
  | failed kind' handed =>
    rw [Accepts.fails, Option.some.injEq] at hfails
    rw [take, hfails]
    rfl
  | interrupted next ih => exact ih hfails
  | unprepared next ih => exact ih hfails
  | took fd added => cases hfails

theorem settle_ok {listeners : Nat} {w : Worker σ} (h : w.Inv listeners) {token : Nat} {held : Held σ}
    (hle : listeners ≤ token) (hget : w.conns.get? (token - listeners) = some held) (modified : Bool)
    {peer : Peer σ} (hex : peer.Exact) (turn : Turn) :
    ∃ on w', w.settle (token - listeners) held token modified peer turn = .ok (on, w') ∧
      Handled listeners token w w' := by
  have hset : ∀ peer' : Peer σ, peer'.Exact → ∃ conns, w.conns.set (token - listeners)
      { held with peer := peer' } = .ok conns ∧ Handled listeners token w { w with conns } := by
    intro peer' hex'
    obtain ⟨conns, hs, hsound, hchanged, -, -⟩ := Slab.set_ok h.sound hget { held with peer := peer' }
    have hwho : ({ held with peer := peer' } : Held σ).who = held.who := rfl
    exact ⟨conns, hs, .set h (Nat.sub_add_cancel hle) hget hwho hex' hsound hchanged⟩
  have hrearm : ∀ want, ∃ on w', w.rearm (token - listeners) held peer want modified = .ok (on, w') ∧
      Handled listeners token w w' := by
    intro want
    have harmed : (peer.arm want).Exact :=
      ⟨⟨hex.sane.at_le, hex.sane.filled_le, hex.sane.size, hex.sane.sent_le⟩, hex.bytes, hex.replies,
        hex.framed, hex.ends⟩
    rw [rearm]
    split
    · split
      · obtain ⟨conns, hs, hh⟩ := hset _ harmed
        exact ⟨true, _, by rw [hs]; rfl, hh⟩
      · obtain ⟨conns, hs, hh⟩ := hset _ hex
        exact ⟨false, _, by rw [hs]; rfl, hh⟩
    · obtain ⟨conns, hs, hh⟩ := hset _ hex
      exact ⟨true, _, by rw [hs]; rfl, hh⟩
  cases turn with
  | read => exact hrearm _
  | write => exact hrearm _
  | close =>
    obtain ⟨conns, hs, hsound, hchanged, -, -⟩ := Slab.clear_ok h.sound hget
    exact ⟨true, _, by rw [settle, hs]; rfl, .clear h hle hsound hchanged⟩

/-- An event is handled without a panic, and touches only its own slot, or a
free one. -/
theorem handle_ok (run : Dispatch σ) {listeners : Nat} {w : Worker σ} (h : w.Inv listeners) (e : Ready)
    (g : Given σ) :
    ∃ on w', w.handle run listeners e g = .ok (on, w') ∧ Handled listeners e.token w w' := by
  rw [handle]
  split
  · next hlt =>
    obtain ⟨on, w', hok, hh⟩ := take_ok h g.env g.accepts
    exact ⟨on, w', hok, hh e.token hlt⟩
  · next hlt =>
    have hle : listeners ≤ e.token := Nat.not_lt.mp hlt
    cases hget : w.conns.get? (e.token - listeners) with
    | none => exact ⟨true, w, rfl, .refl h⟩
    | some held =>
      have hex := h.exact _ held hget
      have hshared : ({ held.peer with env := g.env } : Peer σ).Exact :=
        ⟨hex.sane, hex.bytes, hex.replies, hex.framed, hex.ends⟩
      simp only [turned]
      cases e.gone with
      | true =>
        simp only [if_true, pure_ok, ok_bind]
        exact settle_ok h hle hget g.modified hshared .close
      | false =>
        obtain ⟨answer, peer, hturn, hex', -⟩ := Turned.exact run hshared e.read e.write g.io
        simp only [Bool.false_eq_true, if_false, hturn, ok_bind]
        exact settle_ok h hle hget g.modified hex' answer

end Worker

/-! ## Whose event it is -/

structure Loop.Inv (listeners : Nat) (l : Loop σ) : Prop where
  worker : l.worker.Inv listeners
  /-- What was there when the batch was collected, and still is. -/
  seen : ∀ at_ held, l.worker.conns.get? at_ = some held → held.who < l.base →
    ∃ held₀, l.seen.get? at_ = some held₀ ∧ held₀.who = held.who
  base : ∀ at_ held, l.seen.get? at_ = some held → held.who < l.base
  le : l.base ≤ l.worker.accepted

theorem Loop.inv_new (listeners : Nat) : (Loop.new listeners : Loop σ).Inv listeners where
  worker := Worker.inv_new listeners
  seen := by
    intro at_ held hget
    exact absurd ((Worker.inv_new listeners).who at_ held hget) (Nat.not_lt_zero _)
  base := by simp [Loop.new, Slab.empty, Slab.get?]
  le := Nat.le_refl _

theorem Polls.inv (run : Dispatch σ) {listeners : Nat} {l : Loop σ} {x : Happened σ} {l' : Loop σ}
    (h : l.Inv listeners) (hs : Polls run listeners l x l') : l'.Inv listeners := by
  cases hs with
  | waited => exact ⟨h.worker, fun at_ held hget _ => ⟨held, hget, rfl⟩, h.worker.who, Nat.le_refl _⟩
  | @handled e batch g on worker hserving hbatch hhandle =>
    obtain ⟨on', w', hok, hh⟩ := Worker.handle_ok run h.worker e g
    rw [hhandle] at hok
    cases hok
    refine ⟨hh.inv, ?_, h.base, Nat.le_trans h.le hh.accepted⟩
    intro at_ held hget hlt
    obtain ⟨held₀, hget₀, hwho⟩ | ⟨-, -, hnew⟩ := hh.conns at_ held hget
    · obtain ⟨held₁, hseen, hsame⟩ := h.seen at_ held₀ hget₀ (by rw [hwho]; exact hlt)
      exact ⟨held₁, hseen, hsame.trans hwho⟩
    · exact absurd (Nat.lt_of_lt_of_le hlt h.le) (Nat.not_lt.mpr hnew)

theorem Polls.event {run : Dispatch σ} {listeners : Nat} {l l' : Loop σ} {e : Ready} {g : Given σ}
    (h : l.Inv listeners) (hs : Polls run listeners l (.handled e g) l') :
    e ∈ l.batch ∧ Worker.Handled listeners e.token l.worker l'.worker ∧ l'.base = l.base := by
  cases hs with
  | handled hserving hbatch hhandle =>
    obtain ⟨on', w', hok, hh⟩ := Worker.handle_ok run h.worker e g
    rw [hhandle] at hok
    cases hok
    refine ⟨?_, hh, rfl⟩
    rw [hbatch]
    exact List.mem_cons_self

/-- An event is applied to the connection that stood in its slot when the batch
was collected, or to nothing. -/
def Owned (listeners : Nat) (l : Loop σ) (e : Ready) : Prop :=
  ∀ held, l.worker.target listeners e = some held →
    ∃ held₀, l.seen.get? (e.token - listeners) = some held₀ ∧ held₀.who = held.who

/-- The slot of an event was given to a connection accepted since the batch was
collected. -/
def Reused (listeners : Nat) (l : Loop σ) (e : Ready) : Prop :=
  ∃ held, l.worker.target listeners e = some held ∧ l.base ≤ held.who

theorem owned_iff {listeners : Nat} {l : Loop σ} (h : l.Inv listeners) (e : Ready) :
    Owned listeners l e ↔ ¬ Reused listeners l e := by
  constructor
  · rintro howned ⟨held, htarget, hge⟩
    obtain ⟨held₀, hseen, hwho⟩ := howned held htarget
    have hlt := h.base _ held₀ hseen
    omega
  · intro hnot held htarget
    have hlt : held.who < l.base := by
      by_contra hge
      exact hnot ⟨held, htarget, Nat.not_lt.mp hge⟩
    rw [Worker.target] at htarget
    split at htarget
    · cases htarget
    · exact h.seen _ held htarget hlt

/-! ## How a slot is given away -/

/-- Whether a step handles an event. -/
def Happened.walks : Happened σ → Bool
  | waited _ => false
  | handled _ _ => true

/-- The steps since the batch was collected. -/
def walked (tr : List (Loop σ × Happened σ × Loop σ)) : List (Loop σ × Happened σ × Loop σ) :=
  tr.rtakeWhile fun x => x.2.1.walks

/-- A step at which an event of `token` closes the connection in its slot. -/
def Closes (listeners token : Nat) (x : Loop σ × Happened σ × Loop σ) : Prop :=
  ∃ e g, x.2.1 = .handled e g ∧ e.token = token ∧ (x.1.worker.target listeners e).isSome ∧
    x.2.2.worker.conns.get? (token - listeners) = none

/-- A step at which a listener's event puts a connection in the free slot of `token`. -/
def Fills (listeners token : Nat) (x : Loop σ × Happened σ × Loop σ) : Prop :=
  ∃ e g, x.2.1 = .handled e g ∧ e.token < listeners ∧ x.1.worker.conns.get? (token - listeners) = none ∧
    (x.2.2.worker.conns.get? (token - listeners)).isSome

/-- The batch that is walked has closed the connection of `token`, and then filled
its slot again. -/
def GivenAway (listeners token : Nat) (tr : List (Loop σ × Happened σ × Loop σ)) : Prop :=
  ∃ x y, [x, y].Sublist (walked tr) ∧ Closes listeners token x ∧ Fills listeners token y

theorem walked_handled (tr : List (Loop σ × Happened σ × Loop σ)) (l l' : Loop σ) (e : Ready) (g : Given σ) :
    walked (tr ++ [(l, .handled e g, l')]) = walked tr ++ [(l, .handled e g, l')] :=
  List.rtakeWhile_concat_pos _ _ _ rfl

theorem walks_of_walked {tr : List (Loop σ × Happened σ × Loop σ)} {x : Loop σ × Happened σ × Loop σ}
    (h : x ∈ walked tr) : x.2.1.walks = true :=
  List.mem_rtakeWhile_imp (p := fun x : Loop σ × Happened σ × Loop σ => x.2.1.walks) h

theorem GivenAway.handled {listeners token : Nat} {tr : List (Loop σ × Happened σ × Loop σ)}
    (h : GivenAway listeners token tr) (l l' : Loop σ) (e : Ready) (g : Given σ) :
    GivenAway listeners token (tr ++ [(l, .handled e g, l')]) := by
  obtain ⟨x, y, hsub, hxy⟩ := h
  refine ⟨x, y, ?_, hxy⟩
  rw [walked_handled]
  exact hsub.trans (List.sublist_append_left _ _)

/-- What the walk of a batch has done to a slot that was taken when it was collected. -/
structure Recounts (listeners : Nat) (tr : List (Loop σ × Happened σ × Loop σ)) (l : Loop σ) : Prop where
  inv : l.Inv listeners
  batch : ∀ e ∈ l.batch, listeners ≤ e.token → (l.seen.get? (e.token - listeners)).isSome
  /-- One that is free now was closed by an event of its own. -/
  closed : ∀ token, listeners ≤ token → (l.seen.get? (token - listeners)).isSome →
    l.worker.conns.get? (token - listeners) = none → ∃ x ∈ walked tr, Closes listeners token x
  /-- One that holds a later connection was given away. -/
  given : ∀ token held, listeners ≤ token → (l.seen.get? (token - listeners)).isSome →
    l.worker.conns.get? (token - listeners) = some held → l.base ≤ held.who → GivenAway listeners token tr

theorem Recounts.waited {listeners : Nat} {tr : List (Loop σ × Happened σ × Loop σ)} {l : Loop σ}
    (h : Recounts listeners tr l) {ready : List Ready} (hwatched : ∀ e ∈ ready, e.token ∈ l.worker.watched)
    (hinv : (⟨l.worker, ready, true, l.worker.conns, l.worker.accepted⟩ : Loop σ).Inv listeners)
    (tr' : List (Loop σ × Happened σ × Loop σ)) :
    Recounts listeners tr' ⟨l.worker, ready, true, l.worker.conns, l.worker.accepted⟩ where
  inv := hinv
  batch := by
    intro e he hle
    obtain hlt | ⟨-, hsome⟩ := (h.inv.worker.watched e.token).mp (hwatched e he)
    · exact absurd hle (Nat.not_le.mpr hlt)
    · exact hsome
  closed := by
    intro token _ hsome hnone
    simp only at hsome hnone
    rw [hnone] at hsome
    cases hsome
  given := by
    intro token held _ _ hget hge
    exact absurd (h.inv.worker.who _ held hget) (Nat.not_lt.mpr hge)

theorem Recounts.handled {listeners : Nat} {tr : List (Loop σ × Happened σ × Loop σ)} {l : Loop σ}
    (h : Recounts listeners tr l) {e : Ready} {batch : List Ready} {g : Given σ} {on : Bool} {worker : Worker σ}
    (hbatch : l.batch = e :: batch) (hh : Worker.Handled listeners e.token l.worker worker)
    (hinv : ({ l with worker, batch, serving := on } : Loop σ).Inv listeners) :
    Recounts listeners (tr ++ [(l, .handled e g, { l with worker, batch, serving := on })])
      { l with worker, batch, serving := on } where
  inv := hinv
  batch := by
    intro e' he' hle
    exact h.batch e' (by rw [hbatch]; exact List.mem_cons_of_mem _ he') hle
  closed := by
    intro token hle hsome hnone
    rw [walked_handled]
    cases hget : l.worker.conns.get? (token - listeners) with
    | none =>
      obtain ⟨x, hx, hcloses⟩ := h.closed token hle hsome hget
      exact ⟨x, List.mem_append_left _ hx, hcloses⟩
    | some held =>
      -- nothing but an event of the token closes what is in its slot
      have htoken : e.token = token := by
        by_contra hne
        have hkept := hh.kept (token - listeners) held (by omega) hget
        simp only at hnone
        rw [hnone] at hkept
        cases hkept
      refine ⟨_, List.mem_append_right _ List.mem_cons_self, e, g, rfl, htoken, ?_, hnone⟩
      rw [Worker.target, htoken, if_neg (Nat.not_lt.mpr hle), hget]
      rfl
  given := by
    intro token held hle hsome hget hge
    obtain ⟨held₀, hget₀, hwho⟩ | ⟨hlt, hnone, -⟩ := hh.conns _ held hget
    · exact (h.given token held₀ hle hsome hget₀ (by rw [hwho]; exact hge)).handled l _ e g
    · obtain ⟨x, hx, hcloses⟩ := h.closed token hle hsome hnone
      refine ⟨x, (l, .handled e g, { l with worker, batch, serving := on }), ?_, hcloses, e, g, rfl, hlt, hnone,
        Option.isSome_iff_exists.mpr ⟨held, hget⟩⟩
      rw [walked_handled]
      exact (List.singleton_sublist.mpr hx).append (List.Sublist.refl _)

theorem recounts (run : Dispatch σ) {listeners : Nat} {tr : List (Loop σ × Happened σ × Loop σ)} {l : Loop σ}
    (h : Run (Polls run listeners) (Loop.new listeners) tr l) : Recounts listeners tr l := by
  induction h with
  | nil =>
    refine ⟨Loop.inv_new listeners, ?_, ?_, ?_⟩ <;> simp [Loop.new, Slab.empty, Slab.get?]
  | snoc _ hs ih =>
    have hinv := Polls.inv run ih.inv hs
    cases hs with
    | waited hserving hbatch hwatched => exact ih.waited hwatched hinv _
    | handled hserving hbatch hhandle =>
      obtain ⟨on', w', hok, hh⟩ := Worker.handle_ok run ih.inv.worker _ _
      rw [hhandle] at hok
      cases hok
      exact ih.handled hbatch hh hinv

/-- A slot that holds a later connection holds it until an event of its token finds it. -/
theorem Polls.stale (run : Dispatch σ) {listeners token : Nat} {l : Loop σ} {x : Happened σ} {l' : Loop σ}
    (h : l.Inv listeners ∧ ∃ held, l.worker.conns.get? (token - listeners) = some held ∧ l.base ≤ held.who)
    (hle : listeners ≤ token) (hwalks : x.walks = true) (howned : ∀ e g, x = .handled e g → Owned listeners l e)
    (hs : Polls run listeners l x l') :
    l'.Inv listeners ∧ ∃ held, l'.worker.conns.get? (token - listeners) = some held ∧ l'.base ≤ held.who := by
  obtain ⟨hinv, held, hget, hge⟩ := h
  refine ⟨Polls.inv run hinv hs, held, ?_⟩
  cases x with
  | waited ready => cases hwalks
  | handled e g =>
    obtain ⟨-, hh, hbase⟩ := hs.event hinv
    rw [hbase]
    refine ⟨hh.kept _ held ?_ hget, hge⟩
    rw [Nat.sub_add_cancel hle]
    rintro rfl
    apply (owned_iff hinv e).mp (howned e g rfl)
    refine ⟨held, ?_, hge⟩
    rw [Worker.target, if_neg (Nat.not_lt.mpr hle)]
    exact hget

/-- In a run of the readiness loop every event reaches the connection it was
reported for exactly when none is handled whose slot its batch has given away: closed
on an earlier event of the token, and filled by a listener's event since. -/
theorem event_owner_iff (run : Dispatch σ) (listeners : Nat) {tr : List (Loop σ × Happened σ × Loop σ)}
    {l : Loop σ} (h : Run (Polls run listeners) (Loop.new listeners) tr l) :
    (∀ x ∈ tr, ∀ e g, x.2.1 = .handled e g → Owned listeners x.1 e) ↔
      ∀ before x after, tr = before ++ x :: after → ∀ e g, x.2.1 = .handled e g → listeners ≤ e.token →
        ¬ GivenAway listeners e.token before := by
  constructor
  · rintro hall before x after rfl e g hlabel hle ⟨freed, filled, hsub, -, e', g', hfill, -, hnone, hsome⟩
    -- the walk of the batch, cut at the step that filled the slot
    have hwalk : walked before <:+ before := List.rtakeWhile_suffix _ _
    have hmem : filled ∈ walked before := hsub.subset (by simp)
    obtain ⟨older, hbefore⟩ := hwalk
    obtain ⟨front, since, hcut⟩ := List.append_of_mem hmem
    have hwalks : ∀ y ∈ since, y.2.1.walks = true := by
      intro y hy
      have hin : y ∈ walked before := by
        rw [hcut]
        simp [hy]
      exact walks_of_walked hin
    rw [← hbefore, hcut] at h hall
    simp only [List.append_assoc, List.cons_append] at h hall
    rw [← List.append_assoc] at h
    obtain ⟨hfront, hs, hback⟩ := h.split
    have hinv := (hfront.steps (Loop.inv_new listeners) (fun _ _ _ hinv hs => Polls.inv run hinv hs)).1
    have hinv' := Polls.inv run hinv hs
    obtain ⟨held, hget⟩ := Option.isSome_iff_exists.mp hsome
    have hge : filled.2.2.base ≤ held.who := by
      rw [hfill] at hs
      obtain ⟨-, hh, hbase⟩ := hs.event hinv
      rw [hbase]
      obtain ⟨held₀, hget₀, -⟩ | ⟨-, -, hnew⟩ := hh.conns _ held hget
      · rw [hnone] at hget₀
        cases hget₀
      · exact Nat.le_trans hinv.le hnew
    obtain ⟨hsince, -, -⟩ := hback.split
    have hkept := (hsince.invariant (C := fun l x => x.walks = true ∧ ∀ e g, x = .handled e g → Owned listeners l e)
      ⟨hinv', held, hget, hge⟩ (fun _ _ _ hI hC hs => Polls.stale run hI hle hC.1 hC.2 hs) (by
        intro y hy
        exact ⟨hwalks y hy, fun e g hy' => hall y (by simp [hy]) e g hy'⟩)).1
    obtain ⟨hlast, held', hget', hge'⟩ := hkept
    apply (owned_iff hlast e).mp (hall x (by simp) e g hlabel)
    refine ⟨held', ?_, hge'⟩
    rw [Worker.target, if_neg (Nat.not_lt.mpr hle)]
    exact hget'
  · rintro hall x hx e g hlabel
    obtain ⟨before, after, rfl⟩ := List.append_of_mem hx
    obtain ⟨hfront, hs, -⟩ := h.split
    have hrec := recounts run hfront
    apply (owned_iff hrec.inv e).mpr
    rintro ⟨held, htarget, hge⟩
    rw [Worker.target] at htarget
    split at htarget
    · cases htarget
    · next hlt =>
      have hle := Nat.not_lt.mp hlt
      rw [hlabel] at hs
      have hbatch := (hs.event hrec.inv).1
      exact hall before x after rfl e g hlabel hle
        (hrec.given e.token held hle (hrec.batch e hbatch hle) htarget hge)

/-- What a batch that reports each token once meets while it is walked: the
slots of what is left of it still hold what they held. -/
structure Loop.Once (listeners : Nat) (l : Loop σ) : Prop where
  inv : l.Inv listeners
  nodup : (l.batch.map Ready.token).Nodup
  there : ∀ e ∈ l.batch, listeners ≤ e.token →
    ∃ held, l.worker.conns.get? (e.token - listeners) = some held ∧ held.who < l.base

theorem Loop.once_new (listeners : Nat) : (Loop.new listeners : Loop σ).Once listeners where
  inv := Loop.inv_new listeners
  nodup := List.nodup_nil
  there := by simp [Loop.new]

theorem Polls.once (run : Dispatch σ) {listeners : Nat} {l : Loop σ} {x : Happened σ} {l' : Loop σ}
    (h : l.Once listeners) (honce : ∀ ready, x = .waited ready → (ready.map Ready.token).Nodup)
    (hs : Polls run listeners l x l') : l'.Once listeners := by
  have hinv := Polls.inv run h.inv hs
  cases hs with
  | @waited ready hserving hbatch hwatched =>
    refine ⟨hinv, honce ready rfl, ?_⟩
    intro e he hle
    obtain hlt | ⟨-, hsome⟩ := (h.inv.worker.watched e.token).mp (hwatched e he)
    · exact absurd hle (Nat.not_le.mpr hlt)
    · obtain ⟨held, hget⟩ := Option.isSome_iff_exists.mp hsome
      exact ⟨held, hget, h.inv.worker.who _ held hget⟩
  | @handled e batch g on worker hserving hbatch hhandle =>
    obtain ⟨on', w', hok, hh⟩ := Worker.handle_ok run h.inv.worker e g
    rw [hhandle] at hok
    cases hok
    have hnodup := h.nodup
    rw [hbatch, List.map_cons, List.nodup_cons] at hnodup
    refine ⟨hinv, hnodup.2, ?_⟩
    intro e' he' hle
    obtain ⟨held, hget, hlt⟩ := h.there e' (by rw [hbatch]; exact List.mem_cons_of_mem _ he') hle
    have hne : e'.token ≠ e.token := by
      intro heq
      apply hnodup.1
      rw [← heq]
      exact List.mem_map_of_mem he'
    refine ⟨held, hh.kept _ held ?_ hget, hlt⟩
    rw [Nat.sub_add_cancel hle]
    exact hne

/-- Where each token is reported once, as epoll reports it, no event finds its
slot reused. -/
theorem owner_once_each (run : Dispatch σ) (listeners : Nat) {tr : List (Loop σ × Happened σ × Loop σ)}
    {l : Loop σ} (h : Run (Polls run listeners) (Loop.new listeners) tr l)
    (honce : ∀ x ∈ tr, ∀ ready, x.2.1 = .waited ready → (ready.map Ready.token).Nodup) :
    ∀ x ∈ tr, ∀ e g, x.2.1 = .handled e g → Owned listeners x.1 e := by
  have hkept := (h.invariant (I := Loop.Once listeners)
    (C := fun _ x => ∀ ready, x = .waited ready → (ready.map Ready.token).Nodup)
    (Loop.once_new listeners) (fun _ _ _ hinv hC hs => Polls.once run hinv hC hs) honce).2
  have hsteps := (h.steps (Loop.inv_new listeners) (fun _ _ _ hinv hs => Polls.inv run hinv hs)).2
  rintro ⟨l₀, x, l₁⟩ hx e g rfl
  have hbefore := (hkept _ hx).1
  obtain ⟨-, hstep⟩ := hsteps _ hx
  apply (owned_iff hbefore.inv e).mpr
  rintro ⟨held, htarget, hge⟩
  change Polls run listeners l₀ (.handled e g) l₁ at hstep
  cases hstep with
  | handled hserving hbatch hhandle =>
    rw [Worker.target] at htarget
    split at htarget
    · cases htarget
    · next hlt =>
      obtain ⟨held', hget, hless⟩ := hbefore.there e (by rw [hbatch]; exact List.mem_cons_self)
        (Nat.not_lt.mp hlt)
      rw [htarget] at hget
      cases hget
      exact absurd hless (Nat.not_lt.mpr hge)

/-- A slot given to the next connection, which a later batch reports an event of. -/
theorem event_owner_later : ∃ tr l, Run (Polls (fun env _ dialect => ⟨env, [], dialect, false⟩) 1)
    (Loop.new 1 : Loop Unit) tr l ∧
    (∃ x ∈ tr, ∃ e g held, x.2.1 = .handled e g ∧ x.1.worker.target 1 e = some held ∧ held.who = 1) ∧
    ((∀ x ∈ tr, ∀ e g, x.2.1 = .handled e g → Owned 1 x.1 e) ↔
      ∀ before x after, tr = before ++ x :: after → ∀ e g, x.2.1 = .handled e g → 1 ≤ e.token →
        ¬ GivenAway 1 e.token before) := by
  let g : Given Unit := ⟨.took 8 true, (), ⟨.wouldBlock, .wouldBlock, .wouldBlock⟩, true⟩
  let run : Dispatch Unit := fun env _ dialect => ⟨env, [], dialect, false⟩
  have h0 : Run (Polls run 1) (Loop.new 1) [] (Loop.new 1) := .nil
  have hwaited : ∀ {l : Loop Unit} (ready : List Ready), l.serving = true → l.batch = [] →
      (∀ e ∈ ready, e.token ∈ l.worker.watched) → Polls run 1 l (.waited ready)
        ⟨l.worker, ready, true, l.worker.conns, l.worker.accepted⟩ := fun _ => .waited
  have hhandled : ∀ {l : Loop Unit} {e batch on worker}, l.serving = true → l.batch = e :: batch →
      l.worker.handle run 1 e g = .ok (on, worker) →
      Polls run 1 l (.handled e g) { l with worker, batch, serving := on } := .handled
  have h1 := h0.snoc (hwaited [⟨0, true, false, false⟩] rfl rfl (by decide))
  have h2 := h1.snoc (hhandled rfl rfl rfl)
  -- the first connection hangs up, and the second is accepted into its slot
  have h3 := h2.snoc (hwaited [⟨1, true, false, true⟩, ⟨0, true, false, false⟩] rfl rfl (by decide))
  have h4 := h3.snoc (hhandled rfl rfl rfl)
  have h5 := h4.snoc (hhandled rfl rfl rfl)
  have h6 := h5.snoc (hwaited [⟨1, true, false, true⟩] rfl rfl (by decide))
  have h7 := h6.snoc (hhandled rfl rfl rfl)
  exact ⟨_, _, h7, ⟨_, List.mem_append_right _ (List.mem_singleton.mpr rfl), _, _, _, rfl, rfl, rfl⟩,
    event_owner_iff run 1 h7⟩

/-- The events of one socket that hung up, as kqueue reports them, with a new
connection between them. -/
def hungUpTwice : List Ready :=
  [⟨1, true, false, true⟩, ⟨0, true, false, false⟩, ⟨1, false, true, true⟩]

/-- The second of them closes the connection that was accepted in between. -/
theorem owner_lost : ¬ ∀ (run : Dispatch Unit) (tr : List (Loop Unit × Happened Unit × Loop Unit))
    (l : Loop Unit), Run (Polls run 1) (Loop.new 1) tr l →
    ∀ x ∈ tr, ∀ e g, x.2.1 = .handled e g → Owned 1 x.1 e := by
  intro hall
  let run : Dispatch Unit := fun env _ dialect => ⟨env, [], dialect, false⟩
  let g : Given Unit := ⟨.took 8 true, (), ⟨.wouldBlock, .wouldBlock, .wouldBlock⟩, true⟩
  have h0 : Run (Polls run 1) (Loop.new 1) [] (Loop.new 1) := .nil
  have hwaited : ∀ {l : Loop Unit} (ready : List Ready), l.serving = true → l.batch = [] →
      (∀ e ∈ ready, e.token ∈ l.worker.watched) → Polls run 1 l (.waited ready)
        ⟨l.worker, ready, true, l.worker.conns, l.worker.accepted⟩ := fun _ => .waited
  have hhandled : ∀ {l : Loop Unit} {e batch on worker}, l.serving = true → l.batch = e :: batch →
      l.worker.handle run 1 e g = .ok (on, worker) →
      Polls run 1 l (.handled e g) { l with worker, batch, serving := on } := .handled
  have h1 := h0.snoc (hwaited [⟨0, true, false, false⟩] rfl rfl (by decide))
  have h2 := h1.snoc (hhandled rfl rfl rfl)
  have h3 := h2.snoc (hwaited hungUpTwice rfl rfl (by decide))
  have h4 := h3.snoc (hhandled rfl rfl rfl)
  have h5 := h4.snoc (hhandled rfl rfl rfl)
  have h6 := h5.snoc (hhandled rfl rfl rfl)
  obtain ⟨held₀, hseen, hwho⟩ := hall run _ _ h6 _ (List.mem_append_right _ (List.mem_singleton.mpr rfl))
    _ _ rfl _ rfl
  cases hseen
  cases hwho

end Rugo
