import Mathlib.Data.List.Perm.Subperm
import Rugo.Poll

/- The completion loop of one thread (`rugo-server/src/uring.rs`): `serve_uring`,
   `took`, `carried`, `submit` and `discard`, over the same connections and slots
   as the readiness loop.

   The kernel is the list of operations in flight. It completes any of them next,
   with any result: a read with no more bytes than it was given room for, an
   accept with a descriptor that no open connection has. What an operation is, and
   which connection submitted it, stands beside its user data and is read by the
   kernel only; the loop reads the user data.

     1. `one_operation_each`: each connection has one operation in flight, of its
        own, and it is a send exactly when the connection owes bytes.
     2. `aborted_iff`: when an accept whose client was gone costs the others nothing,
        on this loop and on the other. -/
namespace Rugo
open Exec Resp Runs Slabs

variable {σ : Type}

/-! ## User data -/

/-- Where the top bits start that say what a completion is for. -/
def SHIFT : UInt64 := 62
def ACCEPT : UInt64 := 0 <<< SHIFT
def RECV : UInt64 := 1 <<< SHIFT
def SEND : UInt64 := 2 <<< SHIFT
def TICK : UInt64 := 3 <<< SHIFT
def INDEX : UInt64 := (1 <<< SHIFT) - 1

/-- The user data for an operation of `kind` on `index`. -/
def token (kind : UInt64) (index : Nat) : UInt64 :=
  kind ||| ((if index < 2 ^ 64 then UInt64.ofNat index else INDEX) &&& INDEX)

theorem or_and_distrib (a b c : UInt64) : (a ||| b) &&& c = (a &&& c) ||| (b &&& c) := by
  apply UInt64.toBitVec_inj.mp
  exact BitVec.and_or_distrib_right

theorem token_index {kind : UInt64} {index : Nat} (hk : kind &&& INDEX = 0) (h : index < 2 ^ 62) :
    (token kind index &&& INDEX).toNat = index := by
  have hlt : index < 2 ^ 64 := by omega
  have hand : (kind ||| (UInt64.ofNat index &&& INDEX)) &&& INDEX =
      (kind &&& INDEX) ||| (UInt64.ofNat index &&& INDEX) := by
    rw [or_and_distrib, UInt64.and_assoc, UInt64.and_self]
  have hmask : INDEX.toNat = 2 ^ 62 - 1 := by decide
  rw [token, if_pos hlt, hand, hk, UInt64.zero_or, UInt64.toNat_and, hmask,
    Nat.and_two_pow_sub_one_eq_mod, UInt64.toNat_ofNat']
  omega

theorem token_kind {kind : UInt64} {index : Nat} (hk : kind &&& ~~~INDEX = kind) :
    token kind index &&& ~~~INDEX = kind := by
  have hnone : INDEX &&& ~~~INDEX = 0 := by decide
  rw [token, or_and_distrib, hk, UInt64.and_assoc, hnone, UInt64.and_zero, UInt64.or_zero]

/-! ## The loop -/

/-- What was put in the ring. -/
inductive Op where
  | accept (listener : Nat)
  /-- A read or a write of the connection `who`, in this slot. -/
  | carry (at_ who : Nat) (step : Step)
  | tick

structure Flight where
  userData : UInt64
  op : Op

/-- What a completion brings, and what the world answers while it is handled. -/
structure Done (σ : Type) where
  res : Int
  /-- The bytes a read put where it was told to. -/
  data : List UInt8
  /-- What a negative result says. -/
  kind : ErrorKind
  /-- Whether a new socket can be prepared. -/
  prepared : Bool
  /-- Whether the ring takes the accept, or the tick, that is armed again. -/
  armed : Bool
  /-- Whether the ring takes what the connection wants next. -/
  put : Bool
  /-- The map, as the other threads have left it. -/
  env : σ

structure Uring (σ : Type) where
  conns : Slab (Held σ)
  flight : List Flight
  /-- How many connections have been accepted. -/
  accepted : Nat

namespace Uring

def new (listeners : Nat) : Uring σ where
  conns := .empty
  flight := (List.range listeners).map (fun at_ => ⟨token ACCEPT at_, .accept at_⟩) ++ [⟨TICK, .tick⟩]
  accepted := 0

/-- One read or write put in the ring; a close is no operation. -/
def submit (w : Uring σ) (step : Step) (at_ who : Nat) : Uring σ :=
  match step with
  | .recv .. => { w with flight := ⟨token RECV at_, .carry at_ who step⟩ :: w.flight }
  | .send .. => { w with flight := ⟨token SEND at_, .carry at_ who step⟩ :: w.flight }
  | .close => w

def discard (w : Uring σ) (at_ : Nat) : Exec (Uring σ) :=
  match w.conns.get? at_ with
  | none => pure w
  | some _ => do
    let conns ← w.conns.clear at_
    pure { w with conns }

/-- What a connection wants next submitted, or the connection discarded. The
first of the pair is whether the thread goes on. -/
def next (w : Uring σ) (at_ who : Nat) (step : Step) (put : Bool) : Exec (Bool × Uring σ) :=
  if put then pure (true, w.submit step at_ who)
  else do
    let w ← w.discard at_
    pure (false, w)

/-- Take the connection an accept produced, and ask for the next one. -/
def took (run : Dispatch σ) (listeners : Nat) (w : Uring σ) (listener : Nat) (d : Done σ) :
    Exec (Bool × Uring σ) :=
  let rearmed := { w with flight := ⟨token ACCEPT listener, .accept listener⟩ :: w.flight }
  if listeners ≤ listener then pure (true, w)
  else if d.res < 0 then
    match d.kind with
    | .connectionAborted => if d.armed then pure (true, rearmed) else pure (false, w)
    | .interrupted => if d.armed then pure (true, rearmed) else pure (false, w)
    | .wouldBlock => if d.armed then pure (true, rearmed) else pure (false, w)
    | .other => pure (false, w)
  else if !d.armed then pure (false, w)
  else if !d.prepared then pure (true, rearmed)
  else do
    let (step, peer) ← (Peer.new d.env).stepLoop run 2
    let (at_, conns) ← w.conns.put ⟨w.accepted, d.res.toNat, peer⟩
    Uring.next { rearmed with conns, accepted := w.accepted + 1 } at_ w.accepted step d.put

/-- What the kernel did to a connection's buffers for an operation: bytes of a
read stored, bytes of a write taken. -/
def delivered (held : Held σ) (op : Op) (d : Done σ) : Exec (Held σ) :=
  match op with
  | .carry _ who (.recv at_ _) =>
    if held.who = who then do
      let peer ← held.peer.landed at_ d.data
      pure { held with peer }
    else pure held
  | .carry _ who (.send at_ _) =>
    if held.who = who then pure { held with peer := held.peer.left at_ d.res.toNat } else pure held
  | _ => pure held

/-- The connection told what completed: a write if it owes bytes, else a read. -/
def credited (s : Peer σ) (bytes : Nat) : Peer σ :=
  if s.conn.owes then { s with conn := s.conn.written bytes }
  else { s with conn := s.conn.arrived bytes }

/-- Take what a read or a write completed, and submit what is wanted next. -/
def carried (run : Dispatch σ) (w : Uring σ) (at_ : Nat) (op : Op) (d : Done σ) :
    Exec (Bool × Uring σ) :=
  if d.res ≤ 0 then do
    let w ← w.discard at_
    pure (true, w)
  else match w.conns.get? at_ with
    | none => pure (true, w)
    | some held => do
      let held ← delivered held op d
      let (step, peer) ← Peer.stepLoop run 2 { credited held.peer d.res.toNat with env := d.env }
      let conns ← w.conns.set at_ { held with peer }
      if step = .close then do
        let w ← Uring.discard { w with conns } at_
        pure (true, w)
      else Uring.next { w with conns } at_ held.who step d.put

def handle (run : Dispatch σ) (listeners : Nat) (w : Uring σ) (f : Flight) (d : Done σ) :
    Exec (Bool × Uring σ) :=
  let at_ := (f.userData &&& INDEX).toNat
  let kind := f.userData &&& ~~~INDEX
  if kind = ACCEPT then w.took run listeners at_ d
  else if kind = RECV ∨ kind = SEND then w.carried run at_ f.op d
  else if d.armed then pure (true, { w with flight := ⟨TICK, .tick⟩ :: w.flight })
  else pure (false, w)

end Uring

/-- What the kernel may answer to an operation. -/
def Op.Allows (w : Uring σ) (d : Done σ) : Op → Prop
  | .accept _ => 0 ≤ d.res → d.res < 2 ^ 31 ∧ ∀ at_ held, w.conns.get? at_ = some held → held.fd ≠ d.res.toNat
  | .carry _ _ (.recv _ len) => d.res ≤ len ∧ (0 < d.res → d.data.length = d.res.toNat)
  | .carry _ _ (.send _ len) => d.res ≤ len
  | .carry _ _ .close => True
  | .tick => True

/-- A thread on the ring, and whether it is still serving. -/
structure Thread (σ : Type) where
  ring : Uring σ
  serving : Bool

def Thread.new (listeners : Nat) : Thread σ := ⟨.new listeners, true⟩

/-- Some operation in flight completes, and is handled. -/
inductive Completes (run : Dispatch σ) (listeners : Nat) :
    Thread σ → Flight × Done σ → Thread σ → Prop
  | mk {t before f after d on ring} : t.serving = true → t.ring.flight = before ++ f :: after →
      f.op.Allows t.ring d →
      { t.ring with flight := before ++ after }.handle run listeners f d = .ok (on, ring) →
      Completes run listeners t (f, d) ⟨ring, on⟩

/-! ## The invariant -/

namespace Op

def slot : Op → Option Nat
  | accept _ => none
  | carry at_ _ _ => some at_
  | tick => none

def listener : Op → Option Nat
  | accept listener => some listener
  | carry _ _ _ => none
  | tick => none

def userData : Op → UInt64
  | accept listener => token ACCEPT listener
  | carry at_ _ (.send _ _) => token SEND at_
  | carry at_ _ _ => token RECV at_
  | tick => TICK

end Op

namespace Uring

def carrying (flight : List Flight) : List Nat := flight.filterMap fun f => f.op.slot

def listening (flight : List Flight) : List Nat := flight.filterMap fun f => f.op.listener

/-- The state between two completions; or in the middle of handling one, when
the connection in slot `idle` has nothing in flight. -/
structure Inv (listeners : Nat) (idle : Option Nat) (w : Uring σ) : Prop where
  sound : w.conns.Sound
  exact : ∀ at_ held, w.conns.get? at_ = some held → held.peer.Exact
  fds : ∀ at_ held, w.conns.get? at_ = some held → held.fd < 2 ^ 31 ∧
    ∀ at' held', w.conns.get? at' = some held' → held'.fd = held.fd → at' = at_
  size : w.conns.slots.length ≤ 2 ^ 31
  tokens : ∀ f ∈ w.flight, f.userData = f.op.userData
  once : (carrying w.flight).Nodup
  owned : ∀ at_, at_ ∈ carrying w.flight ↔ (w.conns.get? at_).isSome ∧ idle ≠ some at_
  owner : ∀ f ∈ w.flight, ∀ at_ who step, f.op = .carry at_ who step → step ≠ .close ∧
    ∃ held, w.conns.get? at_ = some held ∧ held.who = who ∧ Answers held.peer step
  listened : (listening w.flight).Perm (List.range listeners)

theorem listening_new (ls : List Nat) :
    listening (ls.map fun at_ => ⟨token ACCEPT at_, .accept at_⟩) = ls := by
  induction ls with
  | nil => rfl
  | cons at_ ls ih =>
    simp only [listening, List.map_cons, List.filterMap_cons, Op.listener] at ih ⊢
    rw [ih]

theorem inv_new (listeners : Nat) : (new listeners : Uring σ).Inv listeners none where
  sound := Slab.sound_empty
  exact := by simp [new, Slab.empty, Slab.get?]
  fds := by simp [new, Slab.empty, Slab.get?]
  size := Nat.zero_le _
  tokens := by
    intro f hf
    obtain hf | hf := List.mem_append.mp hf
    · obtain ⟨at_, -, rfl⟩ := List.mem_map.mp hf
      rfl
    · rw [List.mem_singleton.mp hf]
      rfl
  once := by simp [new, carrying, Op.slot, List.filterMap_append, List.filterMap_map]
  owned := by
    simp [new, carrying, Op.slot, Slab.empty, Slab.get?, List.filterMap_append, List.filterMap_map]
  owner := by
    intro f hf at_ who step hop
    obtain hf | hf := List.mem_append.mp hf
    · obtain ⟨l, -, rfl⟩ := List.mem_map.mp hf
      cases hop
    · rw [List.mem_singleton.mp hf] at hop
      cases hop
  listened := by
    have htick : listening [(⟨TICK, .tick⟩ : Flight)] = [] := rfl
    simp only [new]
    rw [listening, List.filterMap_append, ← listening, ← listening, htick, List.append_nil,
      listening_new]

theorem Inv.perm {listeners : Nat} {idle : Option Nat} {w : Uring σ} (h : w.Inv listeners idle)
    {flight : List Flight} (hp : w.flight.Perm flight) :
    ({ w with flight } : Uring σ).Inv listeners idle where
  sound := h.sound
  exact := h.exact
  fds := h.fds
  size := h.size
  tokens := fun f hf => h.tokens f (hp.mem_iff.mpr hf)
  once := (hp.filterMap _).nodup_iff.mp h.once
  owned := fun at_ => ((hp.filterMap _).mem_iff.symm).trans (h.owned at_)
  owner := fun f hf => h.owner f (hp.mem_iff.mpr hf)
  listened := (hp.filterMap _).symm.trans h.listened

theorem Inv.completed {listeners : Nat} {w : Uring σ} {f : Flight} {flight : List Flight}
    (h : ({ w with flight := f :: flight } : Uring σ).Inv listeners none) {at_ who : Nat} {step : Step}
    (hop : f.op = .carry at_ who step) :
    ({ w with flight } : Uring σ).Inv listeners (some at_) := by
  have hslots : carrying (f :: flight) = at_ :: carrying flight := by
    simp [carrying, hop, Op.slot]
  have honce := h.once
  have howned := h.owned
  simp only [hslots] at honce howned
  rw [List.nodup_cons] at honce
  refine ⟨h.sound, h.exact, h.fds, h.size, fun f hf => h.tokens f (List.mem_cons_of_mem _ hf), honce.2, ?_,
    fun f hf => h.owner f (List.mem_cons_of_mem _ hf), ?_⟩
  · intro i
    have hi := howned i
    rw [List.mem_cons] at hi
    by_cases heq : i = at_
    · rw [heq]
      simp [honce.1]
    · simp only [heq, false_or, ne_eq, reduceCtorEq, not_false_iff, and_true] at hi
      simp only [hi, ne_eq, Option.some.injEq, Ne.symm heq, not_false_iff, and_true]
  · have hlisten := h.listened
    simp only [listening, List.filterMap_cons, hop, Op.listener] at hlisten
    exact hlisten

theorem Inv.set {listeners : Nat} {w : Uring σ} {at_ : Nat} (h : w.Inv listeners (some at_))
    {held : Held σ} (held' : Held σ) (hget : w.conns.get? at_ = some held) (hfd : held'.fd = held.fd)
    (hex : held'.peer.Exact) :
    ∃ conns, w.conns.set at_ held' = .ok conns ∧ w.conns.Changed conns at_ (some held') ∧
      ({ w with conns } : Uring σ).Inv listeners (some at_) := by
  obtain ⟨conns, hset, hsound, ⟨hat, hother⟩, hlen, -⟩ := Slab.set_ok h.sound hget held'
  have hback : ∀ i held₁, conns.get? i = some held₁ →
      ∃ held₀, w.conns.get? i = some held₀ ∧ held₀.fd = held₁.fd ∧ held₁.peer.Exact := by
    intro i held₁ hi
    by_cases heq : i = at_
    · rw [heq, hat] at hi
      cases hi
      exact ⟨held, by rw [heq]; exact hget, hfd.symm, hex⟩
    · rw [hother i heq] at hi
      exact ⟨held₁, hi, rfl, h.exact i held₁ hi⟩
  refine ⟨conns, hset, ⟨hat, hother⟩, hsound, ?_, ?_, ?_, h.tokens, h.once, ?_, ?_, h.listened⟩
  · intro i held₁ hi
    exact (hback i held₁ hi).choose_spec.2.2
  · intro i held₁ hi
    obtain ⟨held₀, h₀, hf, -⟩ := hback i held₁ hi
    obtain ⟨hlt, huniq⟩ := h.fds i held₀ h₀
    refine ⟨hf ▸ hlt, ?_⟩
    intro j held₂ hj hsame
    obtain ⟨held₃, h₃, hf', -⟩ := hback j held₂ hj
    exact huniq j held₃ h₃ (by rw [hf', hsame, hf])
  · simp only [hlen]
    exact h.size
  · intro i
    rw [h.owned i]
    by_cases heq : i = at_
    · simp [heq]
    · rw [hother i heq]
  · intro f hf i who step hop
    -- an operation in flight is of another slot
    have hslot : i ∈ carrying w.flight := by
      rw [carrying, List.mem_filterMap]
      exact ⟨f, hf, by rw [hop]; rfl⟩
    have hne : i ≠ at_ := fun heq => ((h.owned i).mp hslot).2 (by rw [heq])
    rw [hother i hne]
    exact h.owner f hf i who step hop

theorem Inv.discard {listeners : Nat} {w : Uring σ} {at_ : Nat} (h : w.Inv listeners (some at_))
    {held : Held σ} (hget : w.conns.get? at_ = some held) :
    ∃ w', w.discard at_ = .ok w' ∧ w.conns.Changed w'.conns at_ none ∧ w'.Inv listeners none := by
  obtain ⟨conns, hclear, hsound, ⟨hat, hother⟩, hlen, -⟩ := Slab.clear_ok h.sound hget
  have hback : ∀ i held₁, conns.get? i = some held₁ → w.conns.get? i = some held₁ := by
    intro i held₁ hi
    by_cases heq : i = at_
    · rw [heq, hat] at hi
      cases hi
    · rw [← hother i heq]
      exact hi
  refine ⟨{ w with conns }, by rw [Uring.discard, hget]; simp only [hclear]; rfl, ⟨hat, hother⟩, hsound, ?_, ?_,
    ?_, h.tokens, h.once, ?_, ?_, h.listened⟩
  · exact fun i held₁ hi => h.exact i held₁ (hback i held₁ hi)
  · intro i held₁ hi
    obtain ⟨hlt, huniq⟩ := h.fds i held₁ (hback i held₁ hi)
    exact ⟨hlt, fun j held₂ hj => huniq j held₂ (hback j held₂ hj)⟩
  · simp only [hlen]
    exact h.size
  · intro i
    rw [h.owned i]
    by_cases heq : i = at_
    · simp [heq, hat]
    · rw [hother i heq]
      simp [Ne.symm heq]
  · intro f hf i who step hop
    have hslot : i ∈ carrying w.flight := by
      rw [carrying, List.mem_filterMap]
      exact ⟨f, hf, by rw [hop]; rfl⟩
    have hne : i ≠ at_ := fun heq => ((h.owned i).mp hslot).2 (by rw [heq])
    rw [hother i hne]
    exact h.owner f hf i who step hop

theorem submit_conns (w : Uring σ) (step : Step) (at_ who : Nat) : (w.submit step at_ who).conns = w.conns := by
  cases step <;> rfl

theorem Inv.submit {listeners : Nat} {w : Uring σ} {at_ : Nat} (h : w.Inv listeners (some at_))
    {held : Held σ} (hget : w.conns.get? at_ = some held) {step : Step} (hans : Answers held.peer step)
    (hopen : step ≠ .close) : (w.submit step at_ held.who).Inv listeners none := by
  have hput : ∀ userData, userData = (Op.carry at_ held.who step).userData →
      ({ w with flight := ⟨userData, .carry at_ held.who step⟩ :: w.flight } : Uring σ).Inv
        listeners none := by
    intro userData hdata
    have hslots : carrying (⟨userData, .carry at_ held.who step⟩ :: w.flight) = at_ :: carrying w.flight :=
      rfl
    refine ⟨h.sound, h.exact, h.fds, h.size, ?_, ?_, ?_, ?_, h.listened⟩
    · intro f hf
      obtain rfl | hf := List.mem_cons.mp hf
      · exact hdata
      · exact h.tokens f hf
    · rw [hslots, List.nodup_cons]
      refine ⟨?_, h.once⟩
      rw [h.owned]
      simp
    · intro i
      rw [hslots, List.mem_cons, h.owned i]
      by_cases heq : i = at_
      · simp [heq, hget]
      · simp [heq, Ne.symm heq]
    · intro f hf i who step' hop
      obtain rfl | hf := List.mem_cons.mp hf
      · cases hop
        exact ⟨hopen, held, hget, rfl, hans⟩
      · exact h.owner f hf i who step' hop
  cases step with
  | recv i len => exact hput _ rfl
  | send i len => exact hput _ rfl
  | close => exact absurd rfl hopen

/-- The descriptors of a full vector of connections, and a new one, are too many
to be more than there are. -/
theorem full_le {slots fds : Nat} (fd : Nat → Nat) (hfd : ∀ i < slots, fd i < fds)
    (hinj : ∀ i < slots, ∀ j < slots, fd i = fd j → i = j) {new : Nat} (hnew : new < fds)
    (hfresh : ∀ i < slots, fd i ≠ new) : slots + 1 ≤ fds := by
  have hnodup : (new :: (List.range slots).map fd).Nodup := by
    rw [List.nodup_cons]
    constructor
    · intro hmem
      obtain ⟨i, hi, heq⟩ := List.mem_map.mp hmem
      exact hfresh i (List.mem_range.mp hi) heq
    · refine (List.nodup_map_iff_inj_on List.nodup_range).mpr ?_
      intro i hi j hj heq
      exact hinj i (List.mem_range.mp hi) j (List.mem_range.mp hj) heq
  have hsub : new :: (List.range slots).map fd ⊆ List.range fds := by
    intro x hx
    obtain rfl | hx := List.mem_cons.mp hx
    · exact List.mem_range.mpr hnew
    · obtain ⟨i, hi, rfl⟩ := List.mem_map.mp hx
      exact List.mem_range.mpr (hfd i (List.mem_range.mp hi))
  have hlen := (List.subperm_of_subset hnodup hsub).length_le
  simpa using hlen

theorem Inv.put {listeners : Nat} {w : Uring σ} (h : w.Inv listeners none) (held : Held σ)
    (hex : held.peer.Exact) (hfd : held.fd < 2 ^ 31)
    (hfresh : ∀ at_ held', w.conns.get? at_ = some held' → held'.fd ≠ held.fd) (accepted : Nat) :
    ∃ at_ conns, w.conns.put held = .ok (at_, conns) ∧ conns.get? at_ = some held ∧
      ({ w with conns, accepted } : Uring σ).Inv listeners (some at_) := by
  obtain ⟨at_, conns, hput, hsound, hfree, ⟨hat, hother⟩, hlen⟩ := Slab.put_ok h.sound held
  have hback : ∀ i held', conns.get? i = some held' →
      i = at_ ∧ held' = held ∨ i ≠ at_ ∧ w.conns.get? i = some held' := by
    intro i held' hi
    by_cases heq : i = at_
    · rw [heq, hat] at hi
      cases hi
      exact .inl ⟨heq, rfl⟩
    · rw [hother i heq] at hi
      exact .inr ⟨heq, hi⟩
  refine ⟨at_, conns, hput, hat, hsound, ?_, ?_, ?_, h.tokens, h.once, ?_, ?_, h.listened⟩
  · intro i held' hi
    obtain ⟨-, rfl⟩ | ⟨-, hold⟩ := hback i held' hi
    · exact hex
    · exact h.exact i held' hold
  · intro i held' hi
    obtain ⟨rfl, rfl⟩ | ⟨hne, hold⟩ := hback i held' hi
    · refine ⟨hfd, ?_⟩
      intro j held₂ hj hsame
      obtain ⟨heq, -⟩ | ⟨-, hold₂⟩ := hback j held₂ hj
      · exact heq
      · exact absurd hsame (hfresh j held₂ hold₂)
    · obtain ⟨hlt, huniq⟩ := h.fds i held' hold
      refine ⟨hlt, ?_⟩
      intro j held₂ hj hsame
      obtain ⟨-, rfl⟩ | ⟨-, hold₂⟩ := hback j held₂ hj
      · exact absurd hsame.symm (hfresh i held' hold)
      · exact huniq j held₂ hold₂ hsame
  · obtain ⟨-, hsame⟩ | ⟨hfull, hgrown⟩ := hlen
    · simp only [hsame]
      exact h.size
    · -- no slot is free, so every slot has a descriptor of its own
      have hall : ∀ i < w.conns.slots.length, ∃ held', w.conns.get? i = some held' := by
        intro i hi
        cases hslot : w.conns.slots[i] with
        | none =>
          have hmem := (h.sound.holes i).mpr (List.getElem?_eq_some_iff.mpr ⟨hi, hslot⟩)
          rw [hfull] at hmem
          cases hmem
        | some held' => exact ⟨held', Slab.get?_eq_some.mpr (List.getElem?_eq_some_iff.mpr ⟨hi, hslot⟩)⟩
      have hfdAt : ∀ i held', w.conns.get? i = some held' →
          ((w.conns.get? i).map Held.fd).getD 0 = held'.fd := by
        intro i held' hi
        rw [hi]
        rfl
      simp only [hgrown]
      refine full_le (fun i => ((w.conns.get? i).map Held.fd).getD 0) ?_ ?_ hfd ?_
      · intro i hi
        obtain ⟨held', hget⟩ := hall i hi
        rw [hfdAt i held' hget]
        exact (h.fds i held' hget).1
      · intro i hi j hj heq
        obtain ⟨held₁, h₁⟩ := hall i hi
        obtain ⟨held₂, h₂⟩ := hall j hj
        rw [hfdAt i held₁ h₁, hfdAt j held₂ h₂] at heq
        exact (h.fds j held₂ h₂).2 i held₁ h₁ heq
      · intro i hi
        obtain ⟨held', hget⟩ := hall i hi
        rw [hfdAt i held' hget]
        exact hfresh i held' hget
  · intro i
    rw [h.owned i]
    by_cases heq : i = at_
    · simp [heq, hfree]
    · rw [hother i heq]
      simp [Ne.symm heq]
  · intro f hf i who step hop
    obtain ⟨hopen, held', hget, hrest⟩ := h.owner f hf i who step hop
    have hne : i ≠ at_ := by
      rintro rfl
      rw [hfree] at hget
      cases hget
    refine ⟨hopen, held', ?_, hrest⟩
    rw [hother i hne]
    exact hget

theorem next_ok {listeners : Nat} {w : Uring σ} {at_ : Nat} (h : w.Inv listeners (some at_))
    {held : Held σ} (hget : w.conns.get? at_ = some held) {step : Step} (hans : Answers held.peer step)
    (hopen : step ≠ .close) (put : Bool) :
    ∃ on w', w.next at_ held.who step put = .ok (on, w') ∧
      w.conns.Changed w'.conns at_ (if put then some held else none) ∧ w'.Inv listeners none := by
  cases put with
  | true =>
    refine ⟨true, _, rfl, ?_, h.submit hget hans hopen⟩
    rw [submit_conns]
    exact ⟨hget, fun _ _ => rfl⟩
  | false =>
    obtain ⟨w', hd, hchanged, hinv⟩ := h.discard hget
    refine ⟨false, w', ?_, hchanged, hinv⟩
    simp only [next, Bool.false_eq_true, if_false, hd]
    rfl

theorem first_open (run : Dispatch σ) (env : σ) : ∃ step peer,
    (Peer.new env).stepLoop run 2 = .ok (step, peer) ∧ peer.Exact ∧ Answers peer step ∧ step ≠ .close := by
  obtain ⟨step, peer, hall, hstepped⟩ := Peer.stepLoop_ok run (Peer.exact_new env)
  refine ⟨step, peer, hall 0, hstepped.exact, hstepped.answers, ?_⟩
  rintro rfl
  have hidle : peer.desk = (Peer.new env).desk ∧ peer.conn.unread = [] := by
    have hworks := hstepped.works
    rw [Peer.unread_new] at hworks
    obtain heq | ⟨q, hq, -⟩ := Relation.ReflTransGen.cases_head hworks
    · rw [Prod.mk.injEq] at heq
      exact ⟨heq.1.symm, heq.2.symm⟩
    · simp only [Desk.next, parsed_nil] at hq
      split at hq <;> cases hq
  obtain ⟨-, hclosing | ⟨-, hbig⟩⟩ := hstepped.answers
  · have hopen : peer.conn.closing = false := congrArg Desk.closing hidle.1
    rw [hopen] at hclosing
    cases hclosing
  · rw [hidle.2] at hbig
    exact absurd hbig (Nat.not_lt_zero _)

/-- The accept that completed is armed again whatever it brought, unless the ring
or the listener fails. -/
theorem took_ok (run : Dispatch σ) {listeners : Nat} {w : Uring σ} {l : Nat} (hl : l < listeners)
    (h : ({ w with flight := ⟨token ACCEPT l, .accept l⟩ :: w.flight } : Uring σ).Inv listeners none)
    {d : Done σ} (hd : (Op.accept l).Allows w d) :
    ∃ on w', w.took run listeners l d = .ok (on, w') ∧ (on = true → w'.Inv listeners none) := by
  rw [took, if_neg (Nat.not_le.mpr hl)]
  have hrearm : ∃ on w', (if d.armed then pure (true, { w with
      flight := ⟨token ACCEPT l, .accept l⟩ :: w.flight }) else pure (false, w) : Exec (Bool × Uring σ)) =
      .ok (on, w') ∧ (on = true → w'.Inv listeners none) := by
    cases d.armed with
    | true => exact ⟨true, _, rfl, fun _ => h⟩
    | false => exact ⟨false, _, rfl, by simp⟩
  by_cases hneg : d.res < 0
  · rw [if_pos hneg]
    cases d.kind with
    | connectionAborted => exact hrearm
    | interrupted => exact hrearm
    | wouldBlock => exact hrearm
    | other => exact ⟨false, _, rfl, by simp⟩
  · rw [if_neg hneg]
    cases harmed : d.armed with
    | false => exact ⟨false, _, rfl, by simp⟩
    | true =>
      cases hprepared : d.prepared with
      | false => exact ⟨true, _, rfl, fun _ => h⟩
      | true =>
        simp only [Bool.not_true, Bool.false_eq_true, if_false]
        obtain ⟨step, peer, hstep, hex, hans, hopen⟩ := first_open run d.env
        obtain ⟨hlt, hfresh⟩ := hd (Int.not_lt.mp hneg)
        obtain ⟨at_, conns, hput, hget, hinv⟩ := h.put ⟨w.accepted, d.res.toNat, peer⟩ hex
          (by simp only; omega) hfresh (w.accepted + 1)
        simp only at hput
        rw [hstep, ok_bind, hput, ok_bind]
        obtain ⟨on, w', hnext, -, hinv'⟩ := next_ok hinv hget hans hopen d.put
        exact ⟨on, w', hnext, fun _ => hinv'⟩

theorem owes_of_answers {s : Peer σ} {step : Step} (h : Answers s step) (hopen : step ≠ .close) :
    (s.conn.owes = true ↔ ∃ i len, step = .send i len) ∧
      (s.conn.owes = false ↔ ∃ i len, step = .recv i len) := by
  cases step with
  | close => exact absurd rfl hopen
  | send i len =>
    obtain ⟨hat, hpos, hend⟩ := h
    have howes : s.conn.owes = true := by
      apply decide_eq_true
      omega
    simp [howes]
  | recv i len =>
    have howes : s.conn.owes = false := by
      have hnot := (Peer.owes_iff s.conn).not.mpr (by simp [h.1])
      simpa using hnot
    simp [howes]

theorem delivered_owes {held : Held σ} {at_ who : Nat} {step : Step} {w : Uring σ} {d : Done σ}
    (hex : held.peer.Exact) (hwho : held.who = who) (hans : Answers held.peer step)
    (hopen : step ≠ .close) (hd : (Op.carry at_ who step).Allows w d) (hpos : 0 < d.res) :
    ∃ held', delivered held (.carry at_ who step) d = .ok held' ∧
      (held'.peer.conn.owes = true ↔ ∃ i len, step = .send i len) := by
  have howes := (owes_of_answers hans hopen).1
  cases step with
  | close => exact absurd rfl hopen
  | recv i len =>
    obtain ⟨-, -, -, hat, hend, -⟩ := hans
    obtain ⟨hle, hdata⟩ := hd
    have hlen := hdata hpos
    have hfits : held.peer.conn.filled + d.data.length ≤ held.peer.conn.buf.length := by omega
    obtain ⟨peer, hland, -⟩ := Peer.arrived_ok hex hfits
    rw [← hat] at hland
    have hsame : peer.conn.owes = held.peer.conn.owes := by
      obtain ⟨buf, -, hpeer⟩ := bind_ok_iff.mp hland
      rw [← Except.ok.inj hpeer]
      rfl
    refine ⟨{ held with peer }, ?_, ?_⟩
    · simp only [delivered, hwho, if_true, hland, ok_bind, pure_ok]
    · rw [hsame]
      exact howes
  | send i len =>
    refine ⟨{ held with peer := held.peer.left i d.res.toNat }, ?_, howes⟩
    simp only [delivered, hwho, if_true, pure_ok]

theorem delivered_ok {held : Held σ} {at_ who : Nat} {step : Step} {w : Uring σ} {d : Done σ}
    (hex : held.peer.Exact) (hwho : held.who = who) (hans : Answers held.peer step)
    (hopen : step ≠ .close) (hd : (Op.carry at_ who step).Allows w d) (hpos : 0 < d.res) :
    ∃ held', delivered held (.carry at_ who step) d = .ok held' ∧ held'.fd = held.fd ∧
      held'.who = held.who ∧ (credited held'.peer d.res.toNat).Exact := by
  obtain ⟨held', hdel, howes⟩ := delivered_owes hex hwho hans hopen hd hpos
  have hring : (⟨held.peer, some step⟩ : Ringed σ).Inv := by
    refine ⟨hex, ?_⟩
    intro answer ha
    cases ha
    exact hans
  refine ⟨held', hdel, ?_⟩
  cases step with
  | close => exact absurd rfl hopen
  | recv i len =>
    obtain ⟨hle, hdata⟩ := hd
    simp only [delivered, hwho, if_true] at hdel
    obtain ⟨peer, hland, hheld⟩ := bind_ok_iff.mp hdel
    cases Except.ok.inj hheld
    refine ⟨rfl, hwho.symm, ?_⟩
    have hfill := hring.arrived rfl (by have := hdata hpos; omega) hland
    rw [credited, if_neg (howes.not.mpr (by simp)), ← hdata hpos]
    exact hfill.exact
  | send i len =>
    have hle : d.res.toNat ≤ len := by
      have : d.res ≤ len := hd
      omega
    simp only [delivered, hwho, if_true, pure_ok] at hdel
    cases Except.ok.inj hdel
    refine ⟨rfl, hwho.symm, ?_⟩
    rw [credited, if_pos (howes.mpr ⟨i, len, rfl⟩)]
    exact (hring.written rfl hle).exact

/-- The connection told how far the operation it had in flight came. -/
def credit (step : Step) (s : Peer σ) (bytes : Nat) : Peer σ :=
  match step with
  | .send .. => { s with conn := s.conn.written bytes }
  | .recv .. => { s with conn := s.conn.arrived bytes }
  | .close => s

/-- Which buffer a count is for is not read off the operation, and comes to the same. -/
theorem credited_eq {s : Peer σ} {step : Step} (howes : s.conn.owes = true ↔ ∃ i len, step = .send i len)
    (hopen : step ≠ .close) (bytes : Nat) : credited s bytes = credit step s bytes := by
  cases step with
  | close => exact absurd rfl hopen
  | send i len => exact if_pos (howes.mpr ⟨i, len, rfl⟩)
  | recv i len =>
    apply if_neg
    rw [howes]
    rintro ⟨i', len', hstep⟩
    cases hstep

/-- What a completed read or write leaves in its slot: nothing, where it failed or came to
the end; else the connection, with what the kernel did to its buffer, the count credited to the
buffer that was for, and then as far as it goes by itself. No other slot is touched. -/
def Credits (run : Dispatch σ) (w : Uring σ) (f : Flight) (d : Done σ) (w' : Uring σ) : Prop :=
  ∀ at_ who step held, f.op = .carry at_ who step → w.conns.get? at_ = some held →
    if d.res ≤ 0 then w.conns.Changed w'.conns at_ none
    else ∃ held' next peer, delivered held f.op d = .ok held' ∧
      Peer.stepLoop run 2 { credit step held'.peer d.res.toNat with env := d.env } = .ok (next, peer) ∧
      w.conns.Changed w'.conns at_ (if next ≠ .close ∧ d.put = true then some { held' with peer } else none)

theorem carried_ok (run : Dispatch σ) {listeners : Nat} {w : Uring σ} {at_ : Nat}
    (h : w.Inv listeners (some at_)) {held : Held σ} (hget : w.conns.get? at_ = some held) {step : Step}
    (hans : Answers held.peer step) (hopen : step ≠ .close) {d : Done σ} {f : Flight}
    (hop : f.op = .carry at_ held.who step) (hd : f.op.Allows w d) :
    ∃ on w', w.carried run at_ f.op d = .ok (on, w') ∧ w'.Inv listeners none ∧ w.Credits run f d w' := by
  have hd' := hd
  rw [hop] at hd'
  rw [carried]
  by_cases hres : d.res ≤ 0
  -- it failed or the peer is gone: the slot is given up
  · obtain ⟨w', hdiscard, hchanged, hinv⟩ := h.discard hget
    refine ⟨true, w', by rw [if_pos hres, hdiscard]; rfl, hinv, ?_⟩
    intro at' who' step' held' hop' hget'
    rw [hop, Op.carry.injEq] at hop'
    obtain ⟨rfl, rfl, rfl⟩ := hop'
    rw [if_pos hres]
    exact hchanged
  · rw [if_neg hres, hget]
    have hpos := Int.not_le.mp hres
    -- the bytes go to the buffer of the operation in flight, which the cursors give away
    obtain ⟨held', hdel, hfd, hwho, hex⟩ := delivered_ok (h.exact at_ held hget) rfl hans hopen hd' hpos
    obtain ⟨held'', hdel', howes⟩ := delivered_owes (h.exact at_ held hget) rfl hans hopen hd' hpos
    rw [hdel] at hdel'
    cases hdel'
    rw [← hop] at hdel
    have hshared : ({ credited held'.peer d.res.toNat with env := d.env } : Peer σ).Exact :=
      ⟨hex.sane, hex.bytes, hex.replies, hex.framed, hex.ends⟩
    obtain ⟨next, peer, hall, hstepped⟩ := Peer.stepLoop_ok run hshared
    obtain ⟨conns, hset, hchanged, hinv⟩ := h.set { held' with peer } hget hfd hstepped.exact
    have hcredits : ∀ w' : Uring σ, w.conns.Changed w'.conns at_
        (if next ≠ .close ∧ d.put = true then some { held' with peer } else none) →
        w.Credits run f d w' := by
      intro w' hleft at' who' step' held₀ hop' hget'
      rw [hop, Op.carry.injEq] at hop'
      obtain ⟨rfl, rfl, rfl⟩ := hop'
      rw [hget] at hget'
      cases hget'
      rw [if_neg hres]
      refine ⟨held', next, peer, hdel, ?_, hleft⟩
      rw [← credited_eq howes hopen]
      exact hall 0
    simp only [hdel, ok_bind, hall 0, hset]
    by_cases hclose : next = .close
    · obtain ⟨w', hdiscard, hcleared, hinv'⟩ := hinv.discard hchanged.1
      refine ⟨true, w', by rw [if_pos hclose, hdiscard]; rfl, hinv', hcredits w' ?_⟩
      rw [if_neg (by simp [hclose])]
      exact hchanged.trans hcleared
    · rw [if_neg hclose]
      obtain ⟨on, w', hnext, hsubmitted, hinv'⟩ := next_ok hinv hchanged.1 hstepped.answers hclose d.put
      refine ⟨on, w', hnext, hinv', hcredits w' ?_⟩
      simp only [ne_eq, hclose, not_false_eq_true, true_and]
      exact hchanged.trans hsubmitted

theorem Inv.index {listeners : Nat} {w : Uring σ} {idle : Option Nat} (h : w.Inv listeners idle)
    {f : Flight} (hf : f ∈ w.flight) {at_ who : Nat} {step : Step} (hop : f.op = .carry at_ who step) :
    (f.userData &&& INDEX).toNat = at_ := by
  obtain ⟨hopen, held, hget, -⟩ := h.owner f hf at_ who step hop
  have hlt : at_ < 2 ^ 62 := by
    have h1 := Slab.get?_lt hget
    have h2 := h.size
    omega
  rw [h.tokens f hf, hop]
  cases step with
  | close => exact absurd rfl hopen
  | recv i len => exact token_index (by decide) hlt
  | send i len => exact token_index (by decide) hlt

/-- The user data of an accept says that it is one, and on which listener. -/
theorem Inv.accepting {listeners : Nat} (hl : listeners ≤ 2 ^ 62) {w : Uring σ} {idle : Option Nat}
    (h : w.Inv listeners idle) {f : Flight} (hf : f ∈ w.flight) {l : Nat} (hop : f.op = .accept l) :
    l < listeners ∧ f.userData &&& ~~~INDEX = ACCEPT ∧ (f.userData &&& INDEX).toNat = l := by
  have hlt : l < listeners := by
    have hmem : l ∈ listening w.flight := by
      rw [listening, List.mem_filterMap]
      exact ⟨f, hf, by rw [hop]; rfl⟩
    exact List.mem_range.mp (h.listened.mem_iff.mp hmem)
  have hdata : f.userData = token ACCEPT l := by
    rw [h.tokens f hf, hop]
    rfl
  rw [hdata]
  exact ⟨hlt, token_kind (by decide), token_index (by decide) (by omega)⟩

theorem handle_ok (run : Dispatch σ) {listeners : Nat} (hl : listeners ≤ 2 ^ 62) {w : Uring σ}
    {f : Flight} (h : ({ w with flight := f :: w.flight } : Uring σ).Inv listeners none) {d : Done σ}
    (hd : f.op.Allows w d) :
    ∃ on w', w.handle run listeners f d = .ok (on, w') ∧ (on = true → w'.Inv listeners none) ∧
      w.Credits run f d w' := by
  have htoken := h.tokens f List.mem_cons_self
  -- only reads and writes have anything to credit
  have hother : ∀ {w' : Uring σ}, (∀ at_ who step, f.op ≠ .carry at_ who step) → w.Credits run f d w' :=
    fun hnone at_ who step _ hop => absurd hop (hnone at_ who step)
  cases hop : f.op with
  | accept l =>
    obtain ⟨hlt, hkind, hindex⟩ := h.accepting hl List.mem_cons_self hop
    have hf : f = ⟨token ACCEPT l, .accept l⟩ := by
      cases f
      simp only at hop htoken
      rw [htoken, hop]
      rfl
    rw [handle, hindex, if_pos hkind]
    rw [hf] at h
    rw [hop] at hd
    obtain ⟨on, w', htook, hinv⟩ := took_ok run hlt h hd
    exact ⟨on, w', htook, hinv, hother (by simp [hop])⟩
  | tick =>
    have hdata : f.userData = TICK := by
      rw [htoken, hop]
      rfl
    have hkind : f.userData &&& ~~~INDEX ≠ ACCEPT ∧
        ¬ (f.userData &&& ~~~INDEX = RECV ∨ f.userData &&& ~~~INDEX = SEND) := by
      rw [hdata]
      decide
    have hf : f = ⟨TICK, .tick⟩ := by
      cases f
      simp only at hop hdata
      rw [hdata, hop]
    rw [handle, if_neg hkind.1, if_neg hkind.2]
    rw [hf] at h
    cases d.armed with
    | true => exact ⟨true, _, rfl, fun _ => h, hother (by simp [hop])⟩
    | false => exact ⟨false, _, rfl, by simp, hother (by simp [hop])⟩
  | carry at_ who step =>
    obtain ⟨hopen, held, hget, hwho, hans⟩ := h.owner f List.mem_cons_self at_ who step hop
    have hindex := h.index List.mem_cons_self hop
    -- a read and a write are told apart by nobody but the connection
    have hkind : f.userData &&& ~~~INDEX ≠ ACCEPT ∧
        (f.userData &&& ~~~INDEX = RECV ∨ f.userData &&& ~~~INDEX = SEND) := by
      rw [htoken, hop]
      cases step with
      | close => exact absurd rfl hopen
      | recv i len =>
        have hdata : (Op.carry at_ who (.recv i len)).userData = token RECV at_ := rfl
        rw [hdata, token_kind (by decide)]
        exact ⟨by decide, .inl rfl⟩
      | send i len =>
        have hdata : (Op.carry at_ who (.send i len)).userData = token SEND at_ := rfl
        rw [hdata, token_kind (by decide)]
        exact ⟨by decide, .inr rfl⟩
    have hidle := h.completed hop
    rw [← hwho] at hop
    obtain ⟨on, w', hcarried, hinv, hcredits⟩ := carried_ok run hidle hget hans hopen hop hd
    refine ⟨on, w', ?_, fun _ => hinv, hcredits⟩
    rw [handle, if_neg hkind.1, if_pos hkind.2, hindex]
    exact hcarried

end Uring

/-! ## Runs -/

theorem Thread.inv_new (listeners : Nat) :
    (Thread.new listeners : Thread σ).serving = true → (Thread.new listeners : Thread σ).ring.Inv listeners none :=
  fun _ => Uring.inv_new listeners

theorem Uring.Inv.handled (run : Dispatch σ) {listeners : Nat} (hl : listeners ≤ 2 ^ 62) {w : Uring σ}
    (h : w.Inv listeners none) {before after : List Flight} {f : Flight}
    (hsplit : w.flight = before ++ f :: after) {d : Done σ} (hd : f.op.Allows w d) :
    ∃ on w', { w with flight := before ++ after }.handle run listeners f d = .ok (on, w') ∧
      (on = true → w'.Inv listeners none) ∧ w.Credits run f d w' := by
  have hperm : w.flight.Perm (f :: (before ++ after)) := by
    rw [hsplit]
    exact List.perm_middle
  have hallows : f.op.Allows ({ w with flight := before ++ after } : Uring σ) d := by
    cases hop : f.op <;> rw [hop] at hd <;> exact hd
  exact handle_ok run hl (w := { w with flight := before ++ after }) (h.perm hperm) hallows

theorem Completes.inv (run : Dispatch σ) {listeners : Nat} (hl : listeners ≤ 2 ^ 62) {t : Thread σ}
    {x : Flight × Done σ} {t' : Thread σ} (h : t.serving = true → t.ring.Inv listeners none)
    (hs : Completes run listeners t x t') : t'.serving = true → t'.ring.Inv listeners none := by
  cases hs with
  | mk hserving hsplit hallows hhandle =>
    obtain ⟨on', ring', hok, hinv, -⟩ := (h hserving).handled run hl hsplit hallows
    rw [hhandle] at hok
    cases hok
    exact hinv

/-! ## One operation for each connection -/

namespace Uring

/-- What is in flight matches the connections there are. -/
structure Matched (w : Uring σ) : Prop where
  /-- An occupied slot has one operation in flight. -/
  occupied : ∀ at_ held, w.conns.get? at_ = some held → (carrying w.flight).count at_ = 1
  /-- A free slot is empty, and has none. -/
  free : ∀ at_ ∈ w.conns.free, w.conns.get? at_ = none ∧ at_ ∉ carrying w.flight
  once : w.conns.free.Nodup
  /-- The slot in the user data holds the connection that submitted the operation,
  and the connection says which of the two operations it was. -/
  owner : ∀ f ∈ w.flight, ∀ at_ who step, f.op = .carry at_ who step →
    (f.userData &&& INDEX).toNat = at_ ∧ ∃ held, w.conns.get? at_ = some held ∧ held.who = who ∧
      (held.peer.conn.owes = true ↔ ∃ i len, step = .send i len) ∧
      (held.peer.conn.owes = false ↔ ∃ i len, step = .recv i len)

theorem Inv.matched {listeners : Nat} {w : Uring σ} (h : w.Inv listeners none) : w.Matched where
  occupied := by
    intro at_ held hget
    apply List.count_eq_one_of_mem h.once
    rw [h.owned, hget]
    exact ⟨rfl, by simp⟩
  free := by
    intro at_ hfree
    have hnone := h.sound.get?_free hfree
    refine ⟨hnone, ?_⟩
    rw [h.owned, hnone]
    simp
  once := h.sound.nodup
  owner := by
    intro f hf at_ who step hop
    obtain ⟨hopen, held, hget, hwho, hans⟩ := h.owner f hf at_ who step hop
    obtain ⟨hsend, hrecv⟩ := owes_of_answers hans hopen
    exact ⟨h.index hf hop, held, hget, hwho, hsend, hrecv⟩

end Uring

/-- In every state in which a thread on the ring is serving, each connection has
one operation in flight, of its own; and whatever completes next, with any result,
is handled, and credited to the buffer it was for. -/
theorem one_operation_each (run : Dispatch σ) {listeners : Nat} (hl : listeners ≤ 2 ^ 62)
    {tr : List (Thread σ × (Flight × Done σ) × Thread σ)} {t : Thread σ}
    (h : Run (Completes run listeners) (.new listeners) tr t) (hserving : t.serving = true) :
    t.ring.Matched ∧ ∀ before f after d, t.ring.flight = before ++ f :: after → f.op.Allows t.ring d →
      ∃ on w, { t.ring with flight := before ++ after }.handle run listeners f d = .ok (on, w) ∧
        t.ring.Credits run f d w := by
  have hinv := (h.steps (I := fun t => t.serving = true → t.ring.Inv listeners none)
    (Thread.inv_new listeners) (fun _ _ _ hinv hs => Completes.inv run hl hinv hs)).1 hserving
  refine ⟨hinv.matched, ?_⟩
  intro before f after d hsplit hallows
  obtain ⟨on, w, hhandle, -, hcredits⟩ := hinv.handled run hl hsplit hallows
  exact ⟨on, w, hhandle, hcredits⟩

/-- Nothing is done by a connection here. -/
def silent : Dispatch Unit := fun env _ dialect => ⟨env, [], dialect, false⟩

/-- A connection accepted, whose first operation is in flight. -/
theorem one_operation_each_accepted : ∃ tr t f, Run (Completes silent 1) (.new 1) tr t ∧ t.serving = true ∧
    f ∈ t.ring.flight ∧ (∃ at_ who step, f.op = .carry at_ who step) ∧ t.ring.Matched ∧
    ∀ before f after d, t.ring.flight = before ++ f :: after → f.op.Allows t.ring d →
      ∃ on w, { t.ring with flight := before ++ after }.handle silent 1 f d = .ok (on, w) ∧
        t.ring.Credits silent f d w := by
  have h0 : Run (Completes silent 1) (.new 1) [] (.new 1) := .nil
  let taken : Done Unit := ⟨8, [], .other, true, true, true, ()⟩
  have hcompletes : ∀ {t : Thread Unit} {before f after d on ring}, t.serving = true →
      t.ring.flight = before ++ f :: after → f.op.Allows t.ring d →
      { t.ring with flight := before ++ after }.handle silent 1 f d = .ok (on, ring) →
      Completes silent 1 t (f, d) ⟨ring, on⟩ := .mk
  have hallows : (Op.accept 0).Allows (Thread.new 1 : Thread Unit).ring taken := by
    refine fun _ => ⟨by decide, ?_⟩
    simp [Thread.new, Uring.new, Slab.empty, Slab.get?]
  obtain ⟨step, peer, hstep, -, -, hopen⟩ := Uring.first_open silent ()
  have htook : ∀ w : Uring Unit, w.conns = .empty → w.took silent 1 0 taken =
      .ok (true, Uring.submit ⟨⟨[some ⟨w.accepted, 8, peer⟩], []⟩,
        ⟨token ACCEPT 0, .accept 0⟩ :: w.flight, w.accepted + 1⟩ step 0 w.accepted) := by
    intro w hempty
    rw [Uring.took, hempty]
    simp only [taken, hstep, ok_bind]
    rfl
  have h1 := h0.snoc (hcompletes rfl (List.nil_append _).symm hallows (htook _ rfl))
  have hflight : ∀ w : Uring Unit, ∃ f ∈ (w.submit step 0 0).flight, f.op = .carry 0 0 step := by
    intro w
    cases step with
    | recv at_ len => exact ⟨_, List.mem_cons_self, rfl⟩
    | send at_ len => exact ⟨_, List.mem_cons_self, rfl⟩
    | close => exact absurd rfl hopen
  obtain ⟨f, hf, hop⟩ := hflight _
  exact ⟨_, _, f, h1, rfl, hf, ⟨_, _, _, hop⟩, one_operation_each silent (by decide) h1 rfl⟩

/-! ## An accept whose client was gone -/

/-- What one step of the readiness loop owes the others when an accept finds its
client gone: the thread goes on, the listener is watched, and the connections are
where and what they were. -/
def Polls.Spared (listeners : Nat) (x : Loop σ × Happened σ × Loop σ) : Prop :=
  ∀ e g, x.2.1 = .handled e g → e.token < listeners → g.accepts.fails = some .connectionAborted →
    x.2.2.serving = true ∧ e.token ∈ x.2.2.worker.watched ∧ x.2.2.worker.conns = x.1.worker.conns

/-- The same of one completion on the ring: an accept is in flight again. -/
def Completes.Spared (x : Thread σ × (Flight × Done σ) × Thread σ) : Prop :=
  ∀ l, x.2.1.1.op = .accept l → x.2.1.2.res < 0 → x.2.1.2.kind = .connectionAborted →
    x.2.2.serving = true ∧ (∃ f ∈ x.2.2.ring.flight, f.op = .accept l) ∧
      x.2.2.ring.conns = x.1.ring.conns

/-- Whether a thread goes on after what it has done. -/
def GoesOn {α : Type} (done : Exec (Bool × α)) : Prop := ∃ a, done = .ok (true, a)

/-- A step of the readiness loop spares the others unless there is somebody to
spare them from. -/
theorem Polls.spared_iff (run : Dispatch σ) {listeners : Nat} {l : Loop σ} {x : Happened σ} {l' : Loop σ}
    (hs : Polls run listeners l x l') : Polls.Spared listeners (l, x, l') ↔
      ∀ e g, x = .handled e g → e.token < listeners → g.accepts.fails ≠ some .connectionAborted := by
  constructor
  · rintro hspared e g rfl hlt hfails
    obtain ⟨hserving, -⟩ := hspared e g rfl hlt hfails
    cases hs with
    | handled _ _ hhandle =>
      rw [Worker.handle, if_pos hlt, Worker.take_failed _ _ _ hfails] at hhandle
      cases hhandle
      cases hserving
  · intro hnone e g hlabel hlt hfails
    exact absurd hfails (hnone e g hlabel hlt)

theorem Uring.took_failed (run : Dispatch σ) {listeners : Nat} (w : Uring σ) {l : Nat} (hl : l < listeners)
    {d : Done σ} (hneg : d.res < 0) :
    w.took run listeners l d = if d.kind ≠ .other ∧ d.armed = true then
      .ok (true, { w with flight := ⟨token ACCEPT l, .accept l⟩ :: w.flight }) else .ok (false, w) := by
  rw [took, if_neg (Nat.not_le.mpr hl), if_pos hneg]
  cases d.kind <;> cases d.armed <;> rfl

/-- A completion spares the others exactly when the ring takes the accept again. -/
theorem Completes.spared_iff (run : Dispatch σ) {listeners : Nat} (hl : listeners ≤ 2 ^ 62) {t : Thread σ}
    {x : Flight × Done σ} {t' : Thread σ} (h : t.serving = true → t.ring.Inv listeners none)
    (hs : Completes run listeners t x t') : Completes.Spared (t, x, t') ↔
      ∀ l, x.1.op = .accept l → x.2.res < 0 → x.2.kind = .connectionAborted → x.2.armed = true := by
  cases hs with
  | @mk before f after d on ring hserving hsplit hallows hhandle =>
    have hfailed : ∀ l, f.op = .accept l → d.res < 0 → d.kind = .connectionAborted →
        (if d.armed = true then .ok (true, { t.ring with
          flight := ⟨token ACCEPT l, .accept l⟩ :: (before ++ after) }) else
          .ok (false, { t.ring with flight := before ++ after }) : Exec (Bool × Uring σ)) = .ok (on, ring) := by
      intro l hop hneg hkind
      obtain ⟨hlt, haccept, hindex⟩ := (h hserving).accepting hl (by simp [hsplit]) hop
      rw [Uring.handle, hindex, if_pos haccept, Uring.took_failed run _ hlt hneg, hkind] at hhandle
      simpa using hhandle
    constructor
    · intro hspared l hop hneg hkind
      have hgoes := (hspared l hop hneg hkind).1
      have hon := hfailed l hop hneg hkind
      cases harmed : d.armed with
      | true => rfl
      | false =>
        rw [harmed, if_neg Bool.false_ne_true] at hon
        cases hon
        cases hgoes
    · intro hall l hop hneg hkind
      have hon := hfailed l hop hneg hkind
      rw [if_pos (hall l hop hneg hkind)] at hon
      cases hon
      exact ⟨rfl, ⟨_, List.mem_cons_self, rfl⟩, rfl⟩

/-- The answers to a call that fails this way. Where that makes the call again, nobody is there. -/
def Accepts.of (kind : ErrorKind) : Accepts :=
  if again : kind = .interrupted then .interrupted (.failed .wouldBlock (by decide))
  else .failed kind again

/-- The loops go on after the same failures, but for one. -/
theorem goesOn_iff (run : Dispatch σ) {listeners : Nat} (w : Worker σ) (u : Uring σ) {l : Nat}
    (hl : l < listeners) {d : Done σ} (hneg : d.res < 0) (harmed : d.armed = true) :
    (GoesOn (w.take listeners d.env (.of d.kind)) ↔ GoesOn (u.took run listeners l d)) ↔
      d.kind ≠ .connectionAborted := by
  have htake : GoesOn (w.take listeners d.env (.of d.kind)) ↔ d.kind = .wouldBlock ∨ d.kind = .interrupted := by
    constructor
    · rintro ⟨w', hok⟩
      cases hkind : d.kind with
      | wouldBlock => exact .inl rfl
      | interrupted => exact .inr rfl
      | connectionAborted | other =>
        rw [hkind] at hok
        cases hok
    · rintro (hkind | hkind)
      · rw [hkind]
        exact ⟨w, rfl⟩
      · rw [hkind]
        exact ⟨w, rfl⟩
  have htook : GoesOn (u.took run listeners l d) ↔ d.kind ≠ .other := by
    rw [u.took_failed run hl hneg, harmed]
    constructor
    · rintro ⟨u', hok⟩ hkind
      rw [hkind] at hok
      cases hok
    · intro hkind
      exact ⟨_, if_pos ⟨hkind, rfl⟩⟩
  rw [htake, htook]
  cases d.kind <;> decide

/-- An accept that finds its client gone costs the others nothing, on either
loop, and the loops agree on which failures are ordinary: exactly when it never
happens to the readiness loop, the ring takes the accept again each time, and the
failure is not this one. -/
theorem aborted_iff (run : Dispatch σ) {listeners : Nat} (hl : listeners ≤ 2 ^ 62)
    {ptr : List (Loop σ × Happened σ × Loop σ)} {p : Loop σ}
    (hp : Run (Polls run listeners) (.new listeners) ptr p)
    {rtr : List (Thread σ × (Flight × Done σ) × Thread σ)} {r : Thread σ}
    (hr : Run (Completes run listeners) (.new listeners) rtr r) {l : Nat} (hlt : l < listeners)
    {d : Done σ} (hneg : d.res < 0) (harmed : d.armed = true) :
    ((∀ x ∈ ptr, Polls.Spared listeners x) ∧ (∀ x ∈ rtr, Completes.Spared x) ∧
        (GoesOn (p.worker.take listeners d.env (.of d.kind)) ↔ GoesOn (r.ring.took run listeners l d))) ↔
      (∀ x ∈ ptr, ∀ e g, x.2.1 = .handled e g → e.token < listeners →
        g.accepts.fails ≠ some .connectionAborted) ∧
      (∀ x ∈ rtr, ∀ l, x.2.1.1.op = .accept l → x.2.1.2.res < 0 → x.2.1.2.kind = .connectionAborted →
        x.2.1.2.armed = true) ∧
      d.kind ≠ .connectionAborted := by
  have hpolls := (hp.steps (I := fun _ => True) trivial (fun _ _ _ _ _ => trivial)).2
  have hrings := (hr.steps (I := fun t => t.serving = true → t.ring.Inv listeners none)
    (Thread.inv_new listeners) (fun _ _ _ hinv hs => Completes.inv run hl hinv hs)).2
  have hpoll : (∀ x ∈ ptr, Polls.Spared listeners x) ↔ ∀ x ∈ ptr, ∀ e g, x.2.1 = .handled e g →
      e.token < listeners → g.accepts.fails ≠ some .connectionAborted :=
    forall₂_congr fun x hx => Polls.spared_iff run (hpolls x hx).2
  have hring : (∀ x ∈ rtr, Completes.Spared x) ↔ ∀ x ∈ rtr, ∀ l, x.2.1.1.op = .accept l →
      x.2.1.2.res < 0 → x.2.1.2.kind = .connectionAborted → x.2.1.2.armed = true :=
    forall₂_congr fun x hx => Completes.spared_iff run hl (hrings x hx).1 (hrings x hx).2
  rw [hpoll, hring, goesOn_iff run p.worker r.ring hlt hneg harmed]

/-- A client gone before it was taken, on the ring; nobody there yet, on the other. -/
theorem aborted_rearmed : ∃ ptr p rtr r, Run (Polls silent 1) (.new 1) ptr p ∧
    Run (Completes silent 1) (.new 1) rtr r ∧ ptr.length = 1 ∧ rtr.length = 1 ∧
    ((∀ x ∈ ptr, Polls.Spared 1 x) ∧ (∀ x ∈ rtr, Completes.Spared x) ∧
        (GoesOn (p.worker.take 1 () (.of .wouldBlock)) ↔
          GoesOn (r.ring.took silent 1 0 ⟨-11, [], .wouldBlock, true, true, true, ()⟩)) ↔
      (∀ x ∈ ptr, ∀ e g, x.2.1 = .handled e g → e.token < 1 →
        g.accepts.fails ≠ some .connectionAborted) ∧
      (∀ x ∈ rtr, ∀ l, x.2.1.1.op = .accept l → x.2.1.2.res < 0 → x.2.1.2.kind = .connectionAborted →
        x.2.1.2.armed = true) ∧
      ErrorKind.wouldBlock ≠ .connectionAborted) := by
  have hp : Run (Polls silent 1) (.new 1) [] (.new 1) := .nil
  have hr : Run (Completes silent 1) (.new 1) [] (.new 1) := .nil
  have hready : ∀ e ∈ [(⟨0, true, false, false⟩ : Ready)],
      e.token ∈ (Loop.new 1 : Loop Unit).worker.watched := by decide
  have hp' := hp.snoc (.waited rfl rfl hready)
  let gone : Done Unit := ⟨-103, [], .connectionAborted, true, true, true, ()⟩
  have hcompletes : ∀ {t : Thread Unit} {before f after d on ring}, t.serving = true →
      t.ring.flight = before ++ f :: after → f.op.Allows t.ring d →
      { t.ring with flight := before ++ after }.handle silent 1 f d = .ok (on, ring) →
      Completes silent 1 t (f, d) ⟨ring, on⟩ := .mk
  have hallows : (Op.accept 0).Allows (Thread.new 1 : Thread Unit).ring gone := by
    intro hle
    exact absurd hle (by decide)
  have hr' := hr.snoc (hcompletes rfl (List.nil_append _).symm hallows rfl)
  let none_there : Done Unit := ⟨-11, [], .wouldBlock, true, true, true, ()⟩
  have hneg : none_there.res < 0 := by decide
  exact ⟨_, _, _, _, hp', hr', rfl, rfl,
    aborted_iff silent (by decide) hp' hr' Nat.zero_lt_one hneg rfl⟩

/-- The readiness loop stops on an accept whose client was gone. -/
theorem aborted_stops : ¬ ∀ (ptr : List (Loop Unit × Happened Unit × Loop Unit)) (p : Loop Unit),
    Run (Polls silent 1) (.new 1) ptr p → ∀ x ∈ ptr, Polls.Spared 1 x := by
  intro hall
  let g : Given Unit := ⟨.failed .connectionAborted (by decide), (), ⟨.wouldBlock, .wouldBlock, .wouldBlock⟩, true⟩
  have h0 : Run (Polls silent 1) (.new 1) [] (.new 1) := .nil
  have hready : ∀ e ∈ [(⟨0, true, false, false⟩ : Ready)],
      e.token ∈ (Loop.new 1 : Loop Unit).worker.watched := by decide
  have hhandled : ∀ {l : Loop Unit} {e batch on worker}, l.serving = true → l.batch = e :: batch →
      l.worker.handle silent 1 e g = .ok (on, worker) →
      Polls silent 1 l (.handled e g) { l with worker, batch, serving := on } := .handled
  have h1 := h0.snoc (.waited rfl rfl hready)
  have h2 := h1.snoc (hhandled rfl rfl rfl)
  have hspared := hall _ _ h2 _ (List.mem_append_right _ (List.mem_singleton.mpr rfl))
  exact absurd (hspared _ _ rfl (by decide) rfl).1 Bool.false_ne_true

end Rugo
