import Mathlib.Logic.Function.Basic
import Rugo.Lib.Prog

/- The lock over a shard (`rugo-map/src/lock.rs`), and threads whose calls run under
   locks.

   `lock` is a loop: an exchange, which may fail though the lock is free, and after a
   failure loads of the flag until one reads that nobody holds it. A load is relaxed, so
   what it reads may be old. The exchange that succeeds acquires what the store that let
   the lock go released: a holder has the value to itself, and the lock keeps what the
   last holder left in it.

   What a holder shows those who do not take the lock (`Shard::publish`) it stores before
   it lets go. A `Service` says what a call does: run under one cell's lock, or look at
   what a cell shows, or neither.

     1. `Linear.run`: what the threads do is whole calls of theirs, one after another; a
        call is made where its holder publishes.
     2. `Linear.alone`: nobody but its holder is under a lock. -/
namespace Rugo
open Exec Progs Runs

/-! ## One lock -/

/-- An exclusive lock that spins: whether somebody holds it, and what it guards, as the
last store to `held` released it. -/
structure Lock (σ : Type) where
  held : Bool
  value : σ

namespace Lock
variable {σ : Type}

/-- Spins before the thread gives up its turn. -/
def spins : Nat := 40

def new (value : σ) : Lock σ := ⟨false, value⟩

/-- The exchange of `try_lock`, where it does not fail for nothing: what the holder finds. -/
def tryLock (lock : Lock σ) : Option (σ × Lock σ) :=
  if lock.held then none else some (lock.value, { lock with held := true })

/-- `Guard::drop`, by a holder who leaves this. -/
def drop (_ : Lock σ) (left : σ) : Lock σ := ⟨false, left⟩

theorem tryLock_eq_some {lock lock' : Lock σ} {seen : σ} :
    lock.tryLock = some (seen, lock') ↔ lock.held = false ∧ seen = lock.value ∧ lock' = ⟨true, lock.value⟩ := by
  rw [tryLock]
  cases lock.held <;> simp [eq_comm]

end Lock

/-! ## What calls do -/

structure Guarded (σ π : Type) where
  lock : Lock σ
  shown : π

/-- What a call does. -/
inductive Act (σ π A : Type) where
  /-- It runs under the lock of a cell. -/
  | under (at_ : Nat) (section_ : σ → Exec (A × σ))
  /-- It loads what a cell shows. -/
  | look (at_ : Nat) (read : π → A)
  | alone (answer : A)

def Act.at_ {σ π A : Type} : Act σ π A → Option Nat
  | under at_ _ => some at_
  | look at_ _ => some at_
  | alone _ => none

/-- What each call does, and what is shown of a value. -/
structure Service {Op : Type} (Answer : Op → Type) (σ π ι : Type) where
  act : ι → (op : Op) → Act σ π (Answer op)
  publish : σ → π

variable {Op : Type} {Answer : Op → Type} {σ π ι α : Type}

/-- A call that is made in one step. -/
def Service.perform (v : Service Answer σ π ι) (sky : ι) (values : List σ) (op : Op) : Exec (Answer op × List σ) :=
  match v.act sky op with
  | .under at_ section_ => do
    let value ← index values at_
    let (answer, value) ← section_ value
    let values ← update values at_ value
    pure (answer, values)
  | .look at_ read => do
    let value ← index values at_
    pure (read (v.publish value), values)
  | .alone answer => pure (answer, values)

/-! ## Threads -/

/-- How far a thread is: between two calls, or with one of them. -/
inductive Caller {Op : Type} (Answer : Op → Type) (σ ι α : Type) where
  | running (x : Prog Answer α)
  /-- At the exchange. -/
  | trying (sky : ι) (op : Op) (next : Answer op → Prog Answer α)
  /-- At the loads of the flag, of which it has made so many. -/
  | waiting (sky : ι) (op : Op) (next : Answer op → Prog Answer α) (spun : Nat)
  /-- It has the lock, and has found this. -/
  | inside (sky : ι) (op : Op) (next : Answer op → Prog Answer α) (seen : σ)
  /-- The section has run. -/
  | done (sky : ι) (op : Op) (next : Answer op → Prog Answer α) (answer : Answer op) (left : σ)
  /-- What it left is shown. -/
  | leaving (sky : ι) (op : Op) (next : Answer op → Prog Answer α) (answer : Answer op) (left : σ)

namespace Caller

/-- What a thread has still to do, once the call it is with has been made or before. -/
def program : Caller Answer σ ι α → Prog Answer α
  | running x => x
  | trying _ op next => .call op next
  | waiting _ op next _ => .call op next
  | inside _ op next _ => .call op next
  | done _ op next _ _ => .call op next
  | leaving _ _ next answer _ => next answer

def holds (v : Service Answer σ π ι) : Caller Answer σ ι α → Option Nat
  | inside sky op _ _ => (v.act sky op).at_
  | done sky op _ _ _ => (v.act sky op).at_
  | leaving sky op _ _ _ => (v.act sky op).at_
  | _ => none

end Caller

/-- The cells, and the threads at work on them. -/
structure Machine {Op : Type} (Answer : Op → Type) (σ π ι α : Type) where
  cells : List (Guarded σ π)
  threads : List (Caller Answer σ ι α)

/-- What a thread may do next. -/
inductive Move {Op : Type} (Answer : Op → Type) (ι : Type) where
  | calls (who : Nat)
  | fails (who : Nat)
  | spins (who : Nat)
  | sees (who : Nat)
  | takes (who : Nat)
  | works (who : Nat)
  | publishes (made : Made Answer ι)
  | leaves (who : Nat)
  | answers (made : Made Answer ι)

/-- The call that is made by it. -/
def Move.made : Move Answer ι → Option (Made Answer ι)
  | publishes made => some made
  | answers made => some made
  | _ => none

namespace Machine

/-- Values nobody has locked, and programs that have made no call. -/
def start (v : Service Answer σ π ι) (values : List σ) (progs : List (Prog Answer α)) : Machine Answer σ π ι α where
  cells := values.map fun value => ⟨.new value, v.publish value⟩
  threads := progs.map .running

def goes (m : Machine Answer σ π ι α) (who : Nat) (thread : Caller Answer σ ι α) : Machine Answer σ π ι α :=
  { m with threads := m.threads.set who thread }

def stores (m : Machine Answer σ π ι α) (at_ : Nat) (cell : Guarded σ π) : Machine Answer σ π ι α :=
  { m with cells := m.cells.set at_ cell }

inductive Step (v : Service Answer σ π ι) : Machine Answer σ π ι α → Move Answer ι → Machine Answer σ π ι α → Prop
  | calls {m who sky op next at_ section_} : m.threads[who]? = some (.running (.call op next)) →
      v.act sky op = .under at_ section_ → Step v m (.calls who) (m.goes who (.trying sky op next))
  | fails {m who sky op next} : m.threads[who]? = some (.trying sky op next) →
      Step v m (.fails who) (m.goes who (.waiting sky op next 0))
  | spins {m who sky op next spun} : m.threads[who]? = some (.waiting sky op next spun) →
      Step v m (.spins who) (m.goes who (.waiting sky op next (if spun < Lock.spins then spun + 1 else spun)))
  | sees {m who sky op next spun} : m.threads[who]? = some (.waiting sky op next spun) →
      Step v m (.sees who) (m.goes who (.trying sky op next))
  | takes {m who sky op next at_ section_ cell seen lock} : m.threads[who]? = some (.trying sky op next) →
      v.act sky op = .under at_ section_ → m.cells[at_]? = some cell → cell.lock.tryLock = some (seen, lock) →
      Step v m (.takes who) ((m.stores at_ { cell with lock }).goes who (.inside sky op next seen))
  | works {m who sky op next seen at_ section_ answer left} : m.threads[who]? = some (.inside sky op next seen) →
      v.act sky op = .under at_ section_ → section_ seen = .ok (answer, left) →
      Step v m (.works who) (m.goes who (.done sky op next answer left))
  | publishes {m who sky op next answer left at_ section_ cell} :
      m.threads[who]? = some (.done sky op next answer left) → v.act sky op = .under at_ section_ →
      m.cells[at_]? = some cell → Step v m (.publishes ⟨who, sky, op, answer⟩)
        ((m.stores at_ { cell with shown := v.publish left }).goes who (.leaving sky op next answer left))
  | leaves {m who sky op next answer left at_ section_ cell} :
      m.threads[who]? = some (.leaving sky op next answer left) → v.act sky op = .under at_ section_ →
      m.cells[at_]? = some cell → Step v m (.leaves who)
        ((m.stores at_ { cell with lock := cell.lock.drop left }).goes who (.running (next answer)))
  | looks {m who sky op next at_ read cell} : m.threads[who]? = some (.running (.call op next)) →
      v.act sky op = .look at_ read → m.cells[at_]? = some cell →
      Step v m (.answers ⟨who, sky, op, read cell.shown⟩) (m.goes who (.running (next (read cell.shown))))
  | alone {m who sky op next answer} : m.threads[who]? = some (.running (.call op next)) →
      v.act sky op = .alone answer →
      Step v m (.answers ⟨who, sky, op, answer⟩) (m.goes who (.running (next answer)))

def Holds (v : Service Answer σ π ι) (m : Machine Answer σ π ι α) (who at_ : Nat) : Prop :=
  ∃ thread, m.threads[who]? = some thread ∧ thread.holds v = some at_

end Machine

namespace Machine
variable {v : Service Answer σ π ι} {m m' : Machine Answer σ π ι α}

theorem Step.cells {move : Move Answer ι} (h : Step v m move m') : m'.cells.length = m.cells.length := by
  cases h with
  | calls => rfl
  | fails => rfl
  | spins => rfl
  | sees => rfl
  | takes => exact List.length_set
  | works => rfl
  | publishes => exact List.length_set
  | leaves => exact List.length_set
  | looks => rfl
  | alone => rfl

theorem run_cells {tr : List (Machine Answer σ π ι α × Move Answer ι × Machine Answer σ π ι α)}
    (h : Run (Step v) m tr m') : m'.cells.length = m.cells.length := by
  induction h with
  | nil => rfl
  | snoc _ hstep ih => exact hstep.cells.trans ih

end Machine

/-! ## Whole calls -/

/-- What a thread remembers of the value it has the lock of. -/
def Caller.Sound (v : Service Answer σ π ι) (values : List σ) : Caller Answer σ ι α → Prop
  | .trying sky op _ => ∃ at_ section_, v.act sky op = .under at_ section_
  | .waiting sky op _ _ => ∃ at_ section_, v.act sky op = .under at_ section_
  | .inside sky op _ seen => ∃ at_ section_, v.act sky op = .under at_ section_ ∧ values[at_]? = some seen
  | .done sky op _ answer left => ∃ at_ section_ seen, v.act sky op = .under at_ section_ ∧
      values[at_]? = some seen ∧ section_ seen = .ok (answer, left)
  | .leaving sky op _ _ left => ∃ at_ section_, v.act sky op = .under at_ section_ ∧ values[at_]? = some left
  | _ => True

/-- What a cell whose lock this thread holds, or nobody, keeps of its value. -/
structure Guarded.Keeps (v : Service Answer σ π ι) (cell : Guarded σ π) (value : σ) (owner : Option Nat) : Prop where
  held : cell.lock.held = owner.isSome
  free : cell.lock.held = false → cell.lock.value = value
  shown : cell.shown = v.publish value

/-- The threads are as far with their programs, and the values are as the calls that were
made left them; `owner` is who holds which lock. -/
structure Linear (v : Service Answer σ π ι) (m : Machine Answer σ π ι α) (pool : Pool Answer (List σ) α)
    (owner : Nat → Option Nat) : Prop where
  progs : pool.progs = m.threads.map Caller.program
  length : pool.state.length = m.cells.length
  cells : ∀ (at_ : Nat) (cell : Guarded σ π) (value : σ), m.cells[at_]? = some cell → pool.state[at_]? = some value →
    cell.Keeps v value (owner at_)
  holds : ∀ who at_, m.Holds v who at_ ↔ owner at_ = some who
  threads : ∀ (who : Nat) (thread : Caller Answer σ ι α), m.threads[who]? = some thread → thread.Sound v pool.state

variable {v : Service Answer σ π ι} {m m' : Machine Answer σ π ι α} {pool : Pool Answer (List σ) α}
  {owner : Nat → Option Nat} {who at_ : Nat} {thread thread' : Caller Answer σ ι α}

theorem Caller.Sound.set {values : List σ} (h : thread.Sound v values) (hother : thread.holds v ≠ some at_)
    (value : σ) : thread.Sound v (values.set at_ value) := by
  have hne : ∀ {sky op at' section_}, v.act sky op = .under at' section_ → (v.act sky op).at_ ≠ some at_ →
      at_ ≠ at' := by
    intro sky op at' section_ hact hno heq
    rw [hact, heq] at hno
    exact hno rfl
  cases thread with
  | inside sky op next seen =>
    obtain ⟨at', section_, hact, hseen⟩ := h
    exact ⟨at', section_, hact, by rwa [List.getElem?_set_ne (hne hact hother)]⟩
  | done sky op next answer left =>
    obtain ⟨at', section_, seen, hact, hseen, hran⟩ := h
    exact ⟨at', section_, seen, hact, by rwa [List.getElem?_set_ne (hne hact hother)], hran⟩
  | leaving sky op next answer left =>
    obtain ⟨at', section_, hact, hleft⟩ := h
    exact ⟨at', section_, hact, by rwa [List.getElem?_set_ne (hne hact hother)]⟩
  | running x => trivial
  | trying sky op next => exact h
  | waiting sky op next spun => exact h

namespace Machine

theorem goes_threads (m : Machine Answer σ π ι α) (hthread : m.threads[who]? = some thread) (other : Nat) :
    (m.goes who thread').threads[other]? = if other = who then some thread' else m.threads[other]? := by
  have hbound := (List.getElem?_eq_some_iff.mp hthread).1
  rw [goes, List.getElem?_set]
  by_cases heq : who = other
  · rw [if_pos heq, if_pos heq.symm, if_pos (heq ▸ hbound)]
  · rw [if_neg heq, if_neg (Ne.symm heq)]

theorem holds_goes (hthread : m.threads[who]? = some thread) (other at' : Nat) :
    (m.goes who thread').Holds v other at' ↔
      if other = who then thread'.holds v = some at' else m.Holds v other at' := by
  rw [Holds, m.goes_threads hthread]
  by_cases heq : other = who
  · rw [if_pos heq, if_pos heq]
    simp
  · rw [if_neg heq, if_neg heq]
    rfl

end Machine

namespace Linear

theorem owned (h : Linear v m pool owner) (hthread : m.threads[who]? = some thread)
    (hholds : thread.holds v = some at_) : owner at_ = some who := (h.holds who at_).mp ⟨thread, hthread, hholds⟩

theorem value (h : Linear v m pool owner) {cell : Guarded σ π} (hcell : m.cells[at_]? = some cell) :
    ∃ value, pool.state[at_]? = some value := by
  have hlt := (List.getElem?_eq_some_iff.mp hcell).1
  rw [← h.length] at hlt
  exact ⟨_, List.getElem?_eq_getElem hlt⟩

theorem progs_goes (h : Linear v m pool owner) (who : Nat) (thread' : Caller Answer σ ι α) :
    pool.progs.set who thread'.program = (m.goes who thread').threads.map Caller.program := by
  rw [h.progs, Machine.goes, List.map_set]

theorem aside (h : Linear v m pool owner) (hthread : m.threads[who]? = some thread)
    (hholds : thread'.holds v = thread.holds v) (hsound : thread'.Sound v pool.state) :
    Linear v (m.goes who thread') ⟨pool.state, pool.progs.set who thread'.program⟩ owner where
  progs := h.progs_goes who thread'
  length := h.length
  cells := h.cells
  holds := by
    intro other at'
    rw [Machine.holds_goes hthread, ← h.holds other at']
    by_cases heq : other = who
    · rw [if_pos heq, heq, hholds, Machine.Holds, hthread]
      simp
    · rw [if_neg heq]
  threads := by
    intro other thread'' hother
    rw [m.goes_threads hthread] at hother
    by_cases heq : other = who
    · rw [if_pos heq] at hother
      cases hother
      exact hsound
    · rw [if_neg heq] at hother
      exact h.threads other thread'' hother

/-- A thread goes on, and stores to a cell whose lock it has, or takes, or lets go. -/
theorem turn (h : Linear v m pool owner) (thread' : Caller Answer σ ι α) (cell : Guarded σ π) (value : σ) (keeps : Bool)
    (hthread : m.threads[who]? = some thread) (hheld : ∀ at', thread.holds v = some at' → at' = at_)
    (howner : ∀ other, owner at_ = some other → other = who) (hlt : at_ < m.cells.length)
    (hholds : thread'.holds v = if keeps then some at_ else none)
    (hkeeps : cell.Keeps v value (if keeps then some who else none))
    (hsound : thread'.Sound v (pool.state.set at_ value)) :
    Linear v ((m.stores at_ cell).goes who thread') ⟨pool.state.set at_ value, pool.progs.set who thread'.program⟩
      (Function.update owner at_ (if keeps then some who else none)) where
  progs := h.progs_goes who thread'
  length := by
    rw [Machine.goes, Machine.stores, List.length_set, List.length_set]
    exact h.length
  cells := by
    intro at' cell' value' hcell' hvalue'
    rw [Machine.goes, Machine.stores] at hcell'
    -- the cell that is stored, and the others as they were
    by_cases heq : at' = at_
    · have hlt' : at_ < pool.state.length := by rwa [h.length]
      rw [heq, List.getElem?_set_self hlt, Option.some.injEq] at hcell'
      rw [heq, List.getElem?_set_self hlt', Option.some.injEq] at hvalue'
      rw [heq, Function.update_self, ← hcell', ← hvalue']
      exact hkeeps
    · rw [List.getElem?_set_ne (Ne.symm heq)] at hcell' hvalue'
      rw [Function.update_of_ne heq]
      exact h.cells at' cell' value' hcell' hvalue'
  holds := by
    intro other at'
    have hstores : ∀ other, (m.stores at_ cell).Holds v other at' ↔ m.Holds v other at' := fun _ => Iff.rfl
    rw [Machine.holds_goes (m := m.stores at_ cell) hthread, hstores, h.holds]
    -- who holds this lock has changed, and of the others none has
    by_cases hcell : at' = at_
    · rw [hcell, Function.update_self, hholds]
      by_cases heq : other = who
      · rw [if_pos heq, heq]
        cases keeps <;> simp
      · have hnot : owner at_ ≠ some other := fun hown => heq (howner other hown)
        rw [if_neg heq]
        cases keeps <;> simp [hnot, Ne.symm heq]
    · rw [Function.update_of_ne hcell, hholds]
      by_cases heq : other = who
      · have hnot : owner at' ≠ some who := by
          intro hown
          obtain ⟨thread'', hthread'', hholds''⟩ := (h.holds who at').mpr hown
          rw [hthread, Option.some.injEq] at hthread''
          rw [← hthread''] at hholds''
          exact hcell (hheld at' hholds'')
        rw [if_pos heq, heq]
        cases keeps <;> simp [hnot, Ne.symm hcell]
      · rw [if_neg heq]
  threads := by
    intro other thread'' hother
    have hstored : (m.stores at_ cell).threads[who]? = some thread := hthread
    rw [Machine.goes_threads _ hstored] at hother
    by_cases heq : other = who
    · rw [if_pos heq] at hother
      cases hother
      exact hsound
    · rw [if_neg heq] at hother
      have hnot : thread''.holds v ≠ some at_ := fun hown => heq (howner other (h.owned hother hown))
      exact (h.threads other thread'' hother).set hnot value

theorem same {β : Type} {l : List β} {i : Nat} {a : β} (h : l[i]? = some a) : l.set i a = l := by
  obtain ⟨hlt, rfl⟩ := List.getElem?_eq_some_iff.mp h
  exact List.set_getElem_self hlt

theorem stays (h : Linear v m pool owner) (thread' : Caller Answer σ ι α) (hthread : m.threads[who]? = some thread)
    (hprogram : thread'.program = thread.program) : pool.progs.set who thread'.program = pool.progs := by
  apply same
  rw [h.progs, List.getElem?_map, hthread, hprogram]
  rfl

theorem quiet (h : Linear v m pool owner) (hthread : m.threads[who]? = some thread)
    (hprogram : thread'.program = thread.program) (hholds : thread'.holds v = thread.holds v)
    (hsound : thread'.Sound v pool.state) : Linear v (m.goes who thread') pool owner := by
  have haside := h.aside hthread hholds hsound
  rwa [h.stays thread' hthread hprogram] at haside

section
variable {sky : ι} {op : Op} {next : Answer op → Prog Answer α} {answer : Answer op} {seen left : σ}
  {section_ : σ → Exec (Answer op × σ)} {cell : Guarded σ π}

theorem takes (h : Linear v m pool owner) {lock : Lock σ} (hthread : m.threads[who]? = some (.trying sky op next))
    (hact : v.act sky op = .under at_ section_) (hcell : m.cells[at_]? = some cell)
    (htry : cell.lock.tryLock = some (seen, lock)) :
    ∃ owner', Linear v ((m.stores at_ { cell with lock }).goes who (.inside sky op next seen)) pool owner' := by
  obtain ⟨hfree, rfl, rfl⟩ := Lock.tryLock_eq_some.mp htry
  obtain ⟨value, hvalue⟩ := h.value hcell
  have hkeeps := h.cells at_ cell value hcell hvalue
  have hseen : cell.lock.value = value := hkeeps.free hfree
  have hnone : ∀ other, owner at_ ≠ some other := by
    intro other hown
    have hheld := hkeeps.held
    rw [hfree, hown] at hheld
    cases hheld
  have hkept : Guarded.Keeps v { cell with lock := ⟨true, cell.lock.value⟩ } value (some who) := by
    refine ⟨rfl, ?_, hkeeps.shown⟩
    intro hheld
    cases hheld
  have hsound :
      (Caller.inside sky op next cell.lock.value : Caller Answer σ ι α).Sound v (pool.state.set at_ value) := by
    refine ⟨at_, section_, hact, ?_⟩
    rw [same hvalue, hvalue, hseen]
  have hturn := h.turn (.inside sky op next cell.lock.value) _ value true hthread nofun
    (fun other hown => absurd hown (hnone other)) (List.getElem?_eq_some_iff.mp hcell).1
    (by rw [Caller.holds, hact]; rfl) hkept hsound
  rw [same hvalue, h.stays (.inside sky op next cell.lock.value) hthread rfl] at hturn
  exact ⟨_, hturn⟩

theorem publishes (h : Linear v m pool owner) (hthread : m.threads[who]? = some (.done sky op next answer left))
    (hact : v.act sky op = .under at_ section_) (hcell : m.cells[at_]? = some cell) :
    ∃ pool' owner', Pool.Step v.perform pool ⟨who, sky, op, answer⟩ pool' ∧
      Linear v ((m.stores at_ { cell with shown := v.publish left }).goes who (.leaving sky op next answer left))
        pool' owner' := by
  obtain ⟨at', section', value, hact', hvalue, hran⟩ := h.threads who _ hthread
  rw [hact] at hact'
  cases hact'
  have hholds : (Caller.done sky op next answer left : Caller Answer σ ι α).holds v = some at_ := by
    rw [Caller.holds, hact]
    rfl
  have hown := h.owned hthread hholds
  have hlt := (List.getElem?_eq_some_iff.mp hvalue).1
  have hkeeps := h.cells at_ cell value hcell hvalue
  have hheld : cell.lock.held = true := by
    rw [hkeeps.held, hown]
    rfl
  refine ⟨_, _, ?_, h.turn _ _ left true hthread ?_ ?_ (List.getElem?_eq_some_iff.mp hcell).1 hholds
    ⟨hheld, fun hfree => absurd (hheld.symm.trans hfree) (by decide), rfl⟩
    ⟨at_, section_, hact, List.getElem?_set_self hlt⟩⟩
  · apply Pool.Step.make _ _ rfl
    · rw [h.progs, List.getElem?_map, hthread]
      rfl
    · simp only [Service.perform, hact, index_of_getElem? hvalue, ok_bind, hran, update_ok hlt, pure_ok]
  · intro at' hat'
    rw [hholds] at hat'
    exact (Option.some.inj hat').symm
  · intro other hother
    rw [hown] at hother
    exact (Option.some.inj hother).symm

theorem leaves (h : Linear v m pool owner) (hthread : m.threads[who]? = some (.leaving sky op next answer left))
    (hact : v.act sky op = .under at_ section_) (hcell : m.cells[at_]? = some cell) :
    ∃ owner', Linear v ((m.stores at_ { cell with lock := cell.lock.drop left }).goes who (.running (next answer)))
      pool owner' := by
  obtain ⟨at', section', hact', hvalue⟩ := h.threads who _ hthread
  rw [hact] at hact'
  cases hact'
  have hholds : (Caller.leaving sky op next answer left : Caller Answer σ ι α).holds v = some at_ := by
    rw [Caller.holds, hact]
    rfl
  have hown := h.owned hthread hholds
  have hkeeps := h.cells at_ cell left hcell hvalue
  have hturn := h.turn (.running (next answer)) { cell with lock := cell.lock.drop left } left false hthread
    (fun at' hat' => Option.some.inj (hat'.symm.trans hholds))
    (fun other hother => Option.some.inj (hother.symm.trans hown)) (List.getElem?_eq_some_iff.mp hcell).1 rfl
    ⟨rfl, fun _ => rfl, hkeeps.shown⟩ trivial
  rw [same hvalue, h.stays (.running (next answer)) hthread rfl] at hturn
  exact ⟨_, hturn⟩

end

/-- A step is one whole call, or nothing that can be told. -/
theorem step (h : Linear v m pool owner) {move : Move Answer ι} (hstep : Machine.Step v m move m') :
    (move.made = none ∧ ∃ owner', Linear v m' pool owner') ∨
      ∃ made pool', move.made = some made ∧ Pool.Step v.perform pool made pool' ∧
        ∃ owner', Linear v m' pool' owner' := by
  cases hstep with
  | calls hthread hact => exact .inl ⟨rfl, _, h.quiet hthread rfl rfl ⟨_, _, hact⟩⟩
  | fails hthread =>
    have hsound := h.threads _ _ hthread
    exact .inl ⟨rfl, _, h.quiet hthread rfl rfl hsound⟩
  | spins hthread =>
    have hsound := h.threads _ _ hthread
    exact .inl ⟨rfl, _, h.quiet hthread rfl rfl hsound⟩
  | sees hthread =>
    have hsound := h.threads _ _ hthread
    exact .inl ⟨rfl, _, h.quiet hthread rfl rfl hsound⟩
  | takes hthread hact hcell htry => exact .inl ⟨rfl, h.takes hthread hact hcell htry⟩
  | works hthread hact hran =>
    obtain ⟨at', section', hact', hvalue⟩ := h.threads _ _ hthread
    rw [hact] at hact'
    cases hact'
    exact .inl ⟨rfl, _, h.quiet hthread rfl rfl ⟨_, _, _, hact, hvalue, hran⟩⟩
  -- the operation is made where its thread publishes, and no other part of it is one
  | publishes hthread hact hcell =>
    obtain ⟨pool', owner', hmade, hlinear⟩ := h.publishes hthread hact hcell
    exact .inr ⟨_, pool', rfl, hmade, owner', hlinear⟩
  | leaves hthread hact hcell => exact .inl ⟨rfl, h.leaves hthread hact hcell⟩
  | looks hthread hact hcell =>
    obtain ⟨value, hvalue⟩ := h.value hcell
    have hshown := (h.cells _ _ _ hcell hvalue).shown
    refine .inr ⟨_, _, rfl, ?_, _, h.aside hthread rfl trivial⟩
    apply Pool.Step.make _ _ rfl
    · rw [h.progs, List.getElem?_map, hthread]
      rfl
    · simp only [Service.perform, hact, index_of_getElem? hvalue, ok_bind, hshown, pure_ok]
  | alone hthread hact =>
    refine .inr ⟨_, _, rfl, ?_, _, h.aside hthread rfl trivial⟩
    apply Pool.Step.make _ _ rfl
    · rw [h.progs, List.getElem?_map, hthread]
      rfl
    · simp only [Service.perform, hact, pure_ok]

/-- So is a run, of several. -/
theorem run (h : Linear v m pool owner) {tr : List (Machine Answer σ π ι α × Move Answer ι × Machine Answer σ π ι α)}
    (hrun : Run (Machine.Step v) m tr m') :
    ∃ tr' pool' owner', Run (Pool.Step v.perform) pool tr' pool' ∧ Linear v m' pool' owner' ∧
      tr'.map (fun x => x.2.1) = tr.filterMap fun x => x.2.1.made := by
  have hstep : ∀ (m : Machine Answer σ π ι α) (pool : Pool Answer (List σ) α) (move : Move Answer ι)
      (m' : Machine Answer σ π ι α), (∃ owner, Linear v m pool owner) → True → Machine.Step v m move m' →
      (move.made = none ∧ ∃ owner', Linear v m' pool owner') ∨ ∃ made pool', move.made = some made ∧
        Pool.Step v.perform pool made pool' ∧ ∃ owner', Linear v m' pool' owner' := by
    intro m pool move m' hlinear _ hstep
    obtain ⟨owner, h⟩ := hlinear
    exact h.step hstep
  obtain ⟨tr', pool', hrun', ⟨owner', h'⟩, hlabels⟩ := hrun.refines (C := fun _ _ => True) ⟨owner, h⟩ hstep
    (fun _ _ => trivial)
  exact ⟨tr', pool', owner', hrun', h', hlabels⟩

theorem start (v : Service Answer σ π ι) (values : List σ) (progs : List (Prog Answer α)) :
    Linear v (Machine.start v values progs) ⟨values, progs⟩ (fun _ => none) where
  progs := by
    rw [Machine.start, List.map_map]
    exact (List.map_id progs).symm
  length := by
    rw [Machine.start, List.length_map]
  cells := by
    intro at_ cell value hcell hvalue
    rw [Machine.start, List.getElem?_map, hvalue, Option.map_some, Option.some.injEq] at hcell
    rw [← hcell]
    exact ⟨rfl, fun _ => rfl, rfl⟩
  holds := by
    intro who at_
    refine ⟨?_, nofun⟩
    intro hholds
    obtain ⟨thread, hthread, hholds⟩ := hholds
    rw [Machine.start, List.getElem?_map, Option.map_eq_some_iff] at hthread
    obtain ⟨x, -, rfl⟩ := hthread
    cases hholds
  threads := by
    intro who thread hthread
    rw [Machine.start, List.getElem?_map, Option.map_eq_some_iff] at hthread
    obtain ⟨x, -, rfl⟩ := hthread
    trivial

/-! ## One at a time -/

/-- Nobody else is under a lock, and its flag says whether somebody is. -/
theorem alone (h : Linear v m pool owner) :
    (∀ who who' at_, m.Holds v who at_ → m.Holds v who' at_ → who = who') ∧
      ∀ (at_ : Nat) (cell : Guarded σ π), m.cells[at_]? = some cell →
        (cell.lock.held = true ↔ ∃ who, m.Holds v who at_) := by
  refine ⟨?_, ?_⟩
  · intro who who' at_ hholds hholds'
    rw [h.holds] at hholds hholds'
    exact Option.some.inj (hholds.symm.trans hholds')
  · intro at_ cell hcell
    obtain ⟨value, hvalue⟩ := h.value hcell
    rw [(h.cells at_ cell value hcell hvalue).held, Option.isSome_iff_exists]
    simp only [h.holds]

theorem settled (h : Linear v m pool owner) (hidle : ∀ who at_, ¬ m.Holds v who at_) :
    m.cells.map (fun cell => cell.lock.value) = pool.state ∧ ∀ cell ∈ m.cells, cell.lock.held = false := by
  have hfree : ∀ (at_ : Nat) (cell : Guarded σ π), m.cells[at_]? = some cell → cell.lock.held = false := by
    intro at_ cell hcell
    by_contra hheld
    obtain ⟨who, hholds⟩ := (h.alone.2 at_ cell hcell).mp (eq_true_of_ne_false hheld)
    exact hidle who at_ hholds
  refine ⟨?_, ?_⟩
  · apply List.ext_getElem?
    intro at_
    rw [List.getElem?_map]
    cases hcell : m.cells[at_]? with
    | none =>
      rw [List.getElem?_eq_none_iff, ← h.length] at hcell
      exact (List.getElem?_eq_none hcell).symm
    | some cell =>
      obtain ⟨value, hvalue⟩ := h.value hcell
      rw [hvalue, Option.map_some, (h.cells at_ cell value hcell hvalue).free (hfree at_ cell hcell)]
  · intro cell hcell
    obtain ⟨at_, hat⟩ := List.mem_iff_getElem?.mp hcell
    exact hfree at_ cell hat

end Linear

end Rugo
