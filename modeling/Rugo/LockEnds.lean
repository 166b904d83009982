import Rugo.Lock

/- Where threads under locks can get to. A thread that has a lock waits for nobody, and a
   lock that nobody has is there for the next exchange; so one thread after another can be
   brought out of its lock, and then one after another to the end of its program.

     1. `Linear.finishes`: wherever the threads are, they can all be brought to the ends of
        their programs, unless it is that a section panics.
     2. `Machine.covers`: whatever order whole calls can be made in, threads under locks can
        make them in. -/
namespace Rugo
open Exec Progs Runs

variable {Op : Type} {Answer : Op → Type} {σ π ι α : Type} {v : Service Answer σ π ι}
  {m m' : Machine Answer σ π ι α} {pool : Pool Answer (List σ) α} {owner : Nat → Option Nat} {who at_ : Nat}
  {thread thread' : Caller Answer σ ι α}

/-! ## To the end -/

/-- The section it is about to run panics. -/
def Caller.Panics (v : Service Answer σ π ι) : Caller Answer σ ι α → Prop
  | .inside sky op _ seen => ∃ at_ section_ e, v.act sky op = .under at_ section_ ∧ section_ seen = .error e
  | _ => False

namespace Machine

def Finished (m : Machine Answer σ π ι α) : Prop :=
  ∀ (who : Nat) (thread : Caller Answer σ ι α), m.threads[who]? = some thread → ∃ a, thread = .running (.ret a)

def Panics (v : Service Answer σ π ι) (m : Machine Answer σ π ι α) : Prop :=
  ∃ (who : Nat) (thread : Caller Answer σ ι α), m.threads[who]? = some thread ∧ thread.Panics v

/-- One thread can be brought to such a place, and the others left where they are. -/
def Brings (v : Service Answer σ π ι) (m : Machine Answer σ π ι α) (who : Nat) (P : Prog Answer α → Prop) : Prop :=
  ∃ tr m', Run (Step v) m tr m' ∧ (m'.Panics v ∨
    ∃ x, P x ∧ m'.threads = m.threads.set who (.running x) ∧ m'.cells.length = m.cells.length)

variable {P Q : Prog Answer α → Prop}

theorem Brings.step {move : Move Answer ι} (hstep : Step v m move m') (hthreads : m'.threads = m.threads.set who thread)
    (hcells : m'.cells.length = m.cells.length) (h : m'.Brings v who P) : m.Brings v who P := by
  obtain ⟨tr, m'', hrun, hend⟩ := h
  refine ⟨_, m'', (Run.single hstep).trans hrun, ?_⟩
  obtain hpanics | ⟨x, hx, hset, hlength⟩ := hend
  · exact .inl hpanics
  · refine .inr ⟨x, hx, ?_, hlength.trans hcells⟩
    rw [hset, hthreads, List.set_set]

theorem Brings.mono (h : m.Brings v who P) (hPQ : ∀ x, P x → Q x) : m.Brings v who Q := by
  obtain ⟨tr, m', hrun, hpanics | ⟨x, hx, hset⟩⟩ := h
  · exact ⟨tr, m', hrun, .inl hpanics⟩
  · exact ⟨tr, m', hrun, .inr ⟨x, hPQ x hx, hset⟩⟩

theorem Brings.here {x : Prog Answer α} (hthread : m.threads[who]? = some (.running x)) (hx : P x) : m.Brings v who P :=
  ⟨[], m, .nil, .inr ⟨x, hx, (Linear.same hthread).symm, rfl⟩⟩

section
variable {sky : ι} {op : Op} {next : Answer op → Prog Answer α} {answer : Answer op} {seen left : σ}
  {section_ : σ → Exec (Answer op × σ)}

theorem set_self (hthread : m.threads[who]? = some thread) : (m.threads.set who thread')[who]? = some thread' :=
  List.getElem?_set_self (List.getElem?_eq_some_iff.mp hthread).1

theorem brings_leaving (hact : v.act sky op = .under at_ section_) (hlt : at_ < m.cells.length)
    (hthread : m.threads[who]? = some (.leaving sky op next answer left)) : m.Brings v who (· = next answer) := by
  apply Brings.step (.leaves hthread hact (List.getElem?_eq_getElem hlt)) rfl List.length_set
  exact .here (set_self hthread) rfl

theorem brings_done (hact : v.act sky op = .under at_ section_) (hlt : at_ < m.cells.length)
    (hthread : m.threads[who]? = some (.done sky op next answer left)) : m.Brings v who (· = next answer) := by
  apply Brings.step (.publishes hthread hact (List.getElem?_eq_getElem hlt)) rfl List.length_set
  apply brings_leaving hact _ (set_self hthread)
  rw [goes, stores, List.length_set]
  exact hlt

theorem brings_inside (hact : v.act sky op = .under at_ section_) (hlt : at_ < m.cells.length)
    (hthread : m.threads[who]? = some (.inside sky op next seen)) :
    m.Brings v who (fun x => ∃ answer, x = next answer) := by
  cases hran : section_ seen with
  | error e => exact ⟨[], m, .nil, .inl ⟨who, _, hthread, at_, section_, e, hact, hran⟩⟩
  | ok result =>
    obtain ⟨answer, left⟩ := result
    apply Brings.step (.works hthread hact hran) rfl rfl
    have hdone : (m.goes who (.done sky op next answer left)).Brings v who (· = next answer) :=
      brings_done hact hlt (set_self hthread)
    exact hdone.mono fun x hx => ⟨answer, hx⟩

theorem brings_trying (hact : v.act sky op = .under at_ section_) {cell : Guarded σ π}
    (hcell : m.cells[at_]? = some cell) (hfree : cell.lock.held = false)
    (hthread : m.threads[who]? = some (.trying sky op next)) :
    m.Brings v who (fun x => ∃ answer, x = next answer) := by
  apply Brings.step (.takes hthread hact hcell (Lock.tryLock_eq_some.mpr ⟨hfree, rfl, rfl⟩)) rfl List.length_set
  apply brings_inside hact _ (set_self hthread)
  rw [goes, stores, List.length_set]
  exact (List.getElem?_eq_some_iff.mp hcell).1

end

/-- Every call is on a cell that is there. -/
def Ranges (v : Service Answer σ π ι) (cells : Nat) : Prop := ∀ sky op at_, (v.act sky op).at_ = some at_ → at_ < cells

theorem goes_others {who' : Nat} {x : Prog Answer α} (hset : m'.threads = m.threads.set who (.running x))
    (hne : who' ≠ who) : m'.threads[who']? = m.threads[who']? := by
  rw [hset, List.getElem?_set_ne (Ne.symm hne)]

theorem idle_set {x : Prog Answer α} (hset : m'.threads = m.threads.set who (.running x))
    (hidle : ∀ other at_, other ≠ who → ¬ m.Holds v other at_) (other at_ : Nat) : ¬ m'.Holds v other at_ := by
  intro hholds
  obtain ⟨thread, hthread, hholds⟩ := hholds
  by_cases heq : other = who
  · rw [hset, heq, List.getElem?_set] at hthread
    split at hthread
    · split at hthread
      · cases hthread
        cases hholds
      · cases hthread
    · next hne => exact hne rfl
  · rw [goes_others hset heq] at hthread
    exact hidle other at_ heq ⟨thread, hthread, hholds⟩

end Machine

namespace Linear

/-- A thread that is under a lock can be brought out of it, whatever the others are at. -/
theorem brings_out (h : Linear v m pool owner) (hrange : Machine.Ranges v m.cells.length)
    (hthread : m.threads[who]? = some thread) (hholds : thread.holds v = some at_) :
    m.Brings v who (fun _ => True) := by
  have hsound := h.threads who thread hthread
  cases thread with
  | inside sky op next seen =>
    obtain ⟨at', section_, hact, -⟩ := hsound
    exact (Machine.brings_inside hact (hrange sky op at' (by rw [hact]; rfl)) hthread).mono fun _ _ => trivial
  | done sky op next answer left =>
    obtain ⟨at', section_, -, hact, -⟩ := hsound
    exact (Machine.brings_done hact (hrange sky op at' (by rw [hact]; rfl)) hthread).mono fun _ _ => trivial
  | leaving sky op next answer left =>
    obtain ⟨at', section_, hact, -⟩ := hsound
    exact (Machine.brings_leaving hact (hrange sky op at' (by rw [hact]; rfl)) hthread).mono fun _ _ => trivial
  | running x => cases hholds
  | trying sky op next => cases hholds
  | waiting sky op next spun => cases hholds

theorem brings_trying (h : Linear v m pool owner) (hrange : Machine.Ranges v m.cells.length)
    (hidle : ∀ who at_, ¬ m.Holds v who at_) {sky : ι} {op : Op} {next : Answer op → Prog Answer α}
    (hthread : m.threads[who]? = some (.trying sky op next)) :
    m.Brings v who (fun x => ∃ answer, x = next answer) := by
  obtain ⟨at', section_, hact⟩ := h.threads who _ hthread
  have hcell := List.getElem?_eq_getElem (hrange sky op at' (by rw [hact]; rfl))
  exact Machine.brings_trying hact hcell ((h.settled hidle).2 _ (List.mem_of_getElem? hcell)) hthread

theorem brings_on (h : Linear v m pool owner) (hrange : Machine.Ranges v m.cells.length)
    (hidle : ∀ who at_, ¬ m.Holds v who at_) (hthread : m.threads[who]? = some thread) {P Q : Prog Answer α → Prop}
    (hfirst : m.Brings v who P)
    (hrest : ∀ x m' pool' owner', P x → Linear v m' pool' owner' → Machine.Ranges v m'.cells.length →
      (∀ who at_, ¬ m'.Holds v who at_) → m'.threads[who]? = some (.running x) → m'.Brings v who Q) :
    m.Brings v who Q := by
  obtain ⟨tr, m', hrun, hpanics | ⟨x, hx, hset, hlength⟩⟩ := hfirst
  · exact ⟨tr, m', hrun, .inl hpanics⟩
  · obtain ⟨-, pool', owner', -, h', -⟩ := h.run hrun
    have hthread' : m'.threads[who]? = some (.running x) := by
      rw [hset]
      exact Machine.set_self hthread
    obtain ⟨tr', m'', hrun', hend⟩ := hrest x m' pool' owner' hx h' (hlength.symm ▸ hrange)
      (Machine.idle_set hset fun other at_ _ => hidle other at_) hthread'
    refine ⟨_, m'', hrun.trans hrun', ?_⟩
    obtain hpanics | ⟨y, hy, hset', hlength'⟩ := hend
    · exact .inl hpanics
    · refine .inr ⟨y, hy, ?_, hlength'.trans hlength⟩
      rw [hset', hset, List.set_set]

/-- And a thread between two calls gets to the end of its program. -/
theorem brings_end [Inhabited ι] (x : Prog Answer α) (h : Linear v m pool owner)
    (hrange : Machine.Ranges v m.cells.length) (hidle : ∀ who at_, ¬ m.Holds v who at_)
    (hthread : m.threads[who]? = some (.running x)) : m.Brings v who (fun x => ∃ a, x = .ret a) := by
  induction x generalizing m pool owner with
  | ret a => exact .here hthread ⟨a, rfl⟩
  | call op next ih =>
    have hlt : ∀ at', (v.act default op).at_ = some at' → at' < m.cells.length := hrange default op
    have hcall : m.Brings v who (fun x => ∃ answer, x = next answer) := by
      cases hact : v.act default op with
      | alone answer =>
        apply Machine.Brings.step (.alone hthread hact) rfl rfl
        exact .here (Machine.set_self hthread) ⟨answer, rfl⟩
      | look at_ read =>
        have hcell := List.getElem?_eq_getElem (hlt at_ (by rw [hact]; rfl))
        apply Machine.Brings.step (.looks hthread hact hcell) rfl rfl
        exact .here (Machine.set_self hthread) ⟨_, rfl⟩
      | under at_ section_ =>
        have hstep : Machine.Step v m (.calls who) (m.goes who (.trying default op next)) := .calls hthread hact
        have h' : Linear v (m.goes who (.trying default op next)) pool owner :=
          h.quiet hthread rfl rfl ⟨at_, section_, hact⟩
        apply Machine.Brings.step hstep rfl rfl
        apply h'.brings_trying hrange _ (Machine.set_self hthread)
        intro other at'
        rw [h'.holds, ← h.holds]
        exact hidle other at'
    apply h.brings_on hrange hidle hthread hcall
    intro x m' pool' owner' hx h' hrange' hidle' hthread'
    obtain ⟨answer, rfl⟩ := hx
    exact ih answer h' hrange' hidle' hthread'

theorem brings_any [Inhabited ι] (h : Linear v m pool owner) (hrange : Machine.Ranges v m.cells.length)
    (hidle : ∀ who at_, ¬ m.Holds v who at_) (hthread : m.threads[who]? = some thread) :
    m.Brings v who (fun x => ∃ a, x = .ret a) := by
  have hnone : thread.holds v = none := by
    by_contra hsome
    obtain ⟨at_, hholds⟩ := Option.ne_none_iff_exists'.mp hsome
    exact hidle who at_ ⟨thread, hthread, hholds⟩
  have hsound := h.threads who thread hthread
  -- once it tries for a lock that nobody holds
  have hend : ∀ {m : Machine Answer σ π ι α} {pool owner} {sky : ι} {op : Op} {next : Answer op → Prog Answer α},
      Linear v m pool owner → Machine.Ranges v m.cells.length → (∀ who at_, ¬ m.Holds v who at_) →
      m.threads[who]? = some (.trying sky op next) → m.Brings v who (fun x => ∃ a, x = .ret a) := by
    intro m pool owner sky op next h hrange hidle hthread
    apply h.brings_on hrange hidle hthread (h.brings_trying hrange hidle hthread)
    intro x m' pool' owner' _ h' hrange' hidle' hthread'
    exact h'.brings_end x hrange' hidle' hthread'
  have hheld : ∀ sky op, (∃ at_ section_, v.act sky op = .under at_ section_) → (v.act sky op).at_ ≠ none := by
    intro sky op hact
    obtain ⟨at_, section_, hact⟩ := hact
    rw [hact]
    exact Option.some_ne_none at_
  cases thread with
  | running x => exact h.brings_end x hrange hidle hthread
  | trying sky op next => exact hend h hrange hidle hthread
  | waiting sky op next spun =>
    have h' : Linear v (m.goes who (.trying sky op next)) pool owner := h.quiet hthread rfl rfl hsound
    apply Machine.Brings.step (.sees hthread) rfl rfl
    apply hend h' hrange _ (Machine.set_self hthread)
    intro other at'
    rw [h'.holds, ← h.holds]
    exact hidle other at'
  | inside sky op next seen =>
    obtain ⟨at_, section_, hact, -⟩ := hsound
    exact absurd hnone (hheld sky op ⟨at_, section_, hact⟩)
  | done sky op next answer left =>
    obtain ⟨at_, section_, -, hact, -⟩ := hsound
    exact absurd hnone (hheld sky op ⟨at_, section_, hact⟩)
  | leaving sky op next answer left =>
    obtain ⟨at_, section_, hact, -⟩ := hsound
    exact absurd hnone (hheld sky op ⟨at_, section_, hact⟩)

/-! ### All of them -/

/-- What can be done for one thread after another can be done for all, or a section panics. -/
theorem each {I : Nat → Machine Answer σ π ι α → Prop} (n : Nat)
    (hstep : ∀ k m, k < n → I k m → ∃ tr m', Run (Machine.Step v) m tr m' ∧ (m'.Panics v ∨ I (k + 1) m'))
    (h0 : I 0 m) : ∃ tr m', Run (Machine.Step v) m tr m' ∧ (m'.Panics v ∨ I n m') := by
  have hall : ∀ k ≤ n, ∃ tr m', Run (Machine.Step v) m tr m' ∧ (m'.Panics v ∨ I k m') := by
    intro k
    induction k with
    | zero => exact fun _ => ⟨[], m, .nil, .inr h0⟩
    | succ k ih =>
      intro hk
      obtain ⟨tr, m₁, hrun, hpanics | hI⟩ := ih (by omega)
      · exact ⟨tr, m₁, hrun, .inl hpanics⟩
      · obtain ⟨tr', m₂, hrun', hend⟩ := hstep k m₁ (by omega) hI
        exact ⟨_, m₂, hrun.trans hrun', hend⟩
  exact hall n (Nat.le_refl n)

/-- A machine of so many threads and cells, that keeps to whole calls. -/
structure Sized (v : Service Answer σ π ι) (threads cells : Nat) (m : Machine Answer σ π ι α) : Prop where
  linear : ∃ pool owner, Linear v m pool owner
  threads : m.threads.length = threads
  cells : m.cells.length = cells

namespace Sized
variable {threads cells : Nat}

theorem brings (h : Sized v threads cells m)
    {tr : List (Machine Answer σ π ι α × Move Answer ι × Machine Answer σ π ι α)} (hrun : Run (Machine.Step v) m tr m')
    {x : Prog Answer α} (hset : m'.threads = m.threads.set who (.running x))
    (hlength : m'.cells.length = m.cells.length) :
    Sized v threads cells m' := by
  obtain ⟨pool, owner, hlinear⟩ := h.linear
  obtain ⟨-, pool', owner', -, hlinear', -⟩ := hlinear.run hrun
  refine ⟨⟨pool', owner', hlinear'⟩, ?_, hlength.trans h.cells⟩
  rw [hset, List.length_set]
  exact h.threads

theorem there (h : Sized v threads cells m) (hlt : who < threads) : ∃ thread, m.threads[who]? = some thread := by
  rw [← h.threads] at hlt
  exact ⟨_, List.getElem?_eq_getElem hlt⟩

end Sized

theorem comes_out (h : Linear v m pool owner) (hrange : Machine.Ranges v m.cells.length) :
    ∃ tr m', Run (Machine.Step v) m tr m' ∧ (m'.Panics v ∨
      (Sized v m.threads.length m.cells.length m' ∧ ∀ who < m.threads.length, ∀ at_, ¬ m'.Holds v who at_)) := by
  apply each (I := fun k m' => Sized v m.threads.length m.cells.length m' ∧ ∀ who < k, ∀ at_, ¬ m'.Holds v who at_)
  · intro k m₁ hk hI
    obtain ⟨hsized, hout⟩ := hI
    obtain ⟨pool₁, owner₁, hlinear⟩ := hsized.linear
    obtain ⟨thread, hthread⟩ := hsized.there hk
    cases hholds : thread.holds v with
    | none =>
      refine ⟨[], m₁, .nil, .inr ⟨hsized, ?_⟩⟩
      intro who hwho at_ hat
      by_cases heq : who = k
      · obtain ⟨thread', hthread', hholds'⟩ := hat
        rw [heq, hthread, Option.some.injEq] at hthread'
        rw [← hthread', hholds] at hholds'
        cases hholds'
      · exact hout who (by omega) at_ hat
    | some at_ =>
      rw [← hsized.cells] at hrange
      obtain ⟨tr, m₂, hrun, hpanics | ⟨x, -, hset, hlength⟩⟩ := hlinear.brings_out hrange hthread hholds
      · exact ⟨tr, m₂, hrun, .inl hpanics⟩
      · refine ⟨tr, m₂, hrun, .inr ⟨hsized.brings hrun hset hlength, ?_⟩⟩
        intro who hwho at_ hat
        obtain ⟨thread', hthread', hholds'⟩ := hat
        by_cases heq : who = k
        · rw [hset, heq, Machine.set_self hthread] at hthread'
          cases hthread'
          cases hholds'
        · rw [Machine.goes_others hset heq] at hthread'
          exact hout who (by omega) at_ ⟨thread', hthread', hholds'⟩
  · exact ⟨⟨⟨pool, owner, h⟩, rfl, rfl⟩, fun who hwho => absurd hwho (Nat.not_lt_zero who)⟩

/-- Where nobody is under a lock all can be brought to the ends of their programs. -/
theorem comes_home [Inhabited ι] {threads cells : Nat} (h : Sized v threads cells m) (hrange : Machine.Ranges v cells)
    (hidle : ∀ who at_, ¬ m.Holds v who at_) :
    ∃ tr m', Run (Machine.Step v) m tr m' ∧ (m'.Panics v ∨ m'.Finished) := by
  obtain ⟨tr, m', hrun, hend⟩ := each (v := v) (I := fun k m' => Sized v threads cells m' ∧
    (∀ who at_, ¬ m'.Holds v who at_) ∧ ∀ who < k, ∃ a, m'.threads[who]? = some (.running (.ret a))) threads (by
      intro k m₁ hk hI
      obtain ⟨hsized, hidle, hdone⟩ := hI
      obtain ⟨pool₁, owner₁, hlinear⟩ := hsized.linear
      obtain ⟨thread, hthread⟩ := hsized.there hk
      obtain ⟨tr, m₂, hrun, hpanics | ⟨x, ⟨a, rfl⟩, hset, hlength⟩⟩ :=
        hlinear.brings_any (hsized.cells.symm ▸ hrange) hidle hthread
      · exact ⟨tr, m₂, hrun, .inl hpanics⟩
      · refine ⟨tr, m₂, hrun, .inr ⟨hsized.brings hrun hset hlength,
          Machine.idle_set hset fun other at_ _ => hidle other at_, ?_⟩⟩
        intro who hwho
        by_cases heq : who = k
        · exact ⟨a, by rw [hset, heq, Machine.set_self hthread]⟩
        · rw [Machine.goes_others hset heq]
          exact hdone who (by omega)) ⟨h, hidle, fun who hwho => absurd hwho (Nat.not_lt_zero who)⟩
  refine ⟨tr, m', hrun, hend.imp_right ?_⟩
  intro hI who thread hthread
  obtain ⟨hsized, -, hdone⟩ := hI
  have hlt := (List.getElem?_eq_some_iff.mp hthread).1
  rw [hsized.threads] at hlt
  obtain ⟨a, ha⟩ := hdone who hlt
  rw [hthread, Option.some.injEq] at ha
  exact ⟨a, ha⟩

/-- Wherever the threads are, there is a way on from there in which they all come to the ends of
their programs, unless it is that a section panics. -/
theorem finishes [Inhabited ι] (h : Linear v m pool owner) (hrange : Machine.Ranges v m.cells.length) :
    ∃ tr m', Run (Machine.Step v) m tr m' ∧ (m'.Panics v ∨ m'.Finished) := by
  obtain ⟨tr, m₁, hrun, hpanics | ⟨hsized, hout⟩⟩ := h.comes_out hrange
  · exact ⟨tr, m₁, hrun, .inl hpanics⟩
  · have hidle : ∀ who at_, ¬ m₁.Holds v who at_ := by
      intro who at_ hat
      by_cases hlt : who < m.threads.length
      · exact hout who hlt at_ hat
      · obtain ⟨thread, hthread, -⟩ := hat
        have hbound := (List.getElem?_eq_some_iff.mp hthread).1
        rw [hsized.threads] at hbound
        exact hlt hbound
    obtain ⟨tr', m₂, hrun', hend⟩ := comes_home hsized hrange hidle
    exact ⟨_, m₂, hrun.trans hrun', hend⟩

end Linear

/-! ## In any order -/

namespace Machine
variable {values values' : List σ} {progs : List (Prog Answer α)} {sky : ι} {op : Op}
  {next : Answer op → Prog Answer α} {answer : Answer op}

theorem whole_under {section_ : σ → Exec (Answer op × σ)} {value left : σ}
    (hcall : progs[who]? = some (.call op next)) (hact : v.act sky op = .under at_ section_)
    (hvalue : values[at_]? = some value) (hran : section_ value = .ok (answer, left)) :
    ∃ tr, Run (Step v) (.start v values progs) tr (.start v (values.set at_ left) (progs.set who (next answer))) ∧
      tr.filterMap (fun x => x.2.1.made) = [⟨who, sky, op, answer⟩] := by
  have hthread : (start v values progs).threads[who]? = some (.running (.call op next)) := by
    rw [start, List.getElem?_map, hcall]
    rfl
  have hcell : (start v values progs).cells[at_]? = some ⟨.new value, v.publish value⟩ := by
    rw [start, List.getElem?_map, hvalue]
    rfl
  have hin : at_ < (start v values progs).cells.length := (List.getElem?_eq_some_iff.mp hcell).1
  -- it calls, takes the lock, works, publishes and leaves
  obtain ⟨m₁, hm₁⟩ : ∃ m, m = (start v values progs).goes who (.trying sky op next) := ⟨_, rfl⟩
  have hcalls : Step v (start v values progs) (.calls who) m₁ := hm₁ ▸ .calls hthread hact
  have hthread₁ : m₁.threads[who]? = some (.trying sky op next) := hm₁ ▸ set_self hthread
  have hcell₁ : m₁.cells[at_]? = some ⟨.new value, v.publish value⟩ := hm₁ ▸ hcell
  obtain ⟨m₂, hm₂⟩ : ∃ m, m = (m₁.stores at_ ⟨⟨true, value⟩, v.publish value⟩).goes who (.inside sky op next value) :=
    ⟨_, rfl⟩
  have htakes : Step v m₁ (.takes who) m₂ :=
    hm₂ ▸ .takes hthread₁ hact hcell₁ (Lock.tryLock_eq_some.mpr ⟨rfl, rfl, rfl⟩)
  have hthread₂ : m₂.threads[who]? = some (.inside sky op next value) := hm₂ ▸ set_self hthread₁
  have hcell₂ : m₂.cells[at_]? = some ⟨⟨true, value⟩, v.publish value⟩ :=
    hm₂ ▸ List.getElem?_set_self (List.getElem?_eq_some_iff.mp hcell₁).1
  obtain ⟨m₃, hm₃⟩ : ∃ m, m = m₂.goes who (.done sky op next answer left) := ⟨_, rfl⟩
  have hworks : Step v m₂ (.works who) m₃ := hm₃ ▸ .works hthread₂ hact hran
  have hthread₃ : m₃.threads[who]? = some (.done sky op next answer left) := hm₃ ▸ set_self hthread₂
  have hcell₃ : m₃.cells[at_]? = some ⟨⟨true, value⟩, v.publish value⟩ := hm₃ ▸ hcell₂
  obtain ⟨m₄, hm₄⟩ : ∃ m, m = (m₃.stores at_ ⟨⟨true, value⟩, v.publish left⟩).goes who
    (.leaving sky op next answer left) :=
    ⟨_, rfl⟩
  have hpublishes : Step v m₃ (.publishes ⟨who, sky, op, answer⟩) m₄ := hm₄ ▸ .publishes hthread₃ hact hcell₃
  have hthread₄ : m₄.threads[who]? = some (.leaving sky op next answer left) := hm₄ ▸ set_self hthread₃
  have hcell₄ : m₄.cells[at_]? = some ⟨⟨true, value⟩, v.publish left⟩ :=
    hm₄ ▸ List.getElem?_set_self (List.getElem?_eq_some_iff.mp hcell₃).1
  have hleaves := Step.leaves hthread₄ hact hcell₄
  have hend : (m₄.stores at_ ⟨.new left, v.publish left⟩).goes who (.running (next answer)) =
      start v (values.set at_ left) (progs.set who (next answer)) := by
    simp [hm₄, hm₃, hm₂, hm₁, goes, stores, start, List.map_set]
  refine ⟨_, hend ▸ ((((Run.single hcalls).snoc htakes).snoc hworks).snoc hpublishes).snoc hleaves, rfl⟩

theorem whole (hcall : progs[who]? = some (.call op next))
    (hperform : v.perform sky values op = .ok (answer, values')) :
    ∃ tr, Run (Step v) (.start v values progs) tr (.start v values' (progs.set who (next answer))) ∧
      tr.filterMap (fun x => x.2.1.made) = [⟨who, sky, op, answer⟩] := by
  have hthread : (start v values progs).threads[who]? = some (.running (.call op next)) := by
    rw [start, List.getElem?_map, hcall]
    rfl
  have hend : (start v values progs).goes who (.running (next answer)) =
      start v values (progs.set who (next answer)) := by
    rw [goes, start, start, List.map_set]
  cases hact : v.act sky op with
  | under at_ section_ =>
    simp only [Service.perform, hact] at hperform
    obtain ⟨value, hvalue, hperform⟩ := bind_ok_iff.mp hperform
    obtain ⟨⟨answer', left⟩, hran, hperform⟩ := bind_ok_iff.mp hperform
    obtain ⟨values'', hupdate, hperform⟩ := bind_ok_iff.mp hperform
    obtain ⟨-, rfl⟩ := update_eq_ok.mp hupdate
    cases hperform
    exact whole_under hcall hact (index_eq_ok.mp hvalue) hran
  | look at_ read =>
    simp only [Service.perform, hact] at hperform
    obtain ⟨value, hvalue, hperform⟩ := bind_ok_iff.mp hperform
    cases hperform
    have hcell : (start v values progs).cells[at_]? = some ⟨.new value, v.publish value⟩ := by
      rw [start, List.getElem?_map, index_eq_ok.mp hvalue]
      rfl
    have hlooks := Step.looks hthread hact hcell
    exact ⟨_, hend ▸ Run.single hlooks, rfl⟩
  | alone answer' =>
    simp only [Service.perform, hact] at hperform
    cases hperform
    have halone := Step.alone hthread hact
    exact ⟨_, hend ▸ Run.single halone, rfl⟩

/-- What can be done by whole calls, one after another, the threads can do, and be nowhere in
between at its end. -/
theorem covers {start_ pool : Pool Answer (List σ) α}
    {tr : List (Pool Answer (List σ) α × Made Answer ι × Pool Answer (List σ) α)}
    (h : Run (Pool.Step v.perform) start_ tr pool) :
    ∃ tr', Run (Step v) (.start v start_.state start_.progs) tr' (.start v pool.state pool.progs) ∧
      tr'.filterMap (fun x => x.2.1.made) = tr.map fun x => x.2.1 := by
  induction h with
  | nil => exact ⟨[], .nil, rfl⟩
  | @snoc tr pool made pool' _ hstep ih =>
    obtain ⟨tr', hrun, hmade⟩ := ih
    obtain ⟨hcall, hperform⟩ := hstep
    obtain ⟨tr'', hrun', hmade'⟩ := whole hcall hperform
    refine ⟨tr' ++ tr'', hrun.trans hrun', ?_⟩
    rw [List.filterMap_append, hmade, hmade', List.map_append]
    rfl

end Machine
end Rugo
