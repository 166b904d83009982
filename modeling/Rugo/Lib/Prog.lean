import Rugo.Lib.Exec
import Rugo.Lib.Runs

/- Programs that call on something they share. A program is a tree: it has an answer,
   or it makes a call and goes on with what the call returns. Nothing but the calls is
   shared, so the points where programs may be interleaved are the calls.

   `run` answers the calls of one program, one after another, from a state. `Pool` is
   several programs on one state, of which any may make its next call. What a program
   calls, and what it comes to however it is answered, is `Calls`. -/
namespace Progs
open Exec Runs

inductive Prog {Op : Type} (Answer : Op → Type) (α : Type) where
  | ret (a : α)
  | call (op : Op) (next : Answer op → Prog Answer α)

variable {Op : Type} {Answer : Op → Type} {α β σ ι : Type}

namespace Prog

def bind : Prog Answer α → (α → Prog Answer β) → Prog Answer β
  | ret a, f => f a
  | call op next, f => call op fun answer => (next answer).bind f

instance : Monad (Prog Answer) where
  pure := ret
  bind := bind

def ask (op : Op) : Prog Answer (Answer op) := call op ret

@[simp] theorem ret_bind (a : α) (f : α → Prog Answer β) : (ret a >>= f) = f a := rfl
@[simp] theorem call_bind (op : Op) (next : Answer op → Prog Answer α) (f : α → Prog Answer β) :
    (call op next >>= f) = call op fun answer => next answer >>= f := rfl
@[simp] theorem ask_bind (op : Op) (f : Answer op → Prog Answer β) : (ask op >>= f) = call op f := rfl
@[simp] theorem pure_ret (a : α) : (pure a : Prog Answer α) = ret a := rfl

/-! ## However it is answered -/

/-- Every call is one of these, what the program comes to is one of those, and it makes
no call after one that is answered so that it has to stop. -/
def Calls (C : Op → Prop) (Stop : (op : Op) → Answer op → Prop) (P : α → Prop) : Prog Answer α → Prop
  | ret a => P a
  | call op next => C op ∧ ∀ answer,
      (next answer).Calls C Stop P ∧ (Stop op answer → ∃ a, next answer = ret a)

section
variable {C : Op → Prop} {Stop : (op : Op) → Answer op → Prop} {P : α → Prop} {Q : β → Prop}

theorem Calls.ask {op : Op} {f : Answer op → Prog Answer α} (hop : C op) (hno : ∀ answer, ¬ Stop op answer)
    (hf : ∀ answer, (f answer).Calls C Stop P) : (ask op >>= f).Calls C Stop P := by
  refine ⟨hop, ?_⟩
  intro answer
  exact ⟨hf answer, fun hstop => absurd hstop (hno answer)⟩

theorem Calls.map {x : Prog Answer α} {f : α → β} (h : x.Calls C Stop P) (hf : ∀ a, P a → Q (f a)) :
    (x >>= fun a => pure (f a)).Calls C Stop Q := by
  induction x with
  | ret a => exact hf a h
  | call op next ih =>
    refine ⟨h.1, ?_⟩
    intro answer
    refine ⟨ih answer (h.2 answer).1, ?_⟩
    intro hstop
    obtain ⟨a, ha⟩ := (h.2 answer).2 hstop
    refine ⟨f a, ?_⟩
    show (next answer >>= fun a => pure (f a)) = ret (f a)
    rw [ha]
    rfl

theorem Calls.ite {c : Prop} [Decidable c] {x y : Prog Answer α} (hx : c → x.Calls C Stop P)
    (hy : ¬ c → y.Calls C Stop P) : (if c then x else y).Calls C Stop P := by
  by_cases hc : c
  · rw [if_pos hc]
    exact hx hc
  · rw [if_neg hc]
    exact hy hc

end

/-- Every call is one of these. -/
def Only (C : Op → Prop) : Prog Answer α → Prop
  | ret _ => True
  | call op next => C op ∧ ∀ answer, (next answer).Only C

namespace Only
variable {C : Op → Prop} {x : Prog Answer α} {f : α → Prog Answer β}

theorem bind (hx : x.Only C) (hf : ∀ a, (f a).Only C) : (x >>= f).Only C := by
  induction x with
  | ret a => exact hf a
  | call op next ih => exact ⟨hx.1, fun answer => ih answer (hx.2 answer)⟩

theorem map (hx : x.Only C) (f : α → β) : (x >>= fun a => pure (f a)).Only C := hx.bind fun _ => trivial

theorem ask {op : Op} {f : Answer op → Prog Answer α} (hop : C op) (hf : ∀ answer, (f answer).Only C) :
    (ask op >>= f).Only C := ⟨hop, hf⟩

theorem ite {c : Prop} [Decidable c] {y : Prog Answer α} (hx : x.Only C) (hy : y.Only C) :
    (if c then x else y).Only C := by
  split
  · exact hx
  · exact hy

end Only

/-! ## One program -/

/-- The calls answered one after another, the `n`th with what `sky n` says. -/
def run (perform : ι → σ → (op : Op) → Exec (Answer op × σ)) : Prog Answer α → (Nat → ι) → σ → Exec (α × σ)
  | ret a, _, s => pure (a, s)
  | call op next, sky, s => do
    let (answer, s) ← perform (sky 0) s op
    run perform (next answer) (fun n => sky (n + 1)) s

section
variable {perform : ι → σ → (op : Op) → Exec (Answer op × σ)} {C : Op → Prop}
  {Stop : (op : Op) → Answer op → Prop} {P : α → Prop} {x : Prog Answer α}

theorem run_bind {f : α → Prog Answer β} {sky : Nat → ι} {s s' : σ} {b : β}
    (h : (x >>= f).run perform sky s = .ok (b, s')) :
    ∃ a s₁ sky₁, x.run perform sky s = .ok (a, s₁) ∧ (f a).run perform sky₁ s₁ = .ok (b, s') := by
  induction x generalizing sky s with
  | ret a => exact ⟨a, s, sky, rfl, h⟩
  | call op next ih =>
    rw [call_bind, Prog.run, bind_ok_iff] at h
    obtain ⟨⟨answer, s₁⟩, hperform, hrest⟩ := h
    obtain ⟨a, s₂, sky₂, hx, hf⟩ := ih answer hrest
    refine ⟨a, s₂, sky₂, ?_, hf⟩
    rw [Prog.run, hperform]
    exact hx

theorem Calls.run (h : x.Calls C Stop P) {sky : Nat → ι} {s s' : σ} {a : α}
    (hrun : x.run perform sky s = .ok (a, s')) : P a := by
  induction x generalizing sky s with
  | ret b =>
    cases hrun
    exact h
  | call op next ih =>
    rw [Prog.run, bind_ok_iff] at hrun
    obtain ⟨⟨answer, s₁⟩, -, hrest⟩ := hrun
    exact ih answer (h.2 answer).1 hrest

end

end Prog

/-! ## Programs on something smaller -/

namespace Prog
variable {Op' : Type} {Answer' : Op' → Type}

/-- Each call answered by a program that makes other calls. -/
def expand (by_ : (op : Op) → Prog Answer' (Answer op)) : Prog Answer α → Prog Answer' α
  | ret a => ret a
  | call op next => by_ op >>= fun answer => (next answer).expand by_

@[simp] theorem expand_ret (by_ : (op : Op) → Prog Answer' (Answer op)) (a : α) : (ret a).expand by_ = ret a := rfl

@[simp] theorem expand_call (by_ : (op : Op) → Prog Answer' (Answer op)) (op : Op) (next : Answer op → Prog Answer α) :
    (call op next).expand by_ = by_ op >>= fun answer => (next answer).expand by_ := rfl

theorem bind_bind {γ : Type} (x : Prog Answer α) (f : α → Prog Answer β) (g : β → Prog Answer γ) :
    (x >>= f) >>= g = x >>= fun a => f a >>= g := by
  induction x with
  | ret a => rfl
  | call op next ih =>
    rw [call_bind, call_bind, call_bind]
    apply congrArg (call op)
    funext answer
    exact ih answer

theorem expand_bind (by_ : (op : Op) → Prog Answer' (Answer op)) (x : Prog Answer α) (f : α → Prog Answer β) :
    (x >>= f).expand by_ = x.expand by_ >>= fun a => (f a).expand by_ := by
  induction x with
  | ret a => rfl
  | call op next ih =>
    rw [call_bind, expand_call, expand_call, bind_bind]
    apply congrArg (by_ op >>= ·)
    funext answer
    exact ih answer

end Prog

/-! ## Several programs -/

/-- A call that was made: by which program, what was said meanwhile, and the answer. -/
structure Made (Answer : Op → Type) (ι : Type) where
  who : Nat
  sky : ι
  op : Op
  answer : Answer op

/-- A state, and the programs at work on it. -/
structure Pool (Answer : Op → Type) (σ α : Type) where
  state : σ
  progs : List (Prog Answer α)

/-- One of the programs makes its next call. -/
inductive Pool.Step (perform : ι → σ → (op : Op) → Exec (Answer op × σ)) :
    Pool Answer σ α → Made Answer ι → Pool Answer σ α → Prop
  | call {pool : Pool Answer σ α} {who sky op next answer state} : pool.progs[who]? = some (.call op next) →
      perform sky pool.state op = .ok (answer, state) →
      Step perform pool ⟨who, sky, op, answer⟩ ⟨state, pool.progs.set who (next answer)⟩

/-- These calls, so answered, take one program to the other. -/
inductive Drives : Prog Answer α → List (Made Answer ι) → Prog Answer α → Prop
  | nil {x} : Drives x [] x
  | cons {who sky op next answer calls x} : Drives (next answer) calls x →
      Drives (.call op next) (⟨who, sky, op, answer⟩ :: calls) x

namespace Drives
variable {x y : Prog Answer α} {calls : List (Made Answer ι)}

theorem snoc (who : Nat) (sky : ι) {op : Op} {next : Answer op → Prog Answer α} (h : Drives x calls (.call op next))
    (answer : Answer op) : Drives x (calls ++ [⟨who, sky, op, answer⟩]) (next answer) := by
  generalize heq : Prog.call op next = y at h
  induction h with
  | nil =>
    rw [← heq]
    exact .cons .nil
  | cons _ ih => exact .cons (ih heq)

theorem andThen {f : α → Prog Answer β} {a : α} {z : Prog Answer β} {others : List (Made Answer ι)}
    (h : Drives x calls (.ret a)) (hf : Drives (f a) others z) : Drives (x >>= f) (calls ++ others) z := by
  generalize hy : Prog.ret a = y at h
  induction h with
  | nil =>
    rw [← hy]
    exact hf
  | cons _ ih => exact .cons (ih hy)

theorem bind {f : α → Prog Answer β} {b : β} (h : Drives (x >>= f) calls (.ret b)) :
    ∃ a before after, calls = before ++ after ∧ Drives x before (.ret a) ∧ Drives (f a) after (.ret b) := by
  induction x generalizing calls with
  | ret a => exact ⟨a, [], calls, rfl, .nil, h⟩
  | call op next ih =>
    rw [Prog.call_bind] at h
    cases h with
    | cons h =>
      obtain ⟨a, before, after, rfl, hx, hf⟩ := ih _ h
      exact ⟨a, _ :: before, after, rfl, .cons hx, hf⟩

end Drives

theorem Drives.only {C : Op → Prop} {x y : Prog Answer α} {calls : List (Made Answer ι)} (h : Drives x calls y)
    (hx : x.Only C) : ∀ made ∈ calls, C made.op := by
  induction h with
  | nil => exact List.forall_mem_nil _
  | cons _ ih =>
    obtain ⟨hop, hnext⟩ := hx
    exact List.forall_mem_cons.mpr ⟨hop, ih (hnext _)⟩

namespace Prog
variable [DecidableEq Op]

/-- A program that is told what its calls were answered: what it comes to, and what it is
told beyond. -/
def follow : Prog Answer α → List (Made Answer ι) → Option (α × List (Made Answer ι))
  | ret a, calls => some (a, calls)
  | call _ _, [] => none
  | call op next, made :: calls => if h : made.op = op then (next (h ▸ made.answer)).follow calls else none

end Prog

theorem Drives.follow [DecidableEq Op] {x : Prog Answer α} {calls : List (Made Answer ι)} {a : α}
    (h : Drives x calls (.ret a)) (more : List (Made Answer ι)) : x.follow (calls ++ more) = some (a, more) := by
  generalize hy : Prog.ret a = y at h
  induction h with
  | nil =>
    rw [← hy]
    rfl
  | cons _ ih =>
    rw [List.cons_append, Prog.follow, dif_pos rfl]
    exact ih hy

namespace Pool
variable {perform : ι → σ → (op : Op) → Exec (Answer op × σ)} {start pool : Pool Answer σ α}
  {tr : List (Pool Answer σ α × Made Answer ι × Pool Answer σ α)}

theorem Step.performed {made : Made Answer ι} (h : Step perform start made pool) :
    perform made.sky start.state made.op = .ok (made.answer, pool.state) := by
  obtain ⟨-, hperform⟩ := h
  exact hperform

theorem Step.make {who : Nat} {sky : ι} {op : Op} {next : Answer op → Prog Answer α} {answer : Answer op}
    (hcall : start.progs[who]? = some (.call op next))
    (hperform : perform sky start.state op = .ok (answer, pool.state))
    (hprogs : pool.progs = start.progs.set who (next answer)) : Step perform start ⟨who, sky, op, answer⟩ pool := by
  obtain ⟨state, progs⟩ := pool
  subst hprogs
  exact .call hcall hperform

theorem run_length (h : Run (Step perform) start tr pool) : pool.progs.length = start.progs.length := by
  induction h with
  | nil => rfl
  | snoc _ hstep ih =>
    cases hstep
    rw [List.length_set, ih]

/-- What a program has come to, if it is at its end. -/
def result : Prog Answer α → Option α
  | .ret a => some a
  | .call _ _ => none

theorem result_eq_some {x : Prog Answer α} {a : α} (h : result x = some a) : x = .ret a := by
  cases x with
  | ret b =>
    cases h
    rfl
  | call op next => cases h

/-- The programs whose turn it is make their next calls; one that is done lets its turn pass. -/
def turns (perform : ι → σ → (op : Op) → Exec (Answer op × σ)) (sky : ι) :
    List Nat → Pool Answer σ α → Exec (Pool Answer σ α)
  | [], pool => pure pool
  | who :: rest, pool =>
    match pool.progs[who]? with
    | some (.call op next) => do
      let (answer, state) ← perform sky pool.state op
      turns perform sky rest ⟨state, pool.progs.set who (next answer)⟩
    | _ => turns perform sky rest pool

theorem turns_run {sky : ι} {order : List Nat} (h : turns perform sky order start = .ok pool) :
    ∃ tr, Run (Step perform) start tr pool := by
  induction order generalizing start with
  | nil =>
    cases h
    exact ⟨[], .nil⟩
  | cons who rest ih =>
    rw [turns] at h
    split at h
    · next op next hcall =>
      obtain ⟨⟨answer, state⟩, hperform, hrest⟩ := bind_ok_iff.mp h
      obtain ⟨tr, hrun⟩ := ih hrest
      exact ⟨_, (Run.single (Step.make hcall hperform rfl)).trans hrun⟩
    · exact ih h

def stepsOf (who : Nat) (tr : List (Pool Answer σ α × Made Answer ι × Pool Answer σ α)) :
    List (Pool Answer σ α × Made Answer ι × Pool Answer σ α) := tr.filter fun x => x.2.1.who = who

theorem stepsOf_cut {who : Nat} {before after : List (Made Answer ι)}
    (h : (stepsOf who tr).map (fun x => x.2.1) = before ++ after) :
    ∃ tr₁ tr₂, tr = tr₁ ++ tr₂ ∧ (stepsOf who tr₁).map (fun x => x.2.1) = before ∧
      (stepsOf who tr₂).map (fun x => x.2.1) = after := by
  obtain ⟨steps₁, steps₂, hsteps, rfl, rfl⟩ := List.map_eq_append_iff.mp h
  obtain ⟨tr₁, tr₂, rfl, rfl, rfl⟩ := List.filter_eq_append_iff.mp hsteps
  exact ⟨tr₁, tr₂, rfl, rfl, rfl⟩

/-- A program's own calls drive it, whatever the others do. -/
theorem run_drives (h : Run (Step perform) start tr pool) {who : Nat} {x : Prog Answer α}
    (hx : start.progs[who]? = some x) :
    ∃ y, pool.progs[who]? = some y ∧ Drives x ((stepsOf who tr).map fun x => x.2.1) y := by
  induction h with
  | nil => exact ⟨x, hx, .nil⟩
  | @snoc tr pool made pool' _ hstep ih =>
    obtain ⟨y, hy, hdrives⟩ := ih
    obtain ⟨hcall, hperform⟩ := hstep
    rename_i i sky op next answer state
    by_cases heq : i = who
    · subst heq
      rw [hcall, Option.some.injEq] at hy
      have hlt : i < pool.progs.length := (List.getElem?_eq_some_iff.mp hcall).1
      refine ⟨next answer, List.getElem?_set_self hlt, ?_⟩
      rw [← hy] at hdrives
      have hsnoc := hdrives.snoc i sky answer
      simpa [stepsOf] using hsnoc
    · refine ⟨y, ?_, ?_⟩
      · rw [← hy]
        exact List.getElem?_set_ne heq
      · simpa [stepsOf, heq] using hdrives

end Pool
/-! ## Pools on two states -/

namespace Pool
variable {τ : Type}

/-- One of the programs makes its next call, which is served so. -/
inductive Goes (serves : ι → σ → (op : Op) → Answer op → σ → Prop) :
    Pool Answer σ α → Made Answer ι → Pool Answer σ α → Prop
  | call {pool : Pool Answer σ α} {who sky op next answer state} : pool.progs[who]? = some (.call op next) →
      serves sky pool.state op answer state →
      Goes serves pool ⟨who, sky, op, answer⟩ ⟨state, pool.progs.set who (next answer)⟩

variable {serves : ι → σ → (op : Op) → Answer op → σ → Prop} {serves' : ι → τ → (op : Op) → Answer op → τ → Prop}
  {start pool : Pool Answer σ α} {tr : List (Pool Answer σ α × Made Answer ι × Pool Answer σ α)}

theorem Step.goes {perform : ι → σ → (op : Op) → Exec (Answer op × σ)} {made : Made Answer ι}
    (h : Step perform start made pool) :
    Goes (fun sky s op answer s' => perform sky s op = .ok (answer, s')) start made pool := by
  obtain ⟨hcall, hperform⟩ := h
  exact .call hcall hperform

theorem Goes.served {made : Made Answer ι} (h : Goes serves start made pool) :
    serves made.sky start.state made.op made.answer pool.state := by
  obtain ⟨-, hserved⟩ := h
  exact hserved

/-- A program's own calls drive it, whatever they are served. -/
theorem Goes.drives (h : Run (Goes serves) start tr pool) {who : Nat} {x : Prog Answer α}
    (hx : start.progs[who]? = some x) :
    ∃ y, pool.progs[who]? = some y ∧ Drives x ((stepsOf who tr).map fun x => x.2.1) y := by
  induction h with
  | nil => exact ⟨x, hx, .nil⟩
  | @snoc tr pool made pool' _ hstep ih =>
    obtain ⟨y, hy, hdrives⟩ := ih
    obtain ⟨hcall, -⟩ := hstep
    rename_i i sky op next answer state
    by_cases heq : i = who
    · subst heq
      rw [hcall, Option.some.injEq] at hy
      rw [← hy] at hdrives
      refine ⟨next answer, List.getElem?_set_self (List.getElem?_eq_some_iff.mp hcall).1, ?_⟩
      simpa [stepsOf] using hdrives.snoc i sky answer
    · refine ⟨y, (List.getElem?_set_ne heq).trans hy, ?_⟩
      simpa [stepsOf, heq] using hdrives

theorem Goes.who_lt (h : Run (Goes serves) start tr pool) :
    pool.progs.length = start.progs.length ∧ ∀ x ∈ tr, x.2.1.who < start.progs.length := by
  induction h with
  | nil => exact ⟨rfl, List.forall_mem_nil _⟩
  | snoc _ hstep ih =>
    obtain ⟨hlength, hall⟩ := ih
    obtain ⟨hcall, -⟩ := hstep
    refine ⟨by rw [List.length_set, hlength], ?_⟩
    intro x hx
    obtain hx | hx := List.mem_append.mp hx
    · exact hall x hx
    · rw [List.mem_singleton.mp hx, ← hlength]
      exact (List.getElem?_eq_some_iff.mp hcall).1

/-- The programs are the same, and their states are related. -/
structure Alike (R : σ → τ → Prop) (pool : Pool Answer σ α) (pool' : Pool Answer τ α) : Prop where
  progs : pool'.progs = pool.progs
  state : R pool.state pool'.state

theorem Goes.alike {R : σ → τ → Prop} {pool' : Pool Answer σ α} {other : Pool Answer τ α} {made : Made Answer ι}
    (hserves : ∀ s', serves made.sky pool.state made.op made.answer s' →
      ∃ t', serves' made.sky other.state made.op made.answer t' ∧ R s' t')
    (h : Goes serves pool made pool') (hprogs : other.progs = pool.progs) :
    ∃ other', Goes serves' other made other' ∧ Alike R pool' other' := by
  obtain ⟨hcall, hserved⟩ := h
  rename_i who sky op next answer state
  obtain ⟨t', hserved', hR⟩ := hserves _ hserved
  rw [← hprogs] at hcall
  refine ⟨⟨t', other.progs.set who (next answer)⟩, .call hcall hserved', ?_, hR⟩
  exact congrArg (fun progs => progs.set who (next answer)) hprogs

/-- Programs on one state are programs on another that serves their calls the same. -/
theorem simulates {R : σ → τ → Prop} {C : σ → Made Answer ι → Prop}
    (hserves : ∀ s t s' made, R s t → C s made → serves made.sky s made.op made.answer s' →
      ∃ t', serves' made.sky t made.op made.answer t' ∧ R s' t')
    {t₀ : τ} (h0 : R start.state t₀) (h : Run (Goes serves) start tr pool) (hC : ∀ x ∈ tr, C x.1.state x.2.1) :
    ∃ tr' pool', Run (Goes serves') ⟨t₀, start.progs⟩ tr' pool' ∧ Alike R pool pool' ∧
      tr'.map (fun x => x.2.1) = tr.map fun x => x.2.1 := by
  have hstep : ∀ (s : Pool Answer σ α) (t : Pool Answer τ α) (made : Made Answer ι) (s' : Pool Answer σ α),
      Alike R s t → C s.state made → Goes serves s made s' → ∃ t', Goes serves' t made t' ∧ Alike R s' t' := by
    intro s t made s' halike hmade hgoes
    apply hgoes.alike _ halike.progs
    intro after hserved
    exact hserves _ _ _ _ halike.state hmade hserved
  exact Run.simulates (R := Alike R) ⟨rfl, h0⟩ hstep h hC

end Pool

end Progs
