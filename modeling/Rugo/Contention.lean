import Mathlib.Algebra.BigOperators.Group.Finset.Basic
import Mathlib.Data.Finset.Powerset
import Rugo.Sections

/- Threads that contend for a key. Each asks for the key under the lock of its shard, so
   what becomes of the key is what its visits come to one after another, whoever's they are.

     1. `takes_visits`: the visits of a key are answered, in the order in which they were
        taken, as by one that keeps nothing else.
     2. `increments_sum`: of any number of increments none is lost. -/
namespace Rugo
open Exec Progs Runs Resp

/-! ## Visits -/

/-- One operation on a key: whose it was, when, and what it was answered. -/
structure Visit where
  who : Nat
  now : UInt32
  op : KeyOp
  answer : op.Answer

/-- The visit of a key that a section is, if it is one. -/
def Visit.of {n : Nat} (key : List UInt8) : Made (@Sect.Answer n) Sky → Option Visit
  | ⟨who, sky, .key key' op, answer⟩ => if key' = key then some ⟨who, sky.now, op, answer⟩ else none
  | _ => none

/-- What is kept under a key, from visit to visit; in between it may lapse, where the clock was so
read. -/
inductive Takes (key : List UInt8) (Read : UInt32 → Prop) : Option Kept → List Visit → Option Kept → Prop
  | nil {held} : Takes key Read held [] held
  | visit {held kept last t ts} : Read t.now → t.op.onKept key t.now held = some (t.answer, kept) →
      Takes key Read kept ts last → Takes key Read held (t :: ts) last
  | lapse {kept now ts last} : Read now → Table.passed kept.expiry now = true → Takes key Read none ts last →
      Takes key Read (some kept) ts last

namespace Takes
variable {key : List UInt8} {Read Read' : UInt32 → Prop} {held mid last : Option Kept} {ts ts' : List Visit}

theorem mono (h : Takes key Read held ts last) (hread : ∀ now, Read now → Read' now) :
    Takes key Read' held ts last := by
  induction h with
  | nil => exact .nil
  | visit hnow hop _ ih => exact .visit (hread _ hnow) hop ih
  | lapse hnow hpassed _ ih => exact .lapse (hread _ hnow) hpassed ih

theorem trans (h : Takes key Read held ts mid) (h' : Takes key Read mid ts' last) :
    Takes key Read held (ts ++ ts') last := by
  induction h with
  | nil => exact h'
  | visit hnow hop _ ih => exact .visit hnow hop (ih h')
  | lapse hnow hpassed _ ih => exact .lapse hnow hpassed (ih h')

end Takes

def Sect.Clears {n : Nat} (home : List UInt8 → Nat) (key : List UInt8) : Sect n → Prop
  | .clear at_ => home key = at_
  | _ => False

theorem Cache.Answers.takes {n : Nat} {home : List UInt8 → Nat} {m m' : Cache} {now : UInt32} {op : Sect n}
    {a : op.Answer} (h : m.Answers home 0 now op a m') (who : Nat) {sky : Sky} (hnow : sky.now = now)
    {key : List UInt8} (hclears : ¬ op.Clears home key) :
    Takes key (fun now => sky.now = now) (m key) (Visit.of key ⟨who, sky, op, a⟩).toList (m' key) := by
  cases h with
  | @key key' op _ kept _ hkept _ hwhole =>
    rw [hwhole rfl, Visit.of]
    by_cases heq : key' = key
    · subst heq hnow
      rw [if_pos rfl, Function.update_self]
      exact .visit rfl hkept .nil
    · rw [if_neg heq, Function.update_of_ne (Ne.symm heq)]
      exact .nil
  | @clear at_ =>
    have helse : (fun key => if home key = at_ then none else m key) key = m key := if_neg hclears
    rw [helse]
    exact .nil
  | @sweep at_ slot budget gone hlapsed =>
    rw [Cache.less]
    split
    · next hgone =>
      obtain ⟨kept, hkept, hpassed⟩ := hlapsed.2 key hgone
      rw [Cache.part] at hkept
      split at hkept
      · rw [hkept]
        exact .lapse hnow hpassed .nil
      · cases hkept
    · exact .nil
  | len _ => exact .nil
  | now => exact .nil

section history
variable {α : Type} {map : Map} {c : Cache} {progs : List (Sects map.shards.length α)}
  {pool : Pool (@Sect.Answer map.shards.length) Cache α}
  {ctr : List (Pool (@Sect.Answer map.shards.length) Cache α × Made (@Sect.Answer map.shards.length) Sky ×
    Pool (@Sect.Answer map.shards.length) Cache α)} {key : List UInt8}

def visits (key : List UInt8) (ctr : List (Pool (@Sect.Answer map.shards.length) Cache α ×
    Made (@Sect.Answer map.shards.length) Sky × Pool (@Sect.Answer map.shards.length) Cache α)) : List Visit :=
  ctr.filterMap fun x => Visit.of key x.2.1

/-- What the clock read in a run. -/
def Clocked (ctr : List (Pool (@Sect.Answer map.shards.length) Cache α × Made (@Sect.Answer map.shards.length) Sky ×
    Pool (@Sect.Answer map.shards.length) Cache α)) (now : UInt32) : Prop := ∃ x ∈ ctr, x.2.1.sky.now = now

/-- Where there is no ceiling and its shard is not cleared, the visits of a key are answered one after
another as by one that keeps nothing else. -/
theorem takes_visits (hroom : map.shardBudget = 0) (h : Run (Cache.Goes map) ⟨c, progs⟩ ctr pool)
    (hclears : ∀ x ∈ ctr, ¬ x.2.1.op.Clears map.home key) :
    Takes key (Clocked ctr) (c key) (visits key ctr) (pool.state key) := by
  induction h with
  | nil => exact .nil
  | @snoc ctr pool made pool' _ hstep ih =>
    have hbefore := ih fun x hx => hclears x (List.mem_append_left _ hx)
    have hlast := hclears (pool, made, pool') (List.mem_append_right _ (List.mem_singleton.mpr rfl))
    have hserved := hstep.served
    rw [hroom] at hserved
    rw [visits, List.filterMap_append]
    apply (hbefore.mono _).trans ((hserved.takes made.who rfl hlast).mono _)
    · rintro now ⟨x, hx, hnow⟩
      exact ⟨x, List.mem_append_left _ hx, hnow⟩
    · rintro now hnow
      exact ⟨(pool, made, pool'), List.mem_append_right _ (List.mem_singleton.mpr rfl), hnow⟩

end history

/-! ## Whose the visits are -/

/-- Whether an operation leaves a key as it finds it, but for what has expired. -/
def KeyOp.reads : KeyOp → Bool
  | .get | .view | .contains | .deadline => true
  | _ => false

theorem KeyOp.onKept_reads {op : KeyOp} (hreads : op.reads = true) {key : List UInt8} {now : UInt32}
    {held kept : Option Kept} {a : op.Answer} (h : op.onKept key now held = some (a, kept)) :
    kept = Kept.live now held := by
  cases op with
  | get | view | contains | deadline =>
    rw [KeyOp.onKept, Option.some.injEq, Prod.mk.injEq] at h
    exact h.2.symm
  | set | setWhen | expire | increment | remove => cases hreads

/-- A section that leaves a key alone, or reads it. -/
def Sect.Spares {n : Nat} (home : List UInt8 → Nat) (key : List UInt8) : Sect n → Prop
  | .key key' op => key' = key → op.reads = true
  | .clear at_ => home key ≠ at_
  | _ => True

/-- A program that, once it has looked at the clock as often as it likes, writes to a key, and is
told no more. -/
inductive Once {n : Nat} {α : Type} (key : List UInt8) (Comes : Visit → α → Prop) : Sects n α → Prop
  | ask {op : KeyOp} {next : op.Answer → Sects n α} : op.reads = false →
      (∀ who now answer, ∃ a, next answer = .ret a ∧ Comes ⟨who, now, op, answer⟩ a) →
        Once key Comes (.call (.key key op) next)
  | look {next : UInt32 → Sects n α} : (∀ now, Once key Comes (next now)) → Once key Comes (.call .now next)

theorem Once.drives {n : Nat} {α : Type} {key : List UInt8} {Comes : Visit → α → Prop} {x : Sects n α} {a : α}
    {calls : List (Made (@Sect.Answer n) Sky)} (hx : Once key Comes x) (h : Drives x calls (.ret a)) :
    ∃ t, calls.filterMap (Visit.of key) = [t] ∧ t.op.reads = false ∧ Comes t a ∧
      ∀ made ∈ calls, ∀ home, ¬ made.op.Clears home key := by
  induction hx generalizing calls with
  | ask hwrites hnext =>
    cases h with
    | @cons who sky op next answer calls _ h =>
      obtain ⟨a', ha', hcomes⟩ := hnext who sky.now answer
      rw [ha'] at h
      cases h
      refine ⟨⟨who, sky.now, _, answer⟩, ?_, hwrites, hcomes, ?_⟩
      · rw [List.filterMap_cons, Visit.of, if_pos rfl]
        rfl
      · intro made hmade home hclears
        rw [List.mem_singleton.mp hmade] at hclears
        exact hclears
  | look _ ih =>
    cases h with
    | @cons who sky op next answer calls _ h =>
      obtain ⟨t, hvisits, hwrites, hcomes, hclears⟩ := ih answer h
      refine ⟨t, hvisits, hwrites, hcomes, ?_⟩
      intro made hmade home
      obtain rfl | hmade := List.mem_cons.mp hmade
      · exact id
      · exact hclears made hmade home

theorem Once.mono {n : Nat} {α : Type} {key : List UInt8} {Comes Comes' : Visit → α → Prop} {x : Sects n α}
    (hx : Once key Comes x) (hcomes : ∀ t a, Comes t a → Comes' t a) : Once key Comes' x := by
  induction hx with
  | ask hwrites hnext =>
    apply Once.ask hwrites
    intro who now answer
    obtain ⟨a, ha, h⟩ := hnext who now answer
    exact ⟨a, ha, hcomes _ a h⟩
  | look _ ih => exact .look ih

section crowd
variable {α : Type} {map : Map} {c : Cache} {writers others : List (Sects map.shards.length α)}
  {pool : Pool (@Sect.Answer map.shards.length) Cache α}
  {ctr : List (Pool (@Sect.Answer map.shards.length) Cache α × Made (@Sect.Answer map.shards.length) Sky ×
    Pool (@Sect.Answer map.shards.length) Cache α)} {key : List UInt8} {Comes : Nat → Visit → α → Prop}

theorem Visit.of_who {n : Nat} {key : List UInt8} {made : Made (@Sect.Answer n) Sky} {t : Visit}
    (h : Visit.of key made = some t) : t.who = made.who := by
  obtain ⟨who, sky, op, answer⟩ := made
  cases op with
  | key key' op =>
    rw [Visit.of, Option.ite_none_right_eq_some] at h
    cases h.2
    rfl
  | clear | sweep | len | now => cases h

theorem Visit.of_op {n : Nat} {key : List UInt8} {made : Made (@Sect.Answer n) Sky} {t : Visit}
    (h : Visit.of key made = some t) : made.op = .key key t.op := by
  obtain ⟨who, sky, op, answer⟩ := made
  cases op with
  | key key' op =>
    rw [Visit.of, Option.ite_none_right_eq_some] at h
    cases h.2
    rw [h.1]
  | clear | sweep | len | now => cases h

theorem Visit.of_spares {n : Nat} {home : List UInt8 → Nat} {key : List UInt8} {made : Made (@Sect.Answer n) Sky}
    {t : Visit} (hspares : made.op.Spares home key) (h : Visit.of key made = some t) : t.op.reads = true := by
  obtain ⟨who, sky, op, answer⟩ := made
  cases op with
  | key key' op =>
    rw [Visit.of, Option.ite_none_right_eq_some] at h
    cases h.2
    exact hspares h.1
  | clear | sweep | len | now => cases h

theorem Sect.Spares.clears {n : Nat} {home : List UInt8 → Nat} {key : List UInt8} {op : Sect n}
    (h : op.Spares home key) : ¬ op.Clears home key := by
  cases op with
  | clear at_ => exact h
  | key | sweep | len | now => exact id

theorem visits_filter (who : Nat) : (visits key ctr).filter (fun t => t.who = who) =
    (((Pool.stepsOf who ctr).map fun x => x.2.1).filterMap (Visit.of key)) := by
  rw [visits, List.filter_filterMap, Pool.stepsOf, List.filterMap_map, List.filterMap_filter]
  apply List.filterMap_congr
  intro x _
  cases ht : Visit.of key x.2.1 with
  | none => simp [ht]
  | some t => simp [ht, Visit.of_who ht, Option.filter]

theorem others_only {C : Sect map.shards.length → Prop} (h : Run (Cache.Goes map) ⟨c, writers ++ others⟩ ctr pool)
    (hothers : ∀ x ∈ others, x.Only C) : ∀ x ∈ ctr, writers.length ≤ x.2.1.who → C x.2.1.op := by
  intro x hx hle
  have hlt := (Pool.Goes.who_lt h).2 x hx
  obtain ⟨other, hother⟩ : ∃ other, (writers ++ others)[x.2.1.who]? = some other := ⟨_, List.getElem?_eq_getElem hlt⟩
  obtain ⟨y, -, hdrives⟩ := Pool.Goes.drives h hother
  rw [List.getElem?_append_right hle] at hother
  apply hdrives.only (hothers other (List.mem_of_getElem? hother))
  exact List.mem_map_of_mem (List.mem_filter.mpr ⟨hx, by simp⟩)

/-- Where some of the threads write to a key, each of them once, and the others leave it alone or read
it, the writes to the key are those, one of each. -/
theorem visits_writers (h : Run (Cache.Goes map) ⟨c, writers ++ others⟩ ctr pool)
    (hwriters : ∀ (i : Nat) (x : Sects map.shards.length α), writers[i]? = some x → Once key (Comes i) x)
    (hothers : ∀ x ∈ others, x.Only (Sect.Spares map.home key))
    (hdone : ∀ i < writers.length, ∃ a, pool.progs[i]? = some (.ret a)) :
    (∀ x ∈ ctr, ¬ x.2.1.op.Clears map.home key) ∧
      (((visits key ctr).filter fun t => !t.op.reads).map Visit.who).Perm (List.range writers.length) ∧
      ∀ t ∈ visits key ctr, t.op.reads = false →
        t.who < writers.length ∧ ∃ a, pool.progs[t.who]? = some (.ret a) ∧ Comes t.who t a := by
  -- a writer visits the key once
  have hwriter : ∀ i < writers.length, ∃ a t, pool.progs[i]? = some (.ret a) ∧
      (visits key ctr).filter (fun t => t.who = i) = [t] ∧ t.op.reads = false ∧ Comes i t a ∧
      ∀ x ∈ Pool.stepsOf i ctr, ¬ x.2.1.op.Clears map.home key := by
    intro i hi
    obtain ⟨a, ha⟩ := hdone i hi
    have hprog : (writers ++ others)[i]? = some writers[i] := by
      rw [List.getElem?_append_left hi, List.getElem?_eq_getElem hi]
    obtain ⟨y, hy, hdrives⟩ := Pool.Goes.drives h hprog
    rw [ha, Option.some.injEq] at hy
    rw [← hy] at hdrives
    obtain ⟨t, hvisits, hwrites, hcomes, hclears⟩ := (hwriters i _ (List.getElem?_eq_getElem hi)).drives hdrives
    refine ⟨a, t, ha, (visits_filter i).trans hvisits, hwrites, hcomes, ?_⟩
    intro x hx
    exact hclears x.2.1 (List.mem_map_of_mem hx) map.home
  have hother := others_only h hothers
  -- and the others only to look at it
  have hreads : ∀ t ∈ visits key ctr, writers.length ≤ t.who → t.op.reads = true := by
    intro t ht hle
    obtain ⟨x, hx, hof⟩ := List.mem_filterMap.mp ht
    rw [Visit.of_who hof] at hle
    exact Visit.of_spares (hother x hx hle) hof
  refine ⟨?_, ?_, ?_⟩
  · intro x hx
    by_cases hlt : x.2.1.who < writers.length
    · obtain ⟨-, -, -, -, -, -, hclears⟩ := hwriter _ hlt
      exact hclears x (List.mem_filter.mpr ⟨hx, by simp⟩)
    · exact Sect.Spares.clears (hother x hx (Nat.le_of_not_lt hlt))
  · rw [List.perm_iff_count]
    intro i
    -- as often as it visits and writes
    have hcount : (((visits key ctr).filter fun t => !t.op.reads).map Visit.who).count i =
        (((visits key ctr).filter fun t => t.who = i).filter fun t => !t.op.reads).length := by
      rw [List.count_eq_countP, List.countP_map, List.countP_eq_length_filter, List.filter_filter, List.filter_filter]
      apply congrArg List.length
      apply List.filter_congr
      intro t _
      rw [Function.comp_apply, Bool.and_comm, Bool.beq_eq_decide_eq]
    rw [hcount]
    by_cases hlt : i < writers.length
    · obtain ⟨-, t, -, hvisit, hwrites, -, -⟩ := hwriter i hlt
      rw [hvisit, List.count_eq_one_of_mem List.nodup_range (List.mem_range.mpr hlt)]
      simp [hwrites]
    · rw [List.count_eq_zero_of_not_mem (by rwa [List.mem_range]), List.length_eq_zero_iff, List.filter_eq_nil_iff]
      intro t ht
      obtain ⟨ht, hwho⟩ := List.mem_filter.mp ht
      have hle : writers.length ≤ t.who := by
        rw [decide_eq_true_eq] at hwho
        omega
      simp [hreads t ht hle]
  · intro t ht hwrites
    by_cases hlt : t.who < writers.length
    · obtain ⟨a, t', ha, hvisit, -, hcomes, -⟩ := hwriter _ hlt
      have hmem : t ∈ (visits key ctr).filter fun t' => t'.who = t.who := List.mem_filter.mpr ⟨ht, by simp⟩
      rw [hvisit, List.mem_singleton] at hmem
      rw [← hmem] at hcomes
      exact ⟨hlt, a, ha, hcomes⟩
    · rw [hreads t ht (Nat.le_of_not_lt hlt)] at hwrites
      cases hwrites

end crowd
/-! ## Increments -/

/-- The arguments of a command that adds so much to the number under a key. -/
inductive Adding (key : List UInt8) : List (List UInt8) → Int → Prop
  | incr {name} : name.map Commands.upper = ascii "INCR" → Adding key [name, key] 1
  | decr {name} : name.map Commands.upper = ascii "DECR" → Adding key [name, key] (-1)
  | incrBy {name text n} : name.map Commands.upper = ascii "INCRBY" → Commands.integerOf text = some n →
      Adding key [name, key, text] n
  | decrBy {name text n by_} : name.map Commands.upper = ascii "DECRBY" → Commands.integerOf text = some n →
      Signed.checkedNeg n = some by_ → Adding key [name, key, text] by_

/-- A thread that runs such a command. -/
structure Adder (key : List UInt8) where
  env : Commands.Env
  args : List (List UInt8)
  dialect : Dialect
  by_ : Int
  adds : Adding key args by_

namespace Commands
variable {n : Nat} {env : Env} {dialect : Dialect} {key : List UInt8}

/-- The reply to an increment. -/
def counted : Except Uncounted Int → List UInt8
  | .ok value => Encoder.integer value
  | .error .notANumber => Encoder.error (ascii "ERR value is not an integer or out of range")
  | .error .outOfRange => Encoder.error (ascii "ERR increment or decrement would overflow")
  | .error .full => oom

theorem count_eq (key : List UInt8) (by_ : Int) :
    count key by_ = Prog.call (Map.Op.key key (.increment by_)) fun answer => .ret (counted answer) := by
  change Prog.call _ _ = _
  apply congrArg
  funext answer
  cases answer with
  | ok value => rfl
  | error e => cases e <;> rfl

theorem run_adding {args : List (List UInt8)} {by_ : Int} (h : Adding key args by_) :
    sects n (run env args dialect) =
      .call (Sect.key key (.increment by_)) fun answer => .ret ⟨counted answer, dialect, false⟩ := by
  have hwork : run env args dialect = (do
      let reply ← count key by_
      pure ⟨reply, dialect, false⟩) := by
    cases h with
    | incr hname => exact run_strings hname (by decide) rfl
    | decr hname => exact run_strings hname (by decide) rfl
    | @incrBy name text _ hname htext =>
      have hincrBy : incrBy [name, key, text] "incrby" false = count key by_ := by
        have harg : arg [name, key, text] 2 = text := rfl
        rw [incrBy, harg, Commands.integer, htext]
        rfl
      rw [← hincrBy]
      exact run_strings hname (by decide) rfl
    | @decrBy name text n by_ hname htext hneg =>
      have hdecrBy : incrBy [name, key, text] "decrby" true = count key by_ := by
        have harg : arg [name, key, text] 2 = text := rfl
        rw [incrBy, harg, Commands.integer, htext]
        simp only [if_true, hneg]
        rfl
      rw [← hdecrBy]
      exact run_strings hname (by decide) rfl
  rw [hwork, count_eq]
  rfl

end Commands

/-- What is kept for good, and tells this number. -/
def Counter (held : Option Kept) (v : Int) : Prop := Tells held v ∧ ∀ kept, held = some kept → kept.expiry = none

/-- How much a visit is to add. -/
def Visit.adds : Visit → Int
  | ⟨_, _, .increment by_, _⟩ => by_
  | _ => 0

def added (ts : List Visit) : Int := (ts.map Visit.adds).sum

section counter
variable {key : List UInt8} {held kept last : Option Kept} {v : Int} {now : UInt32}

theorem Counter.live (h : Counter held v) (now : UInt32) : Kept.live now held = held := by
  cases held with
  | none => rfl
  | some kept =>
    apply Map.live_of_not_passed
    rw [h.2 kept rfl]
    rfl

theorem Counter.increment {by_ : Int} {a : Except Uncounted Int} (h : Counter held v)
    (hkept : (KeyOp.increment by_).onKept key now held = some (a, kept)) (hlow : Signed.i64Min ≤ v + by_)
    (hhigh : v + by_ ≤ Signed.i64Max) : a = .ok (v + by_) ∧ Counter kept (v + by_) := by
  have hcounted : Table.counted (held.map fun kept => kept.view key) =
      some (v, held.bind Kept.expiry, held.bind Kept.userFlags) := counted_some.mpr ⟨h.1, rfl, rfl⟩
  have hsum : Signed.checkedAdd v by_ = some (v + by_) := Signed.fit_eq_some.mpr ⟨rfl, hlow, hhigh⟩
  rw [KeyOp.onKept, h.live] at hkept
  simp only [hcounted, hsum] at hkept
  rw [writes, Option.ite_none_right_eq_some, Option.some.injEq, Prod.mk.injEq] at hkept
  obtain ⟨-, rfl, rfl⟩ := hkept
  refine ⟨rfl, ⟨canonical_iff.mpr rfl, hlow, hhigh⟩, ?_⟩
  intro kept hkept
  cases hkept
  cases held with
  | none => rfl
  | some kept => exact h.2 kept rfl

theorem Counter.reads {op : KeyOp} {a : op.Answer} (h : Counter held v) (hreads : op.reads = true)
    (hkept : op.onKept key now held = some (a, kept)) : kept = held := by
  rw [KeyOp.onKept_reads hreads hkept, h.live]

theorem adds_reads {t : Visit} (hreads : t.op.reads = true) : t.adds = 0 := by
  obtain ⟨who, now, op, answer⟩ := t
  cases op with
  | increment => cases hreads
  | _ => rfl

/-- A counter that is read and added to, and nothing else, comes to what is added, and each addition
is told what it has come to by then. -/
theorem Takes.counts {Read : UInt32 → Prop} {ts : List Visit} (h : Takes key Read held ts last)
    (hcounter : Counter held v)
    (hops : ∀ t ∈ ts, t.op.reads = true ∨ ∃ by_ a, t = ⟨t.who, t.now, .increment by_, a⟩)
    (hrange : ∀ front back, ts = front ++ back → Signed.i64Min ≤ v + added front ∧ v + added front ≤ Signed.i64Max) :
    Counter last (v + added ts) ∧ ∀ front who now by_ a back, ts = front ++ ⟨who, now, .increment by_, a⟩ :: back →
      a = .ok (v + added front + by_) := by
  induction h generalizing v with
  | nil =>
    refine ⟨?_, ?_⟩
    · simpa [added] using hcounter
    · intro front who now by_ a back heq
      cases front <;> cases heq
  | @visit held kept last t ts _ hkept htakes ih =>
    have hfirst := hops t (List.mem_cons_self ..)
    have hothers := fun t' ht' => hops t' (List.mem_cons_of_mem t ht')
    have hone : added [t] = t.adds := List.sum_singleton
    -- a look leaves the counter, and an increment adds its own
    have hcounter' : Counter kept (v + t.adds) := by
      obtain hreads | ⟨by_, a, ht⟩ := hfirst
      · rw [hcounter.reads hreads hkept, adds_reads hreads, Int.add_zero]
        exact hcounter
      · rw [ht] at hkept ⊢
        have hin := hrange [t] ts rfl
        rw [hone, ht] at hin
        exact (hcounter.increment hkept hin.1 hin.2).2
    obtain ⟨hlast, htold⟩ := ih hcounter' hothers (by
      intro front back heq
      have hin := hrange (t :: front) back (by rw [heq]; rfl)
      rw [added, List.map_cons, List.sum_cons, ← Int.add_assoc] at hin
      exact hin)
    refine ⟨?_, ?_⟩
    · rw [added, List.map_cons, List.sum_cons, ← Int.add_assoc]
      exact hlast
    · intro front who now by_ a back heq
      cases front with
      | nil =>
        obtain ⟨rfl, -⟩ := List.cons.inj heq
        have hin := hrange [_] ts rfl
        rw [hone] at hin
        rw [added, List.map_nil, List.sum_nil, Int.add_zero]
        exact (hcounter.increment hkept hin.1 hin.2).1
      | cons first front =>
        obtain ⟨rfl, hrest⟩ := List.cons.inj heq
        rw [htold front who now by_ a back hrest, added, added, List.map_cons, List.sum_cons, Int.add_assoc v]
  | lapse _ hpassed _ _ =>
    rw [hcounter.2 _ rfl] at hpassed
    cases hpassed

end counter

/-! ## Any number of threads -/

section threads
variable {imp : Imp} {p : Platform} {shards maxmemory : Nat} {seed : UInt64} {map : Map}
  {tr₀ : List (Map × Map.Act × Map)} {c : Cache} {key : List UInt8}
  {others : List (Sects map.shards.length Commands.Ran)}
  {m : map.Crowd Commands.Ran}
  {tr : List (map.Crowd Commands.Ran × Move (@Sect.Answer map.shards.length) Sky × map.Crowd Commands.Ran)}

/-- Where some of the threads write to a key, each of them once, and are done, while the others leave
it alone or read it: the visits of the key are answered one after another, and the writes among
them are one of each. -/
theorem crowd_visits {α : Type} {writers others : List (Sects map.shards.length α)} {m : map.Crowd α}
    {tr : List (map.Crowd α × Move (@Sect.Answer map.shards.length) Sky × map.Crowd α)} {Comes : Nat → Visit → α → Prop}
    (hreached : Run (Map.Returns imp p) (Map.withSeed shards maxmemory seed) tr₀ map)
    (hkeeps : ∀ x ∈ tr₀, Map.Unstranded p x.1 x.2.1) (hc : map.Stores imp c) (hroom : map.shardBudget = 0)
    (hwriters : ∀ (i : Nat) (x : Sects map.shards.length α), writers[i]? = some x → Once key (Comes i) x)
    (hothers : ∀ x ∈ others, x.Only (Sect.Spares map.home key))
    (h : Run (Machine.Step (map.sections imp p)) (.start (map.sections imp p) map.tables (writers ++ others)) tr m)
    (hgranted : ∀ x ∈ tr, ∀ made, x.2.1.made = some made → ¬ made.op.Refused made.answer)
    (hdone : ∀ i < writers.length, ∃ a, m.threads[i]? = some (.running (.ret a))) :
    ∃ ts Read last, Takes key Read (c key) ts last ∧
      ((ts.filter fun t => !t.op.reads).map Visit.who).Perm (List.range writers.length) ∧
      (∀ t ∈ ts, t.op.reads = false → t.who < writers.length ∧
        ∃ a, m.threads[t.who]? = some (.running (.ret a)) ∧ Comes t.who t a) ∧
      ((∀ who at_, ¬ m.Holds (map.sections imp p) who at_) →
        (map.holding (m.cells.map fun cell => cell.lock.value)).stored imp key = .ok last) ∧
      (∀ t ∈ ts, ∃ x ∈ tr, ∃ made, x.2.1.made = some made ∧ made.op = .key key t.op) ∧
      ∀ now, Read now → ∃ x ∈ tr, ∃ made, x.2.1.made = some made ∧ made.sky.now = now := by
  obtain ⟨ctr, pool, hrun, hlabels, hprogs, hidle⟩ := sections_serve hreached hkeeps hc h hgranted
  have hfinished : ∀ i < writers.length, ∃ a, pool.progs[i]? = some (.ret a) := by
    intro i hi
    obtain ⟨a, ha⟩ := hdone i hi
    refine ⟨a, ?_⟩
    rw [hprogs, List.getElem?_map, ha]
    rfl
  have hlabel : ∀ x ∈ ctr, ∃ y ∈ tr, y.2.1.made = some x.2.1 := by
    intro x hx
    have hmem : x.2.1 ∈ ctr.map fun x => x.2.1 := List.mem_map_of_mem hx
    rw [hlabels, List.mem_filterMap] at hmem
    exact hmem
  -- of the run of whole sections, carried back to the machine's
  obtain ⟨hclears, hperm, hwrites⟩ := visits_writers hrun hwriters hothers hfinished
  refine ⟨_, _, _, takes_visits hroom hrun hclears, hperm, ?_, fun hnobody => hidle hnobody key, ?_, ?_⟩
  · intro t ht hreads
    obtain ⟨hlt, a, ha, hcomes⟩ := hwrites t ht hreads
    obtain ⟨a', ha'⟩ := hdone t.who hlt
    rw [hprogs, List.getElem?_map, ha', Option.map_some, Option.some.injEq] at ha
    cases ha
    exact ⟨hlt, a, ha', hcomes⟩
  · intro t ht
    obtain ⟨x, hx, hof⟩ := List.mem_filterMap.mp ht
    obtain ⟨y, hy, hmade⟩ := hlabel x hx
    exact ⟨y, hy, x.2.1, hmade, Visit.of_op hof⟩
  · rintro now ⟨x, hx, hnow⟩
    obtain ⟨y, hy, hmade⟩ := hlabel x hx
    exact ⟨y, hy, x.2.1, hmade, hnow⟩

def Adder.prog (n : Nat) (adder : Adder key) : Sects n Commands.Ran :=
  Commands.sects n (Commands.run adder.env adder.args adder.dialect)

/-- What a visit of such a thread has it come to. -/
def Adder.Comes (adder : Adder key) (t : Visit) (ran : Commands.Ran) : Prop :=
  ∃ answer, t = ⟨t.who, t.now, .increment adder.by_, answer⟩ ∧ ran.reply = Commands.counted answer

theorem Adder.once (n : Nat) (adder : Adder key) : Once key adder.Comes (adder.prog n) := by
  rw [Adder.prog, Commands.run_adding adder.adds]
  apply Once.ask rfl
  intro who now answer
  exact ⟨_, rfl, answer, rfl, rfl⟩

/-- How much the thread at this place is to add. -/
def share (adders : List (Adder key)) (i : Nat) : Int := (adders[i]?.map Adder.by_).getD 0

def Shares (adders : List (Adder key)) (i : Nat) (t : Visit) (ran : Commands.Ran) : Prop :=
  ∃ adder, adders[i]? = some adder ∧ adder.Comes t ran

theorem share_range (adders : List (Adder key)) :
    (List.range adders.length).map (share adders) = adders.map Adder.by_ := by
  apply List.ext_getElem
  · simp
  · intro i _ hi
    rw [List.length_map] at hi
    simp [share, hi]

/-- What is added is what the writers' shares come to. -/
theorem added_eq {ts : List Visit} {f : Nat → Int} (h : ∀ t ∈ ts, t.op.reads = false → t.adds = f t.who) :
    added ts = (((ts.filter fun t => !t.op.reads).map Visit.who).map f).sum := by
  induction ts with
  | nil => rfl
  | cons t ts ih =>
    have hrest := ih fun t' ht' => h t' (List.mem_cons_of_mem t ht')
    rw [added] at hrest
    rw [added, List.map_cons, List.sum_cons, hrest]
    cases hreads : t.op.reads with
    | true => rw [List.filter_cons_of_neg (by simp [hreads]), adds_reads hreads, Int.zero_add]
    | false =>
      rw [List.filter_cons_of_pos (by simp [hreads]), h t (List.mem_cons_self ..) hreads]
      rfl

/-! ## Two threads -/

def incrOne : Adder (ascii "a") := ⟨Commands.started, [ascii "INCR", ascii "a"], .resp2, 1, .incr (by decide)⟩

def decrFive : Adder (ascii "a") :=
  ⟨Commands.started, [ascii "DECRBY", ascii "a", ascii "5"], .resp2, -5,
    .decrBy (n := 5) (by decide) (by decide) (by decide)⟩

theorem adders_answered :
    ((fresh.sections .word .boxed).perform ⟨9, true⟩ fresh.tables (.key (ascii "a") (.increment (-5)))).map Prod.fst =
      .ok (.ok (-5)) ∧
    ((fresh.sections .word .boxed).perform ⟨9, true⟩ (remains fresh fresh.tables (.key (ascii "a") (.increment (-5))))
      (.key (ascii "a") (.increment 1))).map Prod.fst = .ok (.ok (-4)) := by
  decide +kernel

def adding (by_ : Int) : Sects fresh.shards.length Commands.Ran :=
  .call (Sect.key (ascii "a") (.increment by_)) fun answer => .ret ⟨Commands.counted answer, .resp2, false⟩

theorem adders_progs : [incrOne, decrFive].map (Adder.prog fresh.shards.length) ++ [] = [adding 1, adding (-5)] := by
  rw [List.append_nil, List.map_cons, List.map_cons, List.map_nil, Adder.prog, Adder.prog,
    Commands.run_adding incrOne.adds, Commands.run_adding decrFive.adds]
  rfl

/-- The second of them goes before the first. -/
theorem adders_run : ∃ tr m, Run (Machine.Step (fresh.sections .word .boxed))
      (.start (fresh.sections .word .boxed) fresh.tables
        ([incrOne, decrFive].map (Adder.prog fresh.shards.length) ++ [])) tr m ∧
    m.threads = [.running (.ret ⟨Encoder.integer (-4), .resp2, false⟩),
      .running (.ret ⟨Encoder.integer (-5), .resp2, false⟩)] ∧
    ∀ x ∈ tr, ∀ made, x.2.1.made = some made → ¬ made.op.Refused made.answer := by
  obtain ⟨hdecr, hincr⟩ := adders_answered
  rw [adders_progs]
  have hfirst : Pool.Step (fresh.sections .word .boxed).perform ⟨fresh.tables, [adding 1, adding (-5)]⟩
      ⟨1, ⟨9, true⟩, .key (ascii "a") (.increment (-5)), .ok (-5)⟩
      ⟨remains fresh fresh.tables (.key (ascii "a") (.increment (-5))),
        [adding 1, .ret ⟨Encoder.integer (-5), .resp2, false⟩]⟩ := made_by rfl (remains_of hdecr) rfl
  have hsecond : Pool.Step (fresh.sections .word .boxed).perform
      ⟨remains fresh fresh.tables (.key (ascii "a") (.increment (-5))),
        [adding 1, .ret ⟨Encoder.integer (-5), .resp2, false⟩]⟩
      ⟨0, ⟨9, true⟩, .key (ascii "a") (.increment 1), .ok (-4)⟩
      ⟨remains fresh (remains fresh fresh.tables (.key (ascii "a") (.increment (-5))))
        (.key (ascii "a") (.increment 1)),
        [.ret ⟨Encoder.integer (-4), .resp2, false⟩, .ret ⟨Encoder.integer (-5), .resp2, false⟩]⟩ :=
    made_by rfl (remains_of hincr) rfl
  obtain ⟨tr, hrun, hmade⟩ := Machine.covers ((Run.single hfirst).snoc hsecond)
  refine ⟨tr, _, hrun, rfl, granted_of hmade ?_⟩
  intro made hmem hrefused
  obtain rfl | hmem := List.mem_cons.mp hmem
  · cases hrefused
  · rw [List.mem_singleton.mp hmem] at hrefused
    cases hrefused

/-- Threads that add to the number under a key, while others do as they like but write to the key or
clear its shard: each is told what all that were before it and its own come to, and all that was
added is there in the end. -/
theorem increments_sum (adders : List (Adder key))
    (hreached : Run (Map.Returns imp p) (Map.withSeed shards maxmemory seed) tr₀ map)
    (hkeeps : ∀ x ∈ tr₀, Map.Unstranded p x.1 x.2.1) (hc : map.Stores imp c) (hroom : map.shardBudget = 0)
    {v : Int} (hcounter : Counter (c key) v) (hothers : ∀ x ∈ others, x.Only (Sect.Spares map.home key))
    (hrange : ∀ is : List Nat, is.Nodup → Signed.i64Min ≤ v + (is.map (share adders)).sum ∧
      v + (is.map (share adders)).sum ≤ Signed.i64Max)
    (h : Run (Machine.Step (map.sections imp p)) (.start (map.sections imp p) map.tables
      (adders.map (Adder.prog map.shards.length) ++ others)) tr m)
    (hgranted : ∀ x ∈ tr, ∀ made, x.2.1.made = some made → ¬ made.op.Refused made.answer)
    (hdone : ∀ i < adders.length, ∃ ran, m.threads[i]? = some (.running (.ret ran))) :
    ∃ order : List Nat, order.Perm (List.range adders.length) ∧
      (∀ front i back, order = front ++ i :: back → ∃ ran, m.threads[i]? = some (.running (.ret ran)) ∧
        ran.reply = Encoder.integer (v + (front.map (share adders)).sum + share adders i)) ∧
      ((∀ who at_, ¬ m.Holds (map.sections imp p) who at_) → ∃ held,
        (map.holding (m.cells.map fun cell => cell.lock.value)).stored imp key = .ok held ∧
        Counter held (v + (adders.map Adder.by_).sum)) := by
  have hadders : ∀ (i : Nat) (x : Sects map.shards.length Commands.Ran),
      (adders.map (Adder.prog map.shards.length))[i]? = some x → Once key (Shares adders i) x := by
    intro i x hx
    rw [List.getElem?_map, Option.map_eq_some_iff] at hx
    obtain ⟨adder, hadder, rfl⟩ := hx
    exact (adder.once map.shards.length).mono fun t ran hcomes => ⟨adder, hadder, hcomes⟩
  have hfinished : ∀ i < (adders.map (Adder.prog map.shards.length)).length,
      ∃ ran, m.threads[i]? = some (.running (.ret ran)) := by
    rw [List.length_map]
    exact hdone
  obtain ⟨ts, Read, last, htakes, hperm, hwrites, hidle, -, -⟩ :=
    crowd_visits hreached hkeeps hc hroom hadders hothers h hgranted hfinished
  rw [List.length_map] at hperm
  -- a visit adds the share of the thread that makes it
  have hshares : ∀ t ∈ ts, t.op.reads = false → t.adds = share adders t.who := by
    intro t ht hreads
    obtain ⟨-, ran, -, adder, hadder, answer, heq, -⟩ := hwrites t ht hreads
    rw [share, hadder, heq]
    rfl
  have hadded : ∀ front back, ts = front ++ back →
      added front = (((front.filter fun t => !t.op.reads).map Visit.who).map (share adders)).sum := by
    intro front back heq
    apply added_eq
    intro t ht
    exact hshares t (heq ▸ List.mem_append_left back ht)
  have hops : ∀ t ∈ ts, t.op.reads = true ∨ ∃ by_ a, t = ⟨t.who, t.now, .increment by_, a⟩ := by
    intro t ht
    cases hreads : t.op.reads with
    | true => exact .inl rfl
    | false =>
      obtain ⟨-, ran, -, adder, -, answer, heq, -⟩ := hwrites t ht hreads
      exact .inr ⟨_, answer, heq⟩
  -- no front of the visits overflows, as no choice of threads does
  have hsums : ∀ front back, ts = front ++ back →
      Signed.i64Min ≤ v + added front ∧ v + added front ≤ Signed.i64Max := by
    intro front back heq
    rw [hadded front back heq]
    apply hrange
    have hnodup := (hperm.nodup_iff).mpr List.nodup_range
    rw [heq, List.filter_append, List.map_append] at hnodup
    exact (List.nodup_append.mp hnodup).1
  obtain ⟨hlast, htold⟩ := htakes.counts hcounter hops hsums
  refine ⟨_, hperm, ?_, ?_⟩
  · intro front i back heq
    -- the visits before this thread's own, and the reads in between left out
    obtain ⟨before, after, hfilter, rfl, hafter⟩ := List.map_eq_append_iff.mp heq
    obtain ⟨t, rest, rfl, rfl, -⟩ := List.map_eq_cons_iff.mp hafter
    obtain ⟨ts₁, ts₂, rfl, rfl, hts₂⟩ := List.filter_eq_append_iff.mp hfilter
    obtain ⟨looks, ts₃, rfl, hlooks, hwrite, -⟩ := List.filter_eq_cons_iff.mp hts₂
    have hnone : looks.filter (fun t => !t.op.reads) = [] := List.filter_eq_nil_iff.mpr hlooks
    have hmem : t ∈ ts₁ ++ (looks ++ t :: ts₃) := by simp
    rw [Bool.not_eq_true'] at hwrite
    obtain ⟨-, ran, hran, adder, hadder, answer, hvisit, hreply⟩ := hwrites t hmem hwrite
    refine ⟨ran, hran, ?_⟩
    have hcut : ts₁ ++ (looks ++ t :: ts₃) = (ts₁ ++ looks) ++ ⟨t.who, t.now, .increment adder.by_, answer⟩ :: ts₃ := by
      rw [← hvisit, List.append_assoc]
    have hbefore := hadded _ _ hcut
    rw [List.filter_append, hnone, List.append_nil] at hbefore
    rw [hreply, htold _ _ _ _ _ _ hcut, hbefore, share, hadder]
    rfl
  · intro hnobody
    refine ⟨last, hidle hnobody, ?_⟩
    have hsum : added ts = (adders.map Adder.by_).sum := by
      rw [hadded _ [] (List.append_nil _).symm, (hperm.map (share adders)).sum_eq, share_range]
    rw [← hsum]
    exact hlast

theorem increments_sum_two : ∃ tr m order, Run (Machine.Step (fresh.sections .word .boxed))
      (.start (fresh.sections .word .boxed) fresh.tables
        ([incrOne, decrFive].map (Adder.prog fresh.shards.length) ++ [])) tr m ∧
    (order : List Nat).Perm [0, 1] ∧
    (∀ front i back, order = front ++ i :: back → ∃ ran, m.threads[i]? = some (.running (.ret ran)) ∧
      ran.reply = Encoder.integer (0 + (front.map (share [incrOne, decrFive])).sum + share [incrOne, decrFive] i)) ∧
    ((∀ who at_, ¬ m.Holds (fresh.sections .word .boxed) who at_) → ∃ held,
      (fresh.holding (m.cells.map fun cell => cell.lock.value)).stored .word (ascii "a") = .ok held ∧
        Counter held (-4)) := by
  obtain ⟨tr, m, hrun, hthreads, hgranted⟩ := adders_run
  have hreached : Run (Map.Returns .word .boxed) (Map.withSeed 1 0 0) [] fresh := .nil
  have hcounter : Counter ((fun _ => none : Cache) (ascii "a")) 0 := ⟨rfl, fun kept hkept => by cases hkept⟩
  have hdone : ∀ i < [incrOne, decrFive].length, ∃ ran, m.threads[i]? = some (.running (.ret ran)) := by
    intro i hi
    rw [hthreads]
    obtain rfl | rfl : i = 0 ∨ i = 1 := by
      simp only [List.length_cons, List.length_nil] at hi
      omega
    · exact ⟨_, rfl⟩
    · exact ⟨_, rfl⟩
  have hrange : ∀ is : List Nat, is.Nodup → Signed.i64Min ≤ 0 + (is.map (share [incrOne, decrFive])).sum ∧
      0 + (is.map (share [incrOne, decrFive])).sum ≤ Signed.i64Max := by
    intro is hnodup
    -- none but the two has a share
    have hfew : is.toFinset.sum (share [incrOne, decrFive]) =
        (is.toFinset.filter fun i => i < 2).sum (share [incrOne, decrFive]) := by
      refine (Finset.sum_filter_of_ne ?_).symm
      intro i _ hne
      by_contra hge
      apply hne
      have hnone : [incrOne, decrFive][i]? = none := List.getElem?_eq_none (Nat.le_of_not_lt hge)
      rw [share, hnone]
      rfl
    have hall : ∀ few ∈ (Finset.range 2).powerset, Signed.i64Min ≤ 0 + few.sum (share [incrOne, decrFive]) ∧
        0 + few.sum (share [incrOne, decrFive]) ≤ Signed.i64Max := by decide
    rw [← List.sum_toFinset _ hnodup, hfew]
    apply hall
    rw [Finset.mem_powerset]
    intro i hi
    exact Finset.mem_range.mpr (Finset.mem_filter.mp hi).2
  obtain ⟨order, hperm, hreplies, hsum⟩ := increments_sum [incrOne, decrFive] hreached (List.forall_mem_nil _)
    (Map.is_withSeed .word 1 0 0).stores rfl hcounter (List.forall_mem_nil _) hrange hrun hgranted hdone
  exact ⟨tr, m, order, hrun, hperm, hreplies, hsum⟩

end threads
end Rugo
