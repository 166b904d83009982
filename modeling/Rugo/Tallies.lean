import Rugo.Batches

/- What the threads count (`rugo-server/src/stats.rs`). Every thread has a block of
   counters, which it alone writes: `bump` is a load and then a store, and between the two
   other threads may do as they like. `INFO` adds up the blocks of all, one load after
   another.

   A thread's program asks the map, or loads, or stores. What it asks the map for is what
   the command does (`Commands.run`); what it counts is put in around that, as `dispatch`
   has it: a command when it is run, and for each key of a `GET` or an `MGET` whether it
   was found.

     1. `tallies_kept`: at any moment a counter reads how often its owner has stored to it.
     2. `tallies_exact`: what a thread has counted when it is done.
     3. `info_between`: each number `INFO` shows lies between what all of them had counted
        when it began to read and what they had when it was done. -/
namespace Rugo
open Exec Progs Runs Resp

/-! ## The counters -/

/-- What is counted. -/
inductive Tally where
  | commands
  | hits
  | misses
  | connections
  deriving DecidableEq, Repr

/-- One thread's counters; and what all of them count. -/
structure Counters where
  commands : UInt64
  hits : UInt64
  misses : UInt64
  connections : UInt64

namespace Counters

def zero : Counters := ⟨0, 0, 0, 0⟩

def read (block : Counters) : Tally → UInt64
  | .commands => block.commands
  | .hits => block.hits
  | .misses => block.misses
  | .connections => block.connections

def write (block : Counters) (what : Tally) (value : UInt64) : Counters :=
  match what with
  | .commands => { block with commands := value }
  | .hits => { block with hits := value }
  | .misses => { block with misses := value }
  | .connections => { block with connections := value }

theorem read_write (block : Counters) (what other : Tally) (value : UInt64) :
    (block.write what value).read other = if other = what then value else block.read other := by
  cases what <;> cases other <;> rfl

@[simp] theorem read_zero (what : Tally) : zero.read what = 0 := by cases what <;> rfl

end Counters

/-- What a thread asks for: an operation of the map, or one access to one counter of one block. -/
inductive Ask where
  | map (op : Map.Op)
  | load (thread : Nat) (what : Tally)
  | store (thread : Nat) (what : Tally) (value : UInt64)

namespace Ask

@[reducible] def Answer : Ask → Type
  | map op => op.Answer
  | load .. => UInt64
  | store .. => Unit

def stored : Ask → Option (Nat × Tally)
  | store thread what _ => some (thread, what)
  | _ => none

end Ask

/-- The map, and every thread's counters (`Stats`). -/
structure Host where
  map : Map
  stats : List Counters

namespace Host

def perform (imp : Imp) (p : Platform) (sky : Sky) (s : Host) : (ask : Ask) → Exec (ask.Answer × Host)
  | .map op => do
    let (answer, map) ← s.map.perform imp p sky op
    pure (answer, { s with map })
  | .load thread what => do
    let block ← index s.stats thread
    pure (block.read what, s)
  | .store thread what value => do
    let block ← index s.stats thread
    let stats ← update s.stats thread (block.write what value)
    pure ((), { s with stats })

end Host

/-- A program that counts. -/
abbrev Asking (α : Type) := Prog Ask.Answer α

namespace Asking

/-- `Counters::bump`. -/
def bump (thread : Nat) (what : Tally) : Asking Unit := do
  let n ← Prog.ask (Ask.load thread what)
  Prog.ask (Ask.store thread what (n + 1))

def block (thread : Nat) : Asking Counters := do
  let commands ← Prog.ask (Ask.load thread .commands)
  let hits ← Prog.ask (Ask.load thread .hits)
  let misses ← Prog.ask (Ask.load thread .misses)
  let connections ← Prog.ask (Ask.load thread .connections)
  pure ⟨commands, hits, misses, connections⟩

def add (total block : Counters) : Counters :=
  ⟨total.commands + block.commands, total.hits + block.hits, total.misses + block.misses,
    total.connections + block.connections⟩

/-- The loop of `Stats::total`, over the threads from `thread` on. -/
def totalFrom (thread : Nat) : Nat → Counters → Asking Counters
  | 0, total => pure total
  | more + 1, total => do
    let found ← block thread
    totalFrom (thread + 1) more (add total found)

/-- `Stats::total`. -/
def total (threads : Nat) : Asking Counters := totalFrom 0 threads .zero

/-! ## Commands that count -/

/-- What the map is asked for, and nothing counted. -/
def plain {α : Type} (x : Commands.Work α) : Asking α := x.expand fun op => Prog.ask (Ask.map op)

/-- One operation, and of a read whether it found something. -/
def counting (thread : Nat) : (op : Map.Op) → Asking op.Answer
  | .key key .get => do
    let value ← Prog.ask (Ask.map (.key key .get))
    bump thread (if value.isNone then .misses else .hits)
    pure value
  | op => Prog.ask (Ask.map op)

/-- What the map is asked for, and of every read whether it found something. -/
def counted {α : Type} (thread : Nat) (x : Commands.Work α) : Asking α := x.expand (counting thread)

/-- A command that a thread is to run, and the rest of what `INFO` would print; it does not end the
process. -/
structure Task where
  env : Commands.Env
  args : List (List UInt8)
  dialect : Dialect
  stays : (Commands.arg args 0).map Commands.upper ≠ ascii "SHUTDOWN"

def Task.name (task : Task) : List UInt8 := (Commands.arg task.args 0).map Commands.upper

/-- `GET` and `MGET` count what they find. -/
def Task.reads (task : Task) : Prop := task.name = ascii "GET" ∨ task.name = ascii "MGET"

instance (task : Task) : Decidable task.reads := inferInstanceAs (Decidable (_ ∨ _))

/-- What the counters have come to, where `INFO` prints it. -/
def Task.seeing (task : Task) (total : Counters) : Commands.Env :=
  { task.env with
    commands := total.commands.toNat
    hits := total.hits.toNat
    misses := total.misses.toNat
    connections := total.connections.toNat }

/-- `dispatch::run`, by one of so many threads. -/
def dispatch (threads thread : Nat) (task : Task) : Asking Commands.Ran := do
  bump thread .commands
  if task.name = ascii "INFO" then do
    let total ← total threads
    plain (Commands.run (task.seeing total) task.args task.dialect)
  else if task.reads then counted thread (Commands.run task.env task.args task.dialect)
  else plain (Commands.run task.env task.args task.dialect)

/-- What a thread has to do: take in a connection, or run a command of one it has. -/
inductive Duty where
  | accept
  | command (task : Task)

/-- One duty after another. -/
def serve (threads thread : Nat) : List Duty → Asking (List Commands.Ran)
  | [] => pure []
  | .accept :: duties => do
    bump thread .connections
    serve threads thread duties
  | .command task :: duties => do
    let ran ← dispatch threads thread task
    let more ← serve threads thread duties
    pure (ran :: more)

/-! ## Only the owner counts, and by one -/

/-- A program that stores to its own counters only, each time one more than it has just read there. -/
def Bumps {α : Type} (thread : Nat) : Option (Tally × UInt64) → Asking α → Prop
  | _, .ret _ => True
  | _, .call (.map _) next => ∀ answer, Bumps thread none (next answer)
  | _, .call (.load other what) next =>
    ∀ n, Bumps thread (if other = thread then some (what, n) else none) (next n)
  | known, .call (.store other what value) next =>
    other = thread ∧ (∃ n, known = some (what, n) ∧ value = n + 1) ∧ Bumps thread none (next ())

section
variable {α β : Type} {thread : Nat} {known : Option (Tally × UInt64)}

theorem Bumps.weaken {x : Asking α} (h : x.Bumps thread none) : x.Bumps thread known := by
  cases x with
  | ret a => exact h
  | call ask next =>
    cases ask with
    | map op => exact h
    | load other what => exact h
    | store other what value =>
      obtain ⟨-, ⟨n, hnone, -⟩, -⟩ := h
      cases hnone

theorem Bumps.bind {x : Asking α} {f : α → Asking β} (h : x.Bumps thread known) (hf : ∀ a, (f a).Bumps thread none) :
    (x >>= f).Bumps thread known := by
  induction x generalizing known with
  | ret a => exact (hf a).weaken
  | call ask next ih =>
    cases ask with
    | map op =>
      intro answer
      exact ih answer (h answer)
    | load other what =>
      intro n
      exact ih n (h n)
    | store other what value =>
      obtain ⟨hown, hvalue, hrest⟩ := h
      exact ⟨hown, hvalue, ih () hrest⟩

theorem bumps_bump (thread : Nat) (what : Tally) : (bump thread what).Bumps thread none := by
  intro n
  exact ⟨rfl, ⟨n, if_pos rfl, rfl⟩, trivial⟩

theorem bumps_block (thread other : Nat) : (block other).Bumps thread none := fun _ _ _ _ => trivial

theorem bumps_totalFrom (thread other more : Nat) (total : Counters) :
    (totalFrom other more total).Bumps thread none := by
  induction more generalizing other total with
  | zero => trivial
  | succ more ih => exact (bumps_block thread other).bind fun found => ih _ _

theorem bumps_plain (thread : Nat) (x : Commands.Work α) : (plain x).Bumps thread none := by
  induction x with
  | ret a => trivial
  | call op next ih =>
    intro answer
    exact ih answer

theorem bumps_counting (thread : Nat) (op : Map.Op) : (counting thread op).Bumps thread none := by
  unfold counting
  split
  · intro value
    exact (bumps_bump thread _).bind fun _ => trivial
  · exact fun _ => trivial

theorem bumps_counted (thread : Nat) (x : Commands.Work α) : (counted thread x).Bumps thread none := by
  induction x with
  | ret a => trivial
  | call op next ih => exact (bumps_counting thread op).bind ih

theorem bumps_dispatch (threads thread : Nat) (task : Task) : (dispatch threads thread task).Bumps thread none := by
  apply (bumps_bump thread .commands).bind
  intro _
  split
  · exact (bumps_totalFrom thread 0 threads .zero).bind fun total => bumps_plain thread _
  · split
    · exact bumps_counted thread _
    · exact bumps_plain thread _

theorem bumps_serve (threads thread : Nat) (duties : List Duty) : (serve threads thread duties).Bumps thread none := by
  induction duties with
  | nil => trivial
  | cons duty duties ih =>
    cases duty with
    | accept => exact (bumps_bump thread .connections).bind fun _ => ih
    | command task => exact (bumps_dispatch threads thread task).bind fun ran => ih.bind fun _ => trivial

end

end Asking

/-! ## No count is lost -/

section kept
variable {α : Type} {imp : Imp} {p : Platform} {start pool pool' : Pool Ask.Answer Host α}

/-- How often a counter was stored to. -/
def tallied (thread : Nat) (what : Tally) (calls : List (Made Ask.Answer Sky)) : Nat :=
  calls.countP fun made => made.op.stored = some (thread, what)

/-- Every thread counts only what is its own, and between a load and the store after it the counter
is as it was read. -/
def Honest (pool : Pool Ask.Answer Host α) : Prop :=
  ∀ (who : Nat) (x : Asking α), pool.progs[who]? = some x → ∃ known, Asking.Bumps who known x ∧
    ∀ what n, known = some (what, n) → ∀ block, pool.state.stats[who]? = some block → block.read what = n

/-- What a step does to the counters: it adds one to that which it stores to, and that is its own. -/
structure Adds (s s' : Host) (made : Made Ask.Answer Sky) : Prop where
  blocks : ∀ (thread : Nat) (block : Counters), s.stats[thread]? = some block →
    ∃ block', s'.stats[thread]? = some block' ∧
      ∀ what, block'.read what = block.read what + UInt64.ofNat (tallied thread what [made])
  own : ∀ thread what, made.op.stored = some (thread, what) → made.who = thread

theorem adds_same {s s' : Host} {made : Made Ask.Answer Sky} (hstats : s'.stats = s.stats)
    (hstored : made.op.stored = none) : Adds s s' made := by
  refine ⟨?_, ?_⟩
  · intro thread block hblock
    rw [hstats]
    refine ⟨block, hblock, ?_⟩
    intro what
    simp [tallied, hstored]
  · intro thread what hsome
    rw [hstored] at hsome
    cases hsome

theorem Honest.step (h : Honest pool) {made : Made Ask.Answer Sky}
    (hstep : Pool.Step (Host.perform imp p) pool made pool') : Honest pool' ∧ Adds pool.state pool'.state made := by
  obtain ⟨hcall, hperform⟩ := hstep
  rename_i who sky ask next answer state
  obtain ⟨known, hbumps, hknown⟩ := h who _ hcall
  have hlt := (List.getElem?_eq_some_iff.mp hcall).1
  -- The others go on as they were, as long as their blocks are.
  have hrest : ∀ known', Asking.Bumps who known' (next answer) →
      (∀ what n, known' = some (what, n) → ∀ block, state.stats[who]? = some block → block.read what = n) →
      (∀ other ≠ who, state.stats[other]? = pool.state.stats[other]?) →
      Honest ⟨state, pool.progs.set who (next answer)⟩ := by
    intro known' hbumps' hknown' hothers other x hx
    by_cases heq : other = who
    · subst heq
      rw [List.getElem?_set_self hlt, Option.some.injEq] at hx
      rw [← hx]
      exact ⟨known', hbumps', hknown'⟩
    · rw [List.getElem?_set_ne (Ne.symm heq)] at hx
      obtain ⟨known, hbumps, hknown⟩ := h other x hx
      refine ⟨known, hbumps, ?_⟩
      rw [hothers other heq]
      exact hknown
  cases ask with
  | map op =>
    obtain ⟨⟨answer', map'⟩, -, hpure⟩ := bind_ok_iff.mp hperform
    cases hpure
    refine ⟨hrest none (hbumps answer) ?_ fun _ _ => rfl, adds_same rfl rfl⟩
    intro what n hnone
    cases hnone
  | load other what =>
    obtain ⟨block, hblock, hpure⟩ := bind_ok_iff.mp hperform
    cases hpure
    refine ⟨hrest _ (hbumps _) ?_ fun _ _ => rfl, adds_same rfl rfl⟩
    intro what' n hsome block' hblock'
    split at hsome
    · next heq =>
      cases hsome
      rw [heq] at hblock
      rw [index_eq_ok.mp hblock, Option.some.injEq] at hblock'
      rw [hblock']
    · cases hsome
  | store other what value =>
    obtain ⟨rfl, ⟨n, rfl, rfl⟩, hbumps'⟩ := hbumps
    obtain ⟨block, hblock, hperform⟩ := bind_ok_iff.mp hperform
    obtain ⟨stats, hupdate, hpure⟩ := bind_ok_iff.mp hperform
    obtain ⟨hin, rfl⟩ := update_eq_ok.mp hupdate
    cases hpure
    refine ⟨hrest none hbumps' ?_ fun thread hne => List.getElem?_set_ne (Ne.symm hne), ?_, ?_⟩
    · intro what' n' hnone
      cases hnone
    · intro thread block' hblock'
      by_cases heq : thread = other
      · subst heq
        rw [index_eq_ok.mp hblock, Option.some.injEq] at hblock'
        subst hblock'
        refine ⟨_, List.getElem?_set_self hin, ?_⟩
        intro what'
        rw [Counters.read_write]
        by_cases hwhat : what' = what
        · subst hwhat
          rw [if_pos rfl, ← hknown what' n rfl block (index_eq_ok.mp hblock)]
          simp [tallied, Ask.stored]
        · simp [tallied, Ask.stored, hwhat, Ne.symm hwhat]
      · refine ⟨block', ?_, ?_⟩
        · rw [← hblock']
          exact List.getElem?_set_ne (Ne.symm heq)
        · intro what'
          simp [tallied, Ask.stored, Ne.symm heq]
    · intro thread what' hsome
      cases hsome
      rfl

def made (tr : List (Pool Ask.Answer Host α × Made Ask.Answer Sky × Pool Ask.Answer Host α)) :
    List (Made Ask.Answer Sky) :=
  tr.map fun x => x.2.1

variable {tr : List (Pool Ask.Answer Host α × Made Ask.Answer Sky × Pool Ask.Answer Host α)}

theorem made_append (tr tr' : List (Pool Ask.Answer Host α × Made Ask.Answer Sky × Pool Ask.Answer Host α)) :
    made (tr ++ tr') = made tr ++ made tr' := List.map_append

theorem tallied_append (thread : Nat) (what : Tally) (calls others : List (Made Ask.Answer Sky)) :
    tallied thread what (calls ++ others) = tallied thread what calls + tallied thread what others := List.countP_append

/-- At any moment every counter reads what it did at first and how often its owner has stored to it since. -/
theorem tallies_kept (hhonest : Honest start) (h : Run (Pool.Step (Host.perform imp p)) start tr pool) :
    Honest pool ∧ ∀ (thread : Nat) (block₀ : Counters), start.state.stats[thread]? = some block₀ →
      ∃ block, pool.state.stats[thread]? = some block ∧
        ∀ what, block.read what = block₀.read what + UInt64.ofNat (tallied thread what (made tr)) := by
  induction h with
  | nil =>
    refine ⟨hhonest, ?_⟩
    intro thread block hblock
    refine ⟨block, hblock, ?_⟩
    intro what
    simp [tallied, made]
  | @snoc tr pool call pool' _ hstep ih =>
    obtain ⟨hhonest, hblocks⟩ := ih
    obtain ⟨hhonest', hadds⟩ := hhonest.step hstep
    refine ⟨hhonest', ?_⟩
    intro thread block₀ hblock₀
    obtain ⟨block, hblock, hsofar⟩ := hblocks thread block₀ hblock₀
    obtain ⟨block', hblock', hmore⟩ := hadds.blocks thread block hblock
    refine ⟨block', hblock', ?_⟩
    intro what
    rw [hmore, hsofar, made_append, tallied_append, UInt64.ofNat_add, UInt64.add_assoc]
    rfl

/-- Nobody else stores to a thread's counters. -/
theorem tallied_own (hhonest : Honest start) (h : Run (Pool.Step (Host.perform imp p)) start tr pool) (thread : Nat)
    (what : Tally) : tallied thread what (made (Pool.stepsOf thread tr)) = tallied thread what (made tr) := by
  have hsteps := (Run.steps hhonest (fun s e s' hs hstep => (hs.step hstep).1) h).2
  have hown : ∀ x ∈ tr, x.2.1.op.stored = some (thread, what) → x.2.1.who = thread := by
    intro x hx
    obtain ⟨hhonest, hstep⟩ := hsteps x hx
    exact (hhonest.step hstep).2.own thread what
  rw [tallied, tallied, made, made, List.countP_map, List.countP_map, Pool.stepsOf, List.countP_filter]
  apply List.countP_congr
  intro x hx
  have hwho := hown x hx
  simp only [Function.comp_apply, Bool.and_eq_true, decide_eq_true_eq]
  exact ⟨fun hboth => hboth.1, fun hstored => ⟨hstored, hwho hstored⟩⟩

end kept

/-! ## What a thread has counted -/

namespace Asking
open Commands
variable {α β : Type} {threads thread : Nat} {calls : List (Made Ask.Answer Sky)}

def mapped : List (Made Ask.Answer Sky) → List (Made Map.Op.Answer Sky)
  | [] => []
  | ⟨who, sky, .map op, answer⟩ :: calls => ⟨who, sky, op, answer⟩ :: mapped calls
  | _ :: calls => mapped calls

theorem mapped_append (calls others : List (Made Ask.Answer Sky)) :
    mapped (calls ++ others) = mapped calls ++ mapped others := by
  induction calls with
  | nil => rfl
  | cons made calls ih =>
    obtain ⟨who, sky, ask, answer⟩ := made
    cases ask with
    | map op => exact congrArg _ ih
    | load other what => exact ih
    | store other what value => exact ih

/-- How often a thread's counters were stored to. -/
def Counted (thread : Nat) (calls : List (Made Ask.Answer Sky)) (commands hits misses connections : Nat) : Prop :=
  tallied thread .commands calls = commands ∧ tallied thread .hits calls = hits ∧
    tallied thread .misses calls = misses ∧ tallied thread .connections calls = connections

theorem Counted.append {others : List (Made Ask.Answer Sky)} {a b c d a' b' c' d' : Nat}
    (h : Counted thread calls a b c d) (h' : Counted thread others a' b' c' d') :
    Counted thread (calls ++ others) (a + a') (b + b') (c + c') (d + d') := by
  obtain ⟨rfl, rfl, rfl, rfl⟩ := h
  obtain ⟨rfl, rfl, rfl, rfl⟩ := h'
  simp only [Counted, tallied, List.countP_append, and_self]

theorem Counted.map {a b c d : Nat} (h : Counted thread calls a b c d) (who : Nat) (sky : Sky) (op : Map.Op)
    (answer : op.Answer) : Counted thread (⟨who, sky, .map op, answer⟩ :: calls) a b c d := by
  simpa [Counted, tallied, Ask.stored] using h

theorem counted_nil (thread : Nat) : Counted thread [] 0 0 0 0 := ⟨rfl, rfl, rfl, rfl⟩

theorem bump_drives {what : Tally} {n : Unit} (h : Drives (bump thread what) calls (.ret n)) :
    mapped calls = [] ∧ ∀ other, tallied thread other calls = if other = what then 1 else 0 := by
  cases h with
  | cons h =>
    cases h with
    | cons h =>
      cases h
      refine ⟨rfl, ?_⟩
      intro other
      by_cases heq : other = what
      · simp [tallied, Ask.stored, heq]
      · simp [tallied, Ask.stored, heq, Ne.symm heq]

theorem plain_drives {x : Work α} {a : α} (h : Drives (plain x) calls (.ret a)) :
    Drives x (mapped calls) (.ret a) ∧ Counted thread calls 0 0 0 0 := by
  induction x generalizing calls with
  | ret b =>
    cases h
    exact ⟨.nil, counted_nil thread⟩
  | call op next ih =>
    cases h with
    | cons h =>
      obtain ⟨hdrives, hcounted⟩ := ih _ h
      exact ⟨.cons hdrives, hcounted.map _ _ op _⟩

/-- What a call was told, if it reads. -/
def saw : Made Map.Op.Answer Sky → Option (Option (List UInt8))
  | ⟨_, _, .key _ .get, value⟩ => some value
  | _ => none

/-- What the reads among the calls were told. -/
def told (calls : List (Made Map.Op.Answer Sky)) : List (Option (List UInt8)) := calls.filterMap saw

theorem saw_other {who : Nat} {sky : Sky} {op : Map.Op} {answer : op.Answer} (hop : ∀ key, op ≠ .key key .get) :
    saw ⟨who, sky, op, answer⟩ = none := by
  unfold saw
  split
  · next heq =>
    cases heq
    exact absurd rfl (hop _)
  · rfl

theorem told_reads {calls : List (Made Map.Op.Answer Sky)} (h : ∀ made ∈ calls, IsRead made) :
    told calls = calls.map heard := by
  rw [told, ← List.filterMap_eq_map]
  apply List.filterMap_congr
  intro made hmade
  rw [h made hmade]
  rfl

theorem counting_other {op : Map.Op} (hop : ∀ key, op ≠ .key key .get) :
    counting thread op = Prog.ask (Ask.map op) := by
  unfold counting
  split
  · exact absurd rfl (hop _)
  · rfl

/-- A read is counted by what it was told. -/
theorem found_drives (value : Option (List UInt8)) {n : Unit}
    (h : Drives (bump thread (if value.isNone then .misses else .hits)) calls (.ret n)) :
    mapped calls = [] ∧ Counted thread calls 0 (if value.isSome then 1 else 0) (if value.isNone then 1 else 0) 0 := by
  obtain ⟨hmapped, hstored⟩ := bump_drives h
  refine ⟨hmapped, ?_⟩
  cases value with
  | none => exact ⟨hstored _, hstored _, hstored _, hstored _⟩
  | some found => exact ⟨hstored _, hstored _, hstored _, hstored _⟩

theorem counted_drives {x : Work α} {a : α} (h : Drives (counted thread x) calls (.ret a)) :
    Drives x (mapped calls) (.ret a) ∧
      Counted thread calls 0 ((told (mapped calls)).countP Option.isSome)
        ((told (mapped calls)).countP Option.isNone) 0 := by
  induction x generalizing calls with
  | ret b =>
    cases h
    exact ⟨.nil, counted_nil thread⟩
  | call op next ih =>
    obtain ⟨answer, before, after, rfl, hop, hrest⟩ := Drives.bind (f := fun answer => counted thread (next answer)) h
    obtain ⟨hdrives, hcounted⟩ := ih answer hrest
    rw [mapped_append]
    -- a GET bumps a counter after it, and any other call does not
    by_cases hget : ∃ key, op = .key key .get
    · obtain ⟨key, rfl⟩ := hget
      cases hop with
      | @cons who sky _ _ value calls _ hbump =>
        change Drives (bump thread (if value.isNone then .misses else .hits) >>= fun _ => pure value) calls _ at hbump
        obtain ⟨n, bumped, others, rfl, hbumped, hret⟩ := Drives.bind hbump
        cases hret
        rw [List.append_nil, mapped, (found_drives answer hbumped).1]
        refine ⟨.cons hdrives, ?_⟩
        have hboth := ((found_drives answer hbumped).2.append hcounted).map who sky (.key key .get) answer
        rw [Nat.add_comm (if Option.isSome _ then _ else _), Nat.add_comm (if Option.isNone _ then _ else _)] at hboth
        rw [told, List.filterMap_append]
        change Counted thread _ _ (List.countP _ (answer :: told (mapped after)))
          (List.countP _ (answer :: told (mapped after))) _
        rw [List.countP_cons, List.countP_cons]
        exact hboth
    · have hother : ∀ key, op ≠ .key key .get := fun key hop => hget ⟨key, hop⟩
      rw [counting_other hother] at hop
      cases hop with
      | @cons who sky _ _ value calls _ hret =>
        cases hret
        refine ⟨.cons hdrives, ?_⟩
        rw [mapped, mapped, told, List.filterMap_append, List.filterMap_cons, saw_other hother]
        exact hcounted.map who sky op answer

/-- A load, of whosever counter. -/
def IsLoad (ask : Ask) : Prop := ∃ other what, ask = .load other what

theorem loads_drives {x y : Asking α} (hx : x.Only IsLoad) (h : Drives x calls y) :
    mapped calls = [] ∧ Counted thread calls 0 0 0 0 := by
  induction h with
  | nil => exact ⟨rfl, counted_nil thread⟩
  | cons _ ih =>
    obtain ⟨⟨other, what, rfl⟩, hnext⟩ := hx
    obtain ⟨hmapped, hcounted⟩ := ih (hnext _)
    refine ⟨hmapped, ?_⟩
    simpa [Counted, tallied, Ask.stored] using hcounted

theorem block_only (other : Nat) : (block other).Only IsLoad :=
  ⟨⟨_, _, rfl⟩, fun _ => ⟨⟨_, _, rfl⟩, fun _ => ⟨⟨_, _, rfl⟩, fun _ => ⟨⟨_, _, rfl⟩, fun _ => trivial⟩⟩⟩⟩

theorem totalFrom_only (other more : Nat) (total : Counters) : (totalFrom other more total).Only IsLoad := by
  induction more generalizing other total with
  | zero => trivial
  | succ more ih => exact (block_only other).bind fun found => ih _ _

/-- The keys that a `GET` or an `MGET` reads. -/
def Task.keys (task : Task) : List (List UInt8) :=
  if task.name = ascii "GET" ∧ task.args.length = 2 ∨ task.name = ascii "MGET" then task.args.drop 1 else []

def Task.answers (task : Task) (values : List (Option (List UInt8))) : List UInt8 :=
  (if task.name = ascii "MGET" then Encoder.array values.length else []) ++ values.flatMap (bulkOr task.dialect)

/-- A command found these: a value, or none, for each key that it read, and replied with them. -/
def Told (task : Task) (ran : Commands.Ran) (values : List (Option (List UInt8))) : Prop :=
  values.length = task.keys.length ∧ (task.keys ≠ [] → ran.reply = task.answers values)

theorem told_none {task : Task} (ran : Commands.Ran) (hkeys : task.keys = []) : Told task ran [] :=
  ⟨(congrArg List.length hkeys).symm, fun hne => absurd hkeys hne⟩

section reads
variable {env : Env} {dialect : Dialect} {name : List UInt8} {rest : List (List UInt8)} {ran : Commands.Ran}
  {calls : List (Made Map.Op.Answer Sky)}

theorem get_told (stays : (arg (name :: rest) 0).map upper ≠ ascii "SHUTDOWN") (hname : name.map upper = ascii "GET")
    (h : Drives (Commands.run env (name :: rest) dialect) calls (.ret ran)) :
    Told ⟨env, name :: rest, dialect, stays⟩ ran (told calls) := by
  have hget : Task.name ⟨env, name :: rest, dialect, stays⟩ = ascii "GET" := hname
  have hrun : Commands.run env (name :: rest) dialect = (do
      let reply ← Commands.get dialect (name :: rest)
      pure ⟨reply, dialect, false⟩) := run_strings hname (by decide) rfl
  rw [hrun] at h
  by_cases hlength : (name :: rest).length = 2
  · obtain ⟨key, rfl⟩ := List.length_eq_one_iff.mp (Nat.succ_inj.mp hlength)
    cases h with
    | cons h =>
      cases h
      refine ⟨?_, ?_⟩
      · simp [told, saw, Task.keys, hget]
      · intro _
        simp [told, saw, Task.answers, hget, ascii]
  · rw [Commands.get, arity, if_neg hlength] at h
    cases h
    apply told_none
    rw [Task.keys, hget, if_neg]
    rintro (⟨-, htwo⟩ | hmget)
    · exact hlength htwo
    · exact absurd hmget (by decide)

theorem mget_told (stays : (arg (name :: rest) 0).map upper ≠ ascii "SHUTDOWN") (hname : name.map upper = ascii "MGET")
    (h : Drives (Commands.run env (name :: rest) dialect) calls (.ret ran)) :
    Told ⟨env, name :: rest, dialect, stays⟩ ran (told calls) := by
  have hmget : Task.name ⟨env, name :: rest, dialect, stays⟩ = ascii "MGET" := hname
  have hkeys : Task.keys ⟨env, name :: rest, dialect, stays⟩ = rest := if_pos (.inr hmget)
  by_cases hrest : rest = []
  · subst hrest
    rw [run_mget hname] at h
    cases h
    exact told_none _ hkeys
  · obtain ⟨hasked, hreads, hreply⟩ := mget_drives hname hrest h
    rw [told_reads hreads]
    refine ⟨?_, ?_⟩
    · rw [hkeys, ← hasked, List.length_map, List.length_map]
    · intro _
      rw [hreply, Task.answers, if_pos hmget, List.length_map, List.flatMap_map, ← hasked, List.length_map]

end reads

/-- What a command found is what its reads are told, if they are counted. -/
theorem reads_told {task : Task} {ran : Commands.Ran} {calls : List (Made Map.Op.Answer Sky)} (hreads : task.reads)
    (h : Drives (Commands.run task.env task.args task.dialect) calls (.ret ran)) : Told task ran (told calls) := by
  obtain ⟨env, args, dialect, stays⟩ := task
  cases args with
  | nil =>
    cases h
    exact told_none _ rfl
  | cons name rest =>
    obtain hname | hname := hreads
    · exact get_told stays hname h
    · exact mget_told stays hname h

theorem dispatch_drives {task : Task} {ran : Commands.Ran}
    (h : Drives (dispatch threads thread task) calls (.ret ran)) :
    ∃ values, Told task ran values ∧
      Counted thread calls 1 (values.countP Option.isSome) (values.countP Option.isNone) 0 := by
  have hnone {task : Task} (hreads : ¬ task.reads) : task.keys = [] := by
    rw [Task.keys, if_neg]
    rintro (⟨hget, -⟩ | hmget)
    · exact hreads (.inl hget)
    · exact hreads (.inr hmget)
  obtain ⟨n, bumped, rest, rfl, hbumped, hrest⟩ := Drives.bind h
  have hone : Counted thread bumped 1 0 0 0 :=
    ⟨(bump_drives hbumped).2 _, (bump_drives hbumped).2 _, (bump_drives hbumped).2 _, (bump_drives hbumped).2 _⟩
  split at hrest
  · next hinfo =>
    obtain ⟨total, loads, others, rfl, hloads, hothers⟩ := Drives.bind hrest
    have hreads : ¬ task.reads := by
      rintro (hget | hmget)
      · exact absurd (hinfo.symm.trans hget) (by decide)
      · exact absurd (hinfo.symm.trans hmget) (by decide)
    refine ⟨[], told_none _ (hnone hreads), ?_⟩
    exact hone.append ((loads_drives (totalFrom_only 0 threads .zero) hloads).2.append (plain_drives hothers).2)
  · split at hrest
    · next hreads =>
      obtain ⟨hdrives, hcounted⟩ := counted_drives hrest
      refine ⟨_, reads_told hreads hdrives, ?_⟩
      simpa using hone.append hcounted
    · next hreads => exact ⟨[], told_none _ (hnone hreads), hone.append (plain_drives hrest).2⟩

/-- What came of the duties: what each command replied, and all that was found. -/
inductive Came : List Duty → List Commands.Ran → List (Option (List UInt8)) → Prop
  | nil : Came [] [] []
  | accept {duties rans values} : Came duties rans values → Came (.accept :: duties) rans values
  | command {task ran found duties rans values} : Told task ran found → Came duties rans values →
      Came (.command task :: duties) (ran :: rans) (found ++ values)

def Duty.accepts : Duty → Bool
  | .accept => true
  | .command _ => false

theorem serve_drives {duties : List Duty} {rans : List Commands.Ran}
    (h : Drives (serve threads thread duties) calls (.ret rans)) :
    ∃ values, Came duties rans values ∧ Counted thread calls rans.length (values.countP Option.isSome)
      (values.countP Option.isNone) (duties.countP Duty.accepts) := by
  induction duties generalizing calls rans with
  | nil =>
    cases h
    exact ⟨[], .nil, counted_nil thread⟩
  | cons duty duties ih =>
    cases duty with
    | accept =>
      obtain ⟨n, bumped, rest, rfl, hbumped, hrest⟩ := Drives.bind h
      have hone : Counted thread bumped 0 0 0 1 :=
        ⟨(bump_drives hbumped).2 _, (bump_drives hbumped).2 _, (bump_drives hbumped).2 _, (bump_drives hbumped).2 _⟩
      obtain ⟨values, hcame, hcounted⟩ := ih hrest
      refine ⟨values, hcame.accept, ?_⟩
      have hboth := hone.append hcounted
      rw [Nat.add_comm 1] at hboth
      simpa [List.countP_cons, Duty.accepts] using hboth
    | command task =>
      obtain ⟨ran, before, rest, rfl, hbefore, hrest⟩ := Drives.bind h
      obtain ⟨more, after, others, rfl, hafter, hret⟩ := Drives.bind hrest
      cases hret
      obtain ⟨found, htold, hfound⟩ := dispatch_drives hbefore
      obtain ⟨values, hcame, hcounted⟩ := ih hafter
      refine ⟨found ++ values, .command htold hcame, ?_⟩
      have hboth := hfound.append hcounted
      rw [Nat.add_comm 1] at hboth
      simpa [Duty.accepts, List.countP_append] using hboth

end Asking

/-! ## The server -/

/-- The map, the counters and the threads; and what the threads do, step after step. -/
abbrev Threads := Pool Ask.Answer Host (List Commands.Ran)
abbrev Steps := List (Threads × Made Ask.Answer Sky × Threads)

section served
open Asking
variable {imp : Imp} {p : Platform} {map : Map} {threads : Nat} {duties : Nat → List Duty} {pool : Threads} {tr : Steps}

/-- So many threads, each with what it will have to do, and nothing counted (`Stats::new`). -/
def unbegun (map : Map) (threads : Nat) (duties : Nat → List Duty) : Threads :=
  ⟨⟨map, List.replicate threads .zero⟩, (List.range threads).map fun thread => serve threads thread (duties thread)⟩

theorem unbegun_prog {thread : Nat} (hthread : thread < threads) :
    (unbegun map threads duties).progs[thread]? = some (serve threads thread (duties thread)) := by
  simp [unbegun, hthread]

theorem honest_unbegun (map : Map) (threads : Nat) (duties : Nat → List Duty) :
    Honest (unbegun map threads duties) := by
  intro who x hx
  have hwho : who < threads := by
    have hlt := (List.getElem?_eq_some_iff.mp hx).1
    rwa [unbegun, List.length_map, List.length_range] at hlt
  rw [unbegun_prog hwho, Option.some.injEq] at hx
  rw [← hx]
  refine ⟨none, bumps_serve threads who (duties who), ?_⟩
  intro what n hnone
  cases hnone

/-- At any moment a thread's counter reads how often the thread has stored to it. -/
theorem tallies_read (h : Run (Pool.Step (Host.perform imp p)) (unbegun map threads duties) tr pool) {thread : Nat}
    (hthread : thread < threads) : ∃ block, pool.state.stats[thread]? = some block ∧
      ∀ what, block.read what = UInt64.ofNat (tallied thread what (made tr)) := by
  have hzero : (unbegun map threads duties).state.stats[thread]? = some .zero := by simp [unbegun, hthread]
  obtain ⟨block, hblock, hread⟩ := (tallies_kept (honest_unbegun map threads duties) h).2 thread _ hzero
  refine ⟨block, hblock, ?_⟩
  intro what
  rw [hread, Counters.read_zero, UInt64.zero_add]

def informs : Task := ⟨Commands.started, [ascii "info", ascii "stats"], .resp2, by decide⟩

/-- What two threads have to do: a connection each, on the one a `GET` and an `INFO`, and on the other a
`SET` of the same key and a `GET`. -/
def opens : Nat → List Duty
  | 0 => [.accept, .command ⟨Commands.started, [ascii "get", ascii "a"], .resp2, by decide⟩, .command informs]
  | _ => [.accept, .command ⟨Commands.started, [ascii "set", ascii "a", ascii "1"], .resp2, by decide⟩,
    .command ⟨Commands.started, [ascii "get", ascii "a"], .resp2, by decide⟩]

/-- They make their calls in turn. -/
theorem opens_turns : (Pool.turns (Host.perform .word .boxed) ⟨9, true⟩ ((List.range 40).map (· % 2))
      (unbegun fresh 2 opens)).map (fun pool => pool.progs.map fun x => (Pool.result x).map List.length) =
    .ok [some 2, some 2] := by
  decide +kernel

theorem opens_runs : ∃ tr pool rans others,
    Run (Pool.Step (Host.perform .word .boxed)) (unbegun fresh 2 opens) tr pool ∧
    pool.progs[0]? = some (.ret rans) ∧ pool.progs[1]? = some (.ret others) := by
  have hturns := opens_turns
  cases hpool : Pool.turns (Host.perform .word .boxed) ⟨9, true⟩ ((List.range 40).map (· % 2))
      (unbegun fresh 2 opens) with
  | error e =>
    rw [hpool] at hturns
    cases hturns
  | ok pool =>
    rw [hpool] at hturns
    have hprogs : (pool.progs.map fun x => (Pool.result x).map List.length) = [some 2, some 2] := Except.ok.inj hturns
    obtain ⟨tr, hrun⟩ := Pool.turns_run hpool
    have hdone : ∀ who : Nat, (pool.progs.map fun x => (Pool.result x).map List.length)[who]? = some (some 2) →
        ∃ rans : List Commands.Ran, pool.progs[who]? = some (.ret rans) := by
      intro who hwho
      rw [List.getElem?_map, Option.map_eq_some_iff] at hwho
      obtain ⟨x, hx, hlength⟩ := hwho
      obtain ⟨rans, hrans, -⟩ := Option.map_eq_some_iff.mp hlength
      exact ⟨rans, hx.trans (congrArg some (Pool.result_eq_some hrans))⟩
    obtain ⟨rans, hrans⟩ := hdone 0 (by rw [hprogs]; rfl)
    obtain ⟨others, hothers⟩ := hdone 1 (by rw [hprogs]; rfl)
    exact ⟨tr, pool, rans, others, hrun, hrans, hothers⟩

/-- Whatever the other threads do meanwhile, a thread that is done has counted its commands, the
connections it took in, and of each value that a `GET` or an `MGET` of its replied with whether it
was there. -/
theorem tallies_exact (h : Run (Pool.Step (Host.perform imp p)) (unbegun map threads duties) tr pool) {thread : Nat}
    {rans : List Commands.Ran} (hdone : pool.progs[thread]? = some (.ret rans)) :
    ∃ values, Came (duties thread) rans values ∧
      pool.state.stats[thread]? = some
        ⟨UInt64.ofNat rans.length, UInt64.ofNat (values.countP Option.isSome),
          UInt64.ofNat (values.countP Option.isNone), UInt64.ofNat ((duties thread).countP Duty.accepts)⟩ := by
  have hlength : pool.progs.length = threads := by simp [Pool.run_length h, unbegun]
  have hthread : thread < threads := hlength ▸ (List.getElem?_eq_some_iff.mp hdone).1
  obtain ⟨y, hy, hdrives⟩ := Pool.run_drives h (unbegun_prog hthread)
  rw [hdone, Option.some.injEq] at hy
  rw [← hy] at hdrives
  obtain ⟨values, hcame, hcommands, hhits, hmisses, hconnections⟩ := serve_drives hdrives
  obtain ⟨block, hblock, hread⟩ := tallies_read h hthread
  refine ⟨values, hcame, ?_⟩
  rw [hblock, Option.some.injEq]
  have hown : ∀ what, block.read what = UInt64.ofNat (tallied thread what (made (Pool.stepsOf thread tr))) := by
    intro what
    rw [hread, tallied_own (honest_unbegun map threads duties) h]
  rw [← hcommands, ← hhits, ← hmisses, ← hconnections]
  obtain ⟨commands, hits, misses, connections⟩ := block
  rw [Counters.mk.injEq]
  exact ⟨hown .commands, hown .hits, hown .misses, hown .connections⟩

theorem tallies_exact_opens : ∃ tr pool rans others values found,
    Run (Pool.Step (Host.perform .word .boxed)) (unbegun fresh 2 opens) tr pool ∧
    Came (opens 0) rans values ∧ pool.state.stats[0]? =
      some ⟨UInt64.ofNat rans.length, UInt64.ofNat (values.countP Option.isSome),
        UInt64.ofNat (values.countP Option.isNone), 1⟩ ∧
    Came (opens 1) others found ∧ pool.state.stats[1]? =
      some ⟨UInt64.ofNat others.length, UInt64.ofNat (found.countP Option.isSome),
        UInt64.ofNat (found.countP Option.isNone), 1⟩ := by
  obtain ⟨tr, pool, rans, others, hrun, hdone, hdone'⟩ := opens_runs
  obtain ⟨values, hcame, hblock⟩ := tallies_exact hrun hdone
  obtain ⟨found, hcame', hblock'⟩ := tallies_exact hrun hdone'
  exact ⟨tr, pool, rans, others, values, found, hrun, hcame, hblock, hcame', hblock'⟩

/-! ## What `INFO` shows -/

/-- What so many threads have counted, from `thread` on. -/
def among (what : Tally) (calls : List (Made Ask.Answer Sky)) (thread : Nat) : Nat → Nat
  | 0 => 0
  | more + 1 => tallied thread what calls + among what calls (thread + 1) more

theorem among_le (what : Tally) (calls others : List (Made Ask.Answer Sky)) (thread more : Nat) :
    among what calls thread more ≤ among what (calls ++ others) thread more := by
  induction more generalizing thread with
  | zero => exact Nat.le_refl _
  | succ more ih =>
    rw [among, among, tallied_append]
    exact Nat.add_le_add (Nat.le_add_right _ _) (ih _)

/-- A load is told what had been counted by then. -/
theorem load_told (h : Run (Pool.Step (Host.perform imp p)) (unbegun map threads duties) tr pool) {thread : Nat}
    (hthread : thread < threads) {front back : Steps} {x : Threads × Made Ask.Answer Sky × Threads}
    (htr : tr = front ++ x :: back) {who : Nat} {sky : Sky} {what : Tally} {n : UInt64}
    (hx : x.2.1 = ⟨who, sky, .load thread what, n⟩) : n = UInt64.ofNat (tallied thread what (made front)) := by
  rw [htr] at h
  obtain ⟨hbefore, hstep, -⟩ := h.split
  obtain ⟨block, hblock, hread⟩ := tallies_read hbefore hthread
  have hperform := hstep.performed
  rw [hx] at hperform
  obtain ⟨block', hindex, hpure⟩ := bind_ok_iff.mp hperform
  rw [index_eq_ok, hblock, Option.some.injEq] at hindex
  have hn : block'.read what = n := (Prod.mk.inj (Except.ok.inj hpure)).1
  rw [← hn, ← hindex, hread]

theorem read_add (total found : Counters) (what : Tally) :
    (add total found).read what = total.read what + found.read what := by
  cases what <;> rfl

theorem block_drives {thread : Nat} {calls : List (Made Ask.Answer Sky)} {found : Counters}
    (h : Drives (block thread) calls (.ret found)) (what : Tally) :
    ∃ who sky, (⟨who, sky, .load thread what, found.read what⟩ : Made Ask.Answer Sky) ∈ calls := by
  cases h with
  | cons h => cases h with
  | cons h => cases h with
  | cons h => cases h with
  | cons h =>
    cases h
    cases what
    · exact ⟨_, _, .head _⟩
    · exact ⟨_, _, .tail _ (.head _)⟩
    · exact ⟨_, _, .tail _ (.tail _ (.head _))⟩
    · exact ⟨_, _, .tail _ (.tail _ (.tail _ (.head _)))⟩

/-- What is read of one thread's block had been counted at some moment of the reading. -/
theorem block_between (h : Run (Pool.Step (Host.perform imp p)) (unbegun map threads duties) tr pool) {thread : Nat}
    (hthread : thread < threads) {tr₁ tr₂ tr₃ : Steps} (htr : tr = tr₁ ++ tr₂ ++ tr₃) {who : Nat} {found : Counters}
    (hread : Drives (block thread) (made (Pool.stepsOf who tr₂)) (.ret found)) (what : Tally) :
    ∃ n, tallied thread what (made tr₁) ≤ n ∧ n ≤ tallied thread what (made (tr₁ ++ tr₂)) ∧
      found.read what = UInt64.ofNat n := by
  obtain ⟨who', sky, hmem⟩ := block_drives hread what
  obtain ⟨x, hx, hmade⟩ := List.mem_map.mp hmem
  obtain ⟨front, back, rfl⟩ := List.append_of_mem (List.mem_of_mem_filter hx)
  refine ⟨tallied thread what (made (tr₁ ++ front)), ?_, ?_, ?_⟩
  · rw [made_append, tallied_append]
    exact Nat.le_add_right _ _
  · rw [← List.append_assoc, made_append (tr₁ ++ front), tallied_append]
    exact Nat.le_add_right _ _
  · apply load_told h hthread _ hmade
    · exact back ++ tr₃
    · rw [htr]
      simp

/-- The same of the blocks of so many threads, added up. -/
theorem totalFrom_between (h : Run (Pool.Step (Host.perform imp p)) (unbegun map threads duties) tr pool)
    {thread more : Nat}
    (hmore : thread + more ≤ threads) {tr₁ tr₂ tr₃ : Steps} (htr : tr = tr₁ ++ tr₂ ++ tr₃) {who : Nat}
    {sofar total : Counters}
    {reading : List (Made Ask.Answer Sky)} (hreading : made (Pool.stepsOf who tr₂) = reading)
    (hread : Drives (totalFrom thread more sofar) reading (.ret total)) (what : Tally) :
    ∃ n, among what (made tr₁) thread more ≤ n ∧ n ≤ among what (made (tr₁ ++ tr₂)) thread more ∧
      total.read what = sofar.read what + UInt64.ofNat n := by
  induction more generalizing thread sofar tr₁ tr₂ reading with
  | zero =>
    cases hread
    exact ⟨0, Nat.le_refl 0, Nat.le_refl 0, (UInt64.add_zero _).symm⟩
  | succ more ih =>
    obtain ⟨found, before, after, rfl, hblock, hrest⟩ := Drives.bind hread
    obtain ⟨t₁, t₂, rfl, rfl, hafter⟩ := Pool.stepsOf_cut hreading
    have hfirst : tr = tr₁ ++ t₁ ++ (t₂ ++ tr₃) := by simp [htr]
    have hothers : tr = tr₁ ++ t₁ ++ t₂ ++ tr₃ := by simp [htr]
    obtain ⟨n, hle, hle', hfound⟩ := block_between h (by omega) hfirst hblock what
    obtain ⟨n', hle₁, hle₁', htotal⟩ := ih (by omega) hothers hafter hrest
    refine ⟨n + n', ?_, ?_, ?_⟩
    · apply Nat.add_le_add hle
      apply Nat.le_trans _ hle₁
      rw [made_append]
      exact among_le what _ _ _ _
    · rw [← List.append_assoc]
      apply Nat.add_le_add _ hle₁'
      apply Nat.le_trans hle'
      rw [made_append (tr₁ ++ t₁), tallied_append]
      exact Nat.le_add_right _ _
    · rw [htotal, read_add, hfound, UInt64.ofNat_add, UInt64.add_assoc]

/-- A thread served some duties, counted the `INFO` it had next, read all the counters, and printed
what it found. -/
structure Informed (threads thread : Nat) (front : List Duty) (task : Task) (rans : List Commands.Ran)
    (ran : Commands.Ran) (found : Counters) (before reading : List (Made Ask.Answer Sky)) : Prop where
  first : ∃ served counting, before = served ++ counting ∧ Drives (serve threads thread front) served (.ret rans) ∧
    Drives (bump thread .commands) counting (.ret ())
  reads : Drives (total threads) reading (.ret found)
  prints : ∃ calls : List (Made Map.Op.Answer Sky),
    Drives (Commands.run (task.seeing found) task.args task.dialect) calls (.ret ran)

theorem info_drives {thread : Nat} {calls : List (Made Ask.Answer Sky)} {front back : List Duty} {task : Task}
    {rans : List Commands.Ran} (hinfo : task.name = ascii "INFO")
    (h : Drives (serve threads thread (front ++ .command task :: back)) calls (.ret rans)) :
    ∃ rans₁ ran rans₂ found before reading after, rans = rans₁ ++ ran :: rans₂ ∧ calls = before ++ (reading ++ after) ∧
      Informed threads thread front task rans₁ ran found before reading := by
  induction front generalizing calls rans with
  | nil =>
    obtain ⟨ran, before, rest, rfl, hbefore, hrest⟩ := Drives.bind h
    obtain ⟨more, after, others, rfl, -, hret⟩ := Drives.bind hrest
    cases hret
    -- it counts itself, then reads the blocks, and then prints what it has read
    obtain ⟨n, counting, shown, rfl, hcounting, hshown⟩ := Drives.bind hbefore
    rw [if_pos hinfo] at hshown
    obtain ⟨found, reading, printed, rfl, hreading, hprinted⟩ := Drives.bind hshown
    have hprinting : Drives _ (mapped printed) _ ∧ Counted thread printed 0 0 0 0 := plain_drives hprinted
    refine ⟨[], ran, more, found, counting, reading, printed ++ (after ++ []), rfl, ?_, ?_⟩
    · simp only [List.append_assoc]
    · exact ⟨⟨[], counting, rfl, .nil, hcounting⟩, hreading, mapped printed, hprinting.1⟩
  | cons duty front ih =>
    cases duty with
    | accept =>
      obtain ⟨n, counting, rest, rfl, hcounting, hrest⟩ := Drives.bind h
      obtain ⟨rans₁, ran, rans₂, found, before, reading, after, rfl, rfl, hinformed⟩ := ih hrest
      refine ⟨rans₁, ran, rans₂, found, counting ++ before, reading, after, rfl, ?_, ?_⟩
      · rw [List.append_assoc]
      · obtain ⟨⟨served, own, rfl, hserved, hown⟩, hreading, hprinting⟩ := hinformed
        refine ⟨⟨counting ++ served, own, ?_, hcounting.andThen hserved, hown⟩, hreading, hprinting⟩
        rw [List.append_assoc]
    | command first =>
      obtain ⟨other, dispatched, rest, rfl, hfirst, hrest⟩ := Drives.bind h
      obtain ⟨more, others, nothing, rfl, hothers, hret⟩ := Drives.bind hrest
      cases hret
      obtain ⟨rans₁, ran, rans₂, found, before, reading, after, rfl, rfl, hinformed⟩ := ih hothers
      refine ⟨other :: rans₁, ran, rans₂, found, dispatched ++ before, reading, after, rfl, ?_, ?_⟩
      · simp only [List.append_assoc, List.append_nil]
      · obtain ⟨⟨served, own, rfl, hserved, hown⟩, hreading, hprinting⟩ := hinformed
        have hmore : Drives (serve threads thread front >>= fun more => pure (other :: more)) (served ++ [])
            (.ret (other :: rans₁)) := hserved.andThen .nil
        refine ⟨⟨dispatched ++ served, own, ?_, ?_, hown⟩, hreading, hprinting⟩
        · rw [List.append_assoc]
        · rw [List.append_nil] at hmore
          exact hfirst.andThen hmore

/-- Whatever the other threads count meanwhile, each number an `INFO` shows is no less than what all
of them together had counted when it began to read, and no more than what they had when it was done. -/
theorem info_between (h : Run (Pool.Step (Host.perform imp p)) (unbegun map threads duties) tr pool) {thread : Nat}
    {rans : List Commands.Ran} (hdone : pool.progs[thread]? = some (.ret rans)) {front back : List Duty} {task : Task}
    (hduties : duties thread = front ++ .command task :: back) (hinfo : task.name = ascii "INFO") :
    ∃ rans₁ ran rans₂ found before reading after, rans = rans₁ ++ ran :: rans₂ ∧
      made (Pool.stepsOf thread tr) = before ++ (reading ++ after) ∧
      Informed threads thread front task rans₁ ran found before reading ∧
      ∀ tr₁ tr₂ tr₃, tr = tr₁ ++ tr₂ ++ tr₃ → made (Pool.stepsOf thread tr₁) = before →
        made (Pool.stepsOf thread tr₂) = reading → ∀ what, ∃ n, among what (made tr₁) 0 threads ≤ n ∧
          n ≤ among what (made (tr₁ ++ tr₂)) 0 threads ∧ found.read what = UInt64.ofNat n := by
  have hlength : pool.progs.length = threads := by simp [Pool.run_length h, unbegun]
  have hthread : thread < threads := hlength ▸ (List.getElem?_eq_some_iff.mp hdone).1
  obtain ⟨y, hy, hdrives⟩ := Pool.run_drives h (unbegun_prog hthread)
  rw [hdone, Option.some.injEq] at hy
  rw [← hy, hduties] at hdrives
  obtain ⟨rans₁, ran, rans₂, found, before, reading, after, hrans, hcalls, hinformed⟩ := info_drives hinfo hdrives
  refine ⟨rans₁, ran, rans₂, found, before, reading, after, hrans, hcalls, hinformed, ?_⟩
  intro tr₁ tr₂ tr₃ htr hbefore hreading what
  obtain ⟨n, hle, hle', hfound⟩ :=
    totalFrom_between h (Nat.le_of_eq (Nat.zero_add threads)) htr hreading hinformed.reads what
  refine ⟨n, hle, hle', ?_⟩
  rw [hfound, Counters.read_zero, UInt64.zero_add]

theorem info_between_opens : ∃ tr pool rans₁ ran rans₂ others found before reading after,
    Run (Pool.Step (Host.perform .word .boxed)) (unbegun fresh 2 opens) tr pool ∧
    pool.progs[0]? = some (.ret (rans₁ ++ ran :: rans₂)) ∧ pool.progs[1]? = some (.ret others) ∧
    made (Pool.stepsOf 0 tr) = before ++ (reading ++ after) ∧
    Informed 2 0 ((opens 0).take 2) informs rans₁ ran found before reading ∧
    ∀ tr₁ tr₂ tr₃, tr = tr₁ ++ tr₂ ++ tr₃ → made (Pool.stepsOf 0 tr₁) = before →
      made (Pool.stepsOf 0 tr₂) = reading → ∀ what, ∃ n, among what (made tr₁) 0 2 ≤ n ∧
        n ≤ among what (made (tr₁ ++ tr₂)) 0 2 ∧ found.read what = UInt64.ofNat n := by
  obtain ⟨tr, pool, rans, others, hrun, hdone, hdone'⟩ := opens_runs
  have hduties : opens 0 = (opens 0).take 2 ++ .command informs :: [] := rfl
  obtain ⟨rans₁, ran, rans₂, found, before, reading, after, rfl, hcalls, hinformed, hbetween⟩ :=
    info_between hrun hdone hduties (by decide)
  exact ⟨tr, pool, rans₁, ran, rans₂, others, found, before, reading, after, hrun, hdone, hdone', hcalls, hinformed,
    hbetween⟩

end served
end Rugo
