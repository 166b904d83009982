import Rugo.CommandSections

/- The commands that ask for a section of every shard, while other threads are at work.
   Neither is done at one moment: `DBSIZE` looks at one shard after another, and `FLUSHALL`
   clears one after another.

     1. `dbsize_counts`: what `DBSIZE` answers is a number of keys each of which was stored
        at one of its looks, and every key that was stored at all of them is counted.
     2. `flushall_empties`: a key that is stored after a `FLUSHALL` was stored anew after
        the `FLUSHALL` had cleared its shard. -/
namespace Rugo
open Exec Progs Runs Resp

namespace Commands
variable {n : Nat} {ι : Type}

/-! ## One shard after another -/

theorem run_dbsize (env : Env) {name : List UInt8} (rest : List (List UInt8)) (dialect : Dialect)
    (hname : name.map upper = ascii "DBSIZE") :
    sects n (run env (name :: rest) dialect) = (do
      let len ← Map.lens (List.finRange n)
      pure ⟨Encoder.integer (Signed.clamp len), dialect, false⟩) := by
  rw [run_keyspace hname (by decide) rfl rfl]
  rfl

theorem run_flushall (env : Env) {name : List UInt8} (rest : List (List UInt8)) (dialect : Dialect)
    (hname : name.map upper = ascii "FLUSHALL" ∨ name.map upper = ascii "FLUSHDB") :
    sects n (run env (name :: rest) dialect) = (do
      let _ ← Map.clears (List.finRange n)
      pure ⟨okay, dialect, false⟩) := by
  obtain hname | hname := hname
  · rw [run_keyspace hname (by decide) rfl rfl]
    rfl
  · rw [run_keyspace hname (by decide) rfl rfl]
    rfl

theorem lens_drives {l : List (Fin n)} {calls : List (Made (@Sect.Answer n) ι)} {total : Nat}
    (h : Drives (Map.lens l) calls (.ret total)) :
    ∃ counts : List Nat, counts.length = l.length ∧ total = counts.sum ∧
      ∀ pair ∈ l.zip counts, ∃ who sky, (⟨who, sky, .len pair.1, pair.2⟩ : Made (@Sect.Answer n) ι) ∈ calls := by
  induction l generalizing calls total with
  | nil =>
    cases h
    exact ⟨[], rfl, rfl, List.forall_mem_nil _⟩
  | cons at_ l ih =>
    have hload : Map.lens (at_ :: l) =
        .call (Sect.len at_) fun len => Map.lens l >>= fun more => pure (len + more) := rfl
    rw [hload] at h
    cases h with
    | @cons who sky _ _ count calls _ hrest =>
      obtain ⟨more, before, after, rfl, hlens, hret⟩ := hrest.bind
      obtain ⟨counts, hlength, rfl, hcalls⟩ := ih hlens
      cases hret
      refine ⟨count :: counts, by simp [hlength], by simp, ?_⟩
      intro pair hpair
      rw [List.zip_cons_cons, List.mem_cons] at hpair
      obtain rfl | hpair := hpair
      · exact ⟨who, sky, List.mem_cons_self⟩
      · obtain ⟨who', sky', hmem⟩ := hcalls pair hpair
        exact ⟨who', sky', List.mem_cons_of_mem _ (List.mem_append_left _ hmem)⟩

theorem clears_drives {l : List (Fin n)} {calls : List (Made (@Sect.Answer n) ι)} {done : Unit}
    (h : Drives (Map.clears l) calls (.ret done)) :
    ∀ at_ ∈ l, ∃ who sky, (⟨who, sky, .clear at_, ()⟩ : Made (@Sect.Answer n) ι) ∈ calls := by
  induction l generalizing calls with
  | nil => exact List.forall_mem_nil _
  | cons first l ih =>
    have hclear : Map.clears (first :: l) = .call (Sect.clear first) fun _ => Map.clears l := rfl
    rw [hclear] at h
    cases h with
    | @cons who sky _ _ _ calls _ hrest =>
      intro at_ hat
      obtain rfl | hat := List.mem_cons.mp hat
      · exact ⟨who, sky, List.mem_cons_self⟩
      · obtain ⟨who', sky', hmem⟩ := ih hrest at_ hat
        exact ⟨who', sky', List.mem_cons_of_mem _ hmem⟩

end Commands

/-! ## What is counted -/

/-- What is counted shard after shard, each at its own moment: keys that were stored at one of the
moments, and all that were stored at every one. -/
theorem Cache.counted {n : Nat} (home : List UInt8 → Nat) (Moment : Cache → Prop) {l : List (Fin n)} (hnodup : l.Nodup)
    {counts : List Nat} (hlength : counts.length = l.length)
    (h : ∀ pair ∈ l.zip counts, ∃ c, Moment c ∧ (Cache.part c home pair.1).Counts pair.2) :
    ∃ keys : List (List UInt8), keys.Nodup ∧ keys.length = counts.sum ∧
      (∀ key ∈ keys, (∃ at_ ∈ l, home key = at_.val) ∧ ∃ c, Moment c ∧ (c key).isSome) ∧
      ∀ key, (∃ at_ ∈ l, home key = at_.val) → (∀ c, Moment c → (c key).isSome) → key ∈ keys := by
  induction l generalizing counts with
  | nil =>
    obtain rfl := List.length_eq_zero_iff.mp hlength
    refine ⟨[], List.nodup_nil, rfl, List.forall_mem_nil _, ?_⟩
    intro key hhome
    obtain ⟨at_, hat, -⟩ := hhome
    cases hat
  | cons first l ih =>
    obtain ⟨hfirst, hnodup⟩ := List.nodup_cons.mp hnodup
    match counts, hlength with
    | count :: counts, hlength =>
      obtain ⟨c, hc, own, hown, hmem, hcount⟩ := h (first, count) List.mem_cons_self
      obtain ⟨keys, hkeys, hsum, hseen, hall⟩ := ih hnodup (Nat.succ.inj hlength)
        fun pair hpair => h pair (List.mem_cons_of_mem _ hpair)
      -- the keys of the first shard, as they were when it was looked at
      have hhome : ∀ key ∈ own, home key = first.val ∧ (c key).isSome := by
        intro key hkey
        have hpart := (hmem key).mp hkey
        rw [Cache.part] at hpart
        split at hpart
        · next heq => exact ⟨heq, hpart⟩
        · cases hpart
      refine ⟨own ++ keys, ?_, ?_, ?_, ?_⟩
      · rw [List.nodup_append]
        refine ⟨hown, hkeys, ?_⟩
        intro key hkey key' hkey' heq
        -- no other shard has one of them
        obtain ⟨⟨at_, hat, hat'⟩, -⟩ := hseen key' hkey'
        rw [← heq, (hhome key hkey).1] at hat'
        rw [Fin.ext hat'] at hfirst
        exact hfirst hat
      · rw [List.length_append, hcount, hsum, List.sum_cons]
      · intro key hkey
        obtain hkey | hkey := List.mem_append.mp hkey
        · exact ⟨⟨first, List.mem_cons_self, (hhome key hkey).1⟩, c, hc, (hhome key hkey).2⟩
        · obtain ⟨⟨at_, hat, hat'⟩, hmoment⟩ := hseen key hkey
          exact ⟨⟨at_, List.mem_cons_of_mem _ hat, hat'⟩, hmoment⟩
      · intro key hat hmoments
        obtain ⟨at_, hat, hat'⟩ := hat
        rw [List.mem_append]
        obtain rfl | hat := List.mem_cons.mp hat
        · left
          rw [hmem, Cache.part, if_pos hat']
          exact hmoments c hc
        · exact .inr (hall key ⟨at_, hat, hat'⟩ hmoments)

theorem Cache.Answers.counts {n : Nat} {home : List UInt8 → Nat} {ceiling count : Nat} {m m' : Cache} {now : UInt32}
    {at_ : Fin n} (h : m.Answers home ceiling now (.len at_) count m') : (m.part home at_).Counts count := by
  cases h with
  | len hcounts => exact hcounts

theorem Cache.Answers.cleared {n : Nat} {home : List UInt8 → Nat} {ceiling : Nat} {m m' : Cache} {now : UInt32}
    {at_ : Fin n} {key : List UInt8} (h : m.Answers home ceiling now (.clear at_) () m') (hhome : home key = at_) :
    m' key = none := by
  cases h with
  | clear => exact if_pos hhome

/-- Only an operation on a key has it stored. -/
theorem Cache.Answers.stored {n : Nat} {home : List UInt8 → Nat} {ceiling : Nat} {m m' : Cache} {now : UInt32}
    {op : Sect n} {a : op.Answer} {key : List UInt8} (h : m.Answers home ceiling now op a m') (hnone : m key = none)
    (hsome : (m' key).isSome) : ∃ op', op = .key key op' := by
  cases h with
  | @key key' op _ kept _ _ hbelow _ =>
    by_cases heq : key = key'
    · exact ⟨op, by rw [heq]⟩
    · exfalso
      obtain hlost | hsame := hbelow key
      · rw [hlost] at hsome
        cases hsome
      · rw [hsame, Function.update_of_ne heq, hnone] at hsome
        cases hsome
  | clear =>
    simp only [hnone, ite_self] at hsome
    cases hsome
  | sweep hlapsed =>
    simp only [Cache.less, hnone, ite_self] at hsome
    cases hsome
  | len _ =>
    rw [hnone] at hsome
    cases hsome
  | now =>
    rw [hnone] at hsome
    cases hsome

/-! ## The commands -/

section crowd
variable {imp : Imp} {p : Platform} {shards maxmemory : Nat} {seed : UInt64} {map : Map}
  {tr₀ : List (Map × Map.Act × Map)} {c : Cache} {env : Commands.Env} {name : List UInt8}
  {rest : List (List UInt8)} {dialect : Dialect} {progs : List (Sects map.shards.length Commands.Ran)}
  {m : map.Crowd Commands.Ran} {who : Nat} {ran : Commands.Ran}
  {tr : List (map.Crowd Commands.Ran × Move (@Sect.Answer map.shards.length) Sky × map.Crowd Commands.Ran)}

theorem step_of_call {x : Pool (@Sect.Answer map.shards.length) Cache Commands.Ran}
    {ctr : List (Pool (@Sect.Answer map.shards.length) Cache Commands.Ran × Made (@Sect.Answer map.shards.length) Sky ×
      Pool (@Sect.Answer map.shards.length) Cache Commands.Ran)}
    (hrun : Run (Cache.Goes map) ⟨c, progs⟩ ctr x) {made : Made (@Sect.Answer map.shards.length) Sky}
    (hmade : made ∈ (Pool.stepsOf who ctr).map fun x => x.2.1) :
    ∃ y ∈ Pool.stepsOf who ctr, y ∈ ctr ∧ y.2.1 = made ∧
      Cache.Answers map.home map.shardBudget y.1.state made.sky.now made.op made.answer y.2.2.state := by
  obtain ⟨y, hy, rfl⟩ := List.mem_map.mp hmade
  have hmem := (List.mem_filter.mp hy).1
  obtain ⟨front, back, rfl⟩ := List.append_of_mem hmem
  obtain ⟨-, hstep, -⟩ := hrun.split
  exact ⟨y, hy, hmem, rfl, hstep.served⟩

/-- While any number of threads are at work, a `DBSIZE` answers a number of keys of which each was
stored at one of its looks, and among which is every key that was stored at all of them. -/
theorem dbsize_counts (hreached : Run (Map.Returns imp p) (Map.withSeed shards maxmemory seed) tr₀ map)
    (hkeeps : ∀ x ∈ tr₀, Map.Unstranded p x.1 x.2.1) (hc : map.Stores imp c)
    (h : Run (Machine.Step (map.sections imp p)) (.start (map.sections imp p) map.tables progs) tr m)
    (hgranted : ∀ x ∈ tr, ∀ made, x.2.1.made = some made → ¬ made.op.Refused made.answer)
    (hname : name.map Commands.upper = ascii "DBSIZE")
    (hwho : progs[who]? = some (Commands.sects map.shards.length (Commands.run env (name :: rest) dialect)))
    (hdone : m.threads[who]? = some (.running (.ret ran))) :
    ∃ ctr pool, Run (Cache.Goes map) ⟨c, progs⟩ ctr pool ∧
      ctr.map (fun x => x.2.1) = tr.filterMap (fun x => x.2.1.made) ∧
      ∃ keys : List (List UInt8), keys.Nodup ∧ ran.reply = Encoder.integer (Signed.clamp keys.length) ∧
        (∀ key ∈ keys, ∃ x ∈ Pool.stepsOf who ctr, (x.1.state key).isSome) ∧
        ∀ key, (∀ x ∈ Pool.stepsOf who ctr, (x.1.state key).isSome) → key ∈ keys := by
  obtain ⟨-, c', his⟩ := Map.reached_is hreached hkeeps
  obtain ⟨ctr, pool, hrun, hlabels, hprogs, -⟩ := sections_serve hreached hkeeps hc h hgranted
  have hdrives := crowd_drives hrun hprogs hwho hdone
  rw [Commands.run_dbsize env rest dialect hname] at hdrives
  obtain ⟨total, before, after, hcalls, hlens, hret⟩ := hdrives.bind
  cases hret
  rw [List.append_nil] at hcalls
  obtain ⟨counts, hlength, rfl, hcounts⟩ := Commands.lens_drives hlens
  -- the counts of the shards, each at the moment of its own look
  obtain ⟨keys, hnodup, hsum, hseen, hall⟩ := Cache.counted map.home
    (fun c => ∃ x ∈ Pool.stepsOf who ctr, x.1.state = c) (List.nodup_finRange map.shards.length) hlength (by
      intro pair hpair
      obtain ⟨who', sky, hmem⟩ := hcounts pair hpair
      rw [← hcalls] at hmem
      obtain ⟨y, hy, -, -, hserved⟩ := step_of_call hrun hmem
      exact ⟨y.1.state, ⟨y, hy, rfl⟩, hserved.counts⟩)
  refine ⟨ctr, pool, hrun, hlabels, keys, hnodup, by rw [hsum], ?_, ?_⟩
  · intro key hkey
    obtain ⟨-, c, ⟨x, hx, rfl⟩, hsome⟩ := hseen key hkey
    exact ⟨x, hx, hsome⟩
  · intro key hsteps
    apply hall key ⟨⟨map.home key, his.shaped.home_lt key⟩, List.mem_finRange _, rfl⟩
    intro c hc
    obtain ⟨x, hx, rfl⟩ := hc
    exact hsteps x hx

def sizing : List (Sects fresh.shards.length Commands.Ran) :=
  [working [ascii "SET", ascii "a", ascii "1"], working [ascii "DBSIZE"]]

def oneStored : List Table := remains fresh fresh.tables (.key (ascii "a") (.set (ascii "1") none none))

theorem sizing_answered :
    ((fresh.sections .word .boxed).perform ⟨9, true⟩ fresh.tables (.key (ascii "a") (.set (ascii "1") none none))).map
      Prod.fst = .ok (.ok .inserted) ∧
    ((fresh.sections .word .boxed).perform ⟨9, true⟩
      oneStored (.len ⟨0, by decide⟩)).map
      Prod.fst = .ok (1 : Nat) := by
  decide +kernel

theorem dbsize_counts_one : ∃ tr m ctr pool keys, Run (Machine.Step (fresh.sections .word .boxed))
      (.start (fresh.sections .word .boxed) fresh.tables sizing) tr m ∧
    Run (Cache.Goes fresh) ⟨fun _ => none, sizing⟩ ctr pool ∧
    ctr.map (fun x => x.2.1) = tr.filterMap (fun x => x.2.1.made) ∧ (keys : List (List UInt8)).Nodup ∧
    Encoder.integer 1 = Encoder.integer (Signed.clamp keys.length) ∧
    (∀ key ∈ keys, ∃ x ∈ Pool.stepsOf 1 ctr, (x.1.state key).isSome) ∧
    ∀ key, (∀ x ∈ Pool.stepsOf 1 ctr, (x.1.state key).isSome) → key ∈ keys := by
  obtain ⟨hset, hlen⟩ := sizing_answered
  have hstored : Pool.Step (fresh.sections .word .boxed).perform ⟨fresh.tables, sizing⟩
      ⟨0, ⟨9, true⟩, .key (ascii "a") (.set (ascii "1") none none), .ok .inserted⟩
      ⟨oneStored,
        [.ret ⟨Commands.okay, .resp2, false⟩, working [ascii "DBSIZE"]]⟩ := made_by rfl (remains_of hset) rfl
  have hcounted : Pool.Step (fresh.sections .word .boxed).perform
      ⟨oneStored,
        [.ret ⟨Commands.okay, .resp2, false⟩, working [ascii "DBSIZE"]]⟩
      ⟨1, ⟨9, true⟩, .len ⟨0, by decide⟩, (1 : Nat)⟩
      ⟨remains fresh oneStored (.len ⟨0, by decide⟩),
        [.ret ⟨Commands.okay, .resp2, false⟩, .ret ⟨Encoder.integer 1, .resp2, false⟩]⟩ :=
    made_by rfl (remains_of hlen) rfl
  obtain ⟨tr, hrun, hmade⟩ := Machine.covers ((Run.single hstored).snoc hcounted)
  have hgranted := granted_of hmade (by simp [Sect.Refused, KeyOp.Refused])
  have hname : (ascii "DBSIZE").map Commands.upper = ascii "DBSIZE" := by decide
  have hreached : Run (Map.Returns .word .boxed) (Map.withSeed 1 0 0) [] fresh := .nil
  have hwho : sizing[1]? = some (Commands.sects fresh.shards.length
    (Commands.run Commands.started [ascii "DBSIZE"] .resp2)) := rfl
  obtain ⟨ctr, pool, hserve, hlabels, keys, hnodup, hreply, hseen, hall⟩ := dbsize_counts hreached
    (List.forall_mem_nil _) (Map.is_withSeed .word 1 0 0).stores hrun hgranted hname hwho rfl
  exact ⟨tr, _, ctr, pool, keys, hrun, hserve, hlabels, hnodup, hreply, hseen, hall⟩

/-- While any number of threads are at work, a key that is stored after a `FLUSHALL` has ended was
stored anew after that `FLUSHALL` cleared its shard. -/
theorem flushall_empties (hreached : Run (Map.Returns imp p) (Map.withSeed shards maxmemory seed) tr₀ map)
    (hkeeps : ∀ x ∈ tr₀, Map.Unstranded p x.1 x.2.1) (hc : map.Stores imp c)
    (h : Run (Machine.Step (map.sections imp p)) (.start (map.sections imp p) map.tables progs) tr m)
    (hgranted : ∀ x ∈ tr, ∀ made, x.2.1.made = some made → ¬ made.op.Refused made.answer)
    (hname : name.map Commands.upper = ascii "FLUSHALL" ∨ name.map Commands.upper = ascii "FLUSHDB")
    (hwho : progs[who]? = some (Commands.sects map.shards.length (Commands.run env (name :: rest) dialect)))
    (hdone : m.threads[who]? = some (.running (.ret ran))) :
    ran.reply = Commands.okay ∧ ∃ ctr pool, Run (Cache.Goes map) ⟨c, progs⟩ ctr pool ∧
      ctr.map (fun x => x.2.1) = tr.filterMap (fun x => x.2.1.made) ∧
      ((∀ who at_, ¬ m.Holds (map.sections imp p) who at_) →
        (map.holding (m.cells.map fun cell => cell.lock.value)).Stores imp pool.state) ∧
      ∀ key, (pool.state key).isSome → ∃ front cleared back, ctr = front ++ cleared :: back ∧
        cleared.2.1.who = who ∧ (∃ at_ : Fin map.shards.length, cleared.2.1.op = .clear at_ ∧ map.home key = at_) ∧
        ∃ x ∈ back, x.1.state key = none ∧ ∃ op, x.2.1.op = .key key op := by
  obtain ⟨-, c', his⟩ := Map.reached_is hreached hkeeps
  obtain ⟨ctr, pool, hrun, hlabels, hprogs, hidle⟩ := sections_serve hreached hkeeps hc h hgranted
  have hdrives := crowd_drives hrun hprogs hwho hdone
  rw [Commands.run_flushall env rest dialect hname] at hdrives
  obtain ⟨done, before, after, hcalls, hclears, hret⟩ := hdrives.bind
  cases hret
  rw [List.append_nil] at hcalls
  refine ⟨rfl, ctr, pool, hrun, hlabels, hidle, ?_⟩
  intro key hsome
  obtain ⟨who', sky, hmem⟩ :=
    Commands.clears_drives hclears ⟨map.home key, his.shaped.home_lt key⟩ (List.mem_finRange _)
  rw [← hcalls] at hmem
  obtain ⟨cleared, hown, hcleared, hmade, hserved⟩ := step_of_call hrun hmem
  have hwho' := of_decide_eq_true (List.mem_filter.mp hown).2
  obtain ⟨front, back, rfl⟩ := List.append_of_mem hcleared
  obtain ⟨-, -, hback⟩ := hrun.split
  -- it is not there when its shard is cleared, and so it has been stored since
  have hgone : cleared.2.2.state key = none := hserved.cleared rfl
  obtain ⟨x, hx, hnone, hstep, hstored⟩ := hback.became (P := fun pool => (pool.state key).isSome)
    (by simp [hgone]) hsome
  rw [Option.not_isSome_iff_eq_none] at hnone
  refine ⟨front, cleared, back, rfl, hwho', ⟨⟨map.home key, his.shaped.home_lt key⟩, by rw [hmade], rfl⟩, x, hx,
    hnone, ?_⟩
  exact hstep.served.stored hnone hstored

/-- `FLUSHALL` between two commands that write. -/
def flushing : List (Sects fresh.shards.length Commands.Ran) :=
  [working [ascii "SET", ascii "a", ascii "1"], working [ascii "FLUSHALL"], working [ascii "SET", ascii "b", ascii "2"]]

theorem fresh_shards : 0 < fresh.shards.length := Nat.zero_lt_succ 0

/-- The shard once it is cleared, and once the third has written to it. -/
def oneCleared : List Table := remains fresh oneStored (.clear ⟨0, fresh_shards⟩)

def otherStored : List Table := remains fresh oneCleared (.key (ascii "b") (.set (ascii "2") none none))

theorem flushing_answered :
    ((fresh.sections .word .boxed).perform ⟨9, true⟩ fresh.tables (.key (ascii "a") (.set (ascii "1") none none))).map
      Prod.fst = .ok (.ok .inserted) ∧
    ((fresh.sections .word .boxed).perform ⟨9, true⟩ (oneStored) (.clear ⟨0, by decide⟩)).map Prod.fst = .ok () ∧
    ((fresh.sections .word .boxed).perform ⟨9, true⟩ (oneCleared) (.key (ascii "b") (.set (ascii "2") none none))).map
      Prod.fst = .ok (.ok .inserted) ∧
    (fresh.holding (otherStored)).stored .word (ascii "b") = .ok (some ⟨ascii "2", none, none⟩) ∧
    (fresh.holding (otherStored)).stored .word (ascii "a") = .ok none := by
  decide +kernel

theorem flushall_empties_between : ∃ tr m ctr pool, Run (Machine.Step (fresh.sections .word .boxed))
      (.start (fresh.sections .word .boxed) fresh.tables flushing) tr m ∧
    Run (Cache.Goes fresh) ⟨fun _ => none, flushing⟩ ctr pool ∧
    (pool.state (ascii "b")).isSome ∧ pool.state (ascii "a") = none ∧
    ∀ key, (pool.state key).isSome → ∃ front cleared back, ctr = front ++ cleared :: back ∧
      cleared.2.1.who = 1 ∧
      (∃ at_ : Fin fresh.shards.length, cleared.2.1.op = .clear at_ ∧ fresh.home key = at_) ∧
      ∃ x ∈ back, x.1.state key = none ∧ ∃ op, x.2.1.op = .key key op := by
  obtain ⟨hset, hclear, hset', hb, ha⟩ := flushing_answered
  -- a key is stored, then the shard is cleared, and then another key is stored
  have hfirst : Pool.Step (fresh.sections .word .boxed).perform ⟨fresh.tables, flushing⟩
      ⟨0, ⟨9, true⟩, .key (ascii "a") (.set (ascii "1") none none), .ok .inserted⟩
      ⟨oneStored, [.ret ⟨Commands.okay, .resp2, false⟩, working [ascii "FLUSHALL"],
        working [ascii "SET", ascii "b", ascii "2"]]⟩ := made_by rfl (remains_of hset) rfl
  have hsecond : Pool.Step (fresh.sections .word .boxed).perform
      ⟨oneStored, [.ret ⟨Commands.okay, .resp2, false⟩, working [ascii "FLUSHALL"],
        working [ascii "SET", ascii "b", ascii "2"]]⟩
      ⟨1, ⟨9, true⟩, .clear ⟨0, by decide⟩, ()⟩
      ⟨oneCleared, [.ret ⟨Commands.okay, .resp2, false⟩, .ret ⟨Commands.okay, .resp2, false⟩,
        working [ascii "SET", ascii "b", ascii "2"]]⟩ := made_by rfl (remains_of hclear) rfl
  have hthird : Pool.Step (fresh.sections .word .boxed).perform
      ⟨oneCleared, [.ret ⟨Commands.okay, .resp2, false⟩, .ret ⟨Commands.okay, .resp2, false⟩,
        working [ascii "SET", ascii "b", ascii "2"]]⟩
      ⟨2, ⟨9, true⟩, .key (ascii "b") (.set (ascii "2") none none), .ok .inserted⟩
      ⟨otherStored, [.ret ⟨Commands.okay, .resp2, false⟩, .ret ⟨Commands.okay, .resp2, false⟩,
        .ret ⟨Commands.okay, .resp2, false⟩]⟩ := made_by rfl (remains_of hset') rfl
  obtain ⟨tr, hrun, hmade⟩ := Machine.covers (((Run.single hfirst).snoc hsecond).snoc hthird)
  have hgranted := granted_of hmade (by simp [Sect.Refused, KeyOp.Refused])
  have hname : (ascii "FLUSHALL").map Commands.upper = ascii "FLUSHALL" := by decide
  have hreached : Run (Map.Returns .word .boxed) (Map.withSeed 1 0 0) [] fresh := .nil
  have hwho : flushing[1]? = some (Commands.sects fresh.shards.length
    (Commands.run Commands.started [ascii "FLUSHALL"] .resp2)) := rfl
  obtain ⟨-, ctr, pool, hserve, -, hidle, hstored⟩ := flushall_empties hreached (List.forall_mem_nil _)
    (Map.is_withSeed .word 1 0 0).stores hrun hgranted (.inl hname) hwho rfl
  dsimp only at hidle
  generalize otherStored = tables at hidle hb ha
  have hends : (fresh.holding tables).Stores .word pool.state := start_stores hidle
  refine ⟨tr, _, ctr, pool, hrun, hserve, ?_, hends.read ha, hstored⟩
  rw [hends.read hb]
  rfl

end crowd
end Rugo
