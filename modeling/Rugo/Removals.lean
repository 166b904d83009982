import Mathlib.Data.List.Dedup
import Rugo.Contention

/- Threads that remove keys, any of which more than one of them may name, and one of them
   more than once. A key that was there is found by the first that asks to be rid of it.

     1. `removes_once`: what the threads are told they have removed comes to the keys that
        were there. -/
namespace Rugo
open Exec Progs Runs Resp

/-! ## One key -/

/-- A removal that found the key there. -/
def Visit.took : Visit → Bool
  | ⟨_, _, .remove, found⟩ => found
  | _ => false

theorem Visit.took_reads {t : Visit} (hreads : t.op.reads = true) : t.took = false := by
  obtain ⟨who, now, op, answer⟩ := t
  cases op with
  | remove => cases hreads
  | _ => rfl

section visits
variable {key : List UInt8} {Read : UInt32 → Prop} {kept : Kept} {last : Option Kept} {ts : List Visit}

theorem Takes.gone (h : Takes key Read none ts last) (hops : ∀ t ∈ ts, t.op.reads = true ∨ t.op = .remove) :
    last = none ∧ ts.countP Visit.took = 0 := by
  generalize hheld : none = held at h
  induction h with
  | nil => exact ⟨rfl, rfl⟩
  | @visit held next last t ts _ hkept _ ih =>
    subst hheld
    obtain ⟨hfirst, hothers⟩ := List.forall_mem_cons.mp hops
    have hstays : none = next ∧ t.took = false := by
      obtain hreads | hremove := hfirst
      · exact ⟨(KeyOp.onKept_reads hreads hkept).symm, Visit.took_reads hreads⟩
      · obtain ⟨who, now, op, answer⟩ := t
        subst hremove
        rw [KeyOp.onKept, Option.some.injEq, Prod.mk.injEq] at hkept
        exact ⟨hkept.2, hkept.1.symm⟩
    obtain ⟨hlast, hnone⟩ := ih hothers hstays.1
    exact ⟨hlast.trans hstays.1.symm, by simp [hstays.2, hnone]⟩
  | lapse _ _ _ _ => cases hheld

/-- Of those that remove a key that is there, and does not expire, one finds it. -/
theorem Takes.removed (h : Takes key Read (some kept) ts last)
    (hlasts : ∀ now, Read now → Table.passed kept.expiry now = false)
    (hops : ∀ t ∈ ts, t.op.reads = true ∨ t.op = .remove) (hsome : ∃ t ∈ ts, t.op = .remove) :
    last = none ∧ ts.countP Visit.took = 1 := by
  generalize hheld : some kept = held at h
  induction h with
  | nil =>
    obtain ⟨t, ht, -⟩ := hsome
    cases ht
  | @visit held next last t ts hnow hkept htakes ih =>
    subst hheld
    obtain ⟨hfirst, hothers⟩ := List.forall_mem_cons.mp hops
    obtain hreads | hremove := hfirst
    · have hlive : Kept.live t.now (some kept) = some kept := Map.live_of_not_passed (hlasts _ hnow)
      have hnext : some kept = next := by rw [KeyOp.onKept_reads hreads hkept, hlive]
      have hrest : ∃ t ∈ ts, t.op = .remove := by
        obtain ⟨t', ht', hremove⟩ := hsome
        obtain rfl | ht' := List.mem_cons.mp ht'
        · rw [hremove] at hreads
          cases hreads
        · exact ⟨t', ht', hremove⟩
      obtain ⟨hlast, hone⟩ := ih hothers hrest hnext
      exact ⟨hlast, by simp [Visit.took_reads hreads, hone]⟩
    · obtain ⟨who, now, op, answer⟩ := t
      subst hremove
      rw [KeyOp.onKept, Option.some.injEq, Prod.mk.injEq] at hkept
      obtain ⟨rfl, rfl⟩ := hkept
      obtain ⟨hlast, hnone⟩ := htakes.gone hothers
      have htook : Visit.took ⟨who, now, .remove, (some kept).isSome⟩ = true := rfl
      exact ⟨hlast, by rw [List.countP_cons_of_pos htook, hnone]⟩
  | lapse hnow hpassed _ _ =>
    cases hheld
    rw [hlasts _ hnow] at hpassed
    cases hpassed

end visits

/-! ## One thread -/

/-- A `DEL`, or an `UNLINK`. -/
structure Remover where
  env : Commands.Env
  dialect : Dialect
  name : List UInt8
  keys : List (List UInt8)
  named : name.map Commands.upper = ascii "DEL" ∨ name.map Commands.upper = ascii "UNLINK"
  some_ : keys ≠ []

def Remover.prog (n : Nat) (remover : Remover) : Sects n Commands.Ran :=
  Commands.sects n (Commands.run remover.env (remover.name :: remover.keys) remover.dialect)

theorem Remover.prog_eq (n : Nat) (remover : Remover) : remover.prog n =
    Commands.sects n (Commands.tally Commands.Call.remove remover.keys >>= fun went =>
      pure ⟨Encoder.integer (Signed.clamp went), remover.dialect, false⟩) := by
  obtain ⟨env, dialect, name, keys, hnamed, hsome⟩ := remover
  have hlength : ¬ (name :: keys).length < 2 := by
    have hpos := List.length_pos_of_ne_nil hsome
    rw [List.length_cons]
    omega
  have hdel : Commands.del (name :: keys) = (do
      let went ← Commands.tally Commands.Call.remove keys
      pure (Encoder.integer (Signed.clamp went))) := by
    rw [Commands.del, if_neg hlength]
    rfl
  have hwork : Commands.run env (name :: keys) dialect = (do
      let reply ← Commands.del (name :: keys)
      pure ⟨reply, dialect, false⟩) := by
    obtain hname | hname := hnamed
    · exact run_keyspace hname (by decide) rfl rfl
    · exact run_keyspace hname (by decide) rfl rfl
  rw [prog, hwork, hdel, Prog.bind_bind]
  rfl

def taken {n : Nat} : Made (@Sect.Answer n) Sky → Option (List UInt8)
  | ⟨_, _, .key key .remove, found⟩ => if (found : Bool) then some key else none
  | _ => none

theorem taken_iff {n : Nat} {key : List UInt8} {made : Made (@Sect.Answer n) Sky} :
    taken made = some key ↔ ∃ t, Visit.of key made = some t ∧ t.took = true := by
  obtain ⟨who, sky, op, answer⟩ := made
  cases op with
  | key key' op =>
    by_cases heq : key' = key
    · subst heq
      cases op <;> simp [taken, Visit.of, Visit.took]
    · cases op <;> simp [taken, Visit.of, heq]
  | clear | sweep | len | now => simp [taken, Visit.of]

theorem tally_drives {n : Nat} {keys : List (List UInt8)} {reply : Nat → Commands.Ran}
    {calls : List (Made (@Sect.Answer n) Sky)} {ran : Commands.Ran}
    (h : Drives (Commands.sects n (Commands.tally Commands.Call.remove keys >>= fun went => pure (reply went))) calls
      (.ret ran)) :
    ran = reply (calls.filterMap taken).length ∧
      calls.map (fun made => made.op) = keys.map fun key => Sect.key key .remove := by
  induction keys generalizing reply calls with
  | nil =>
    cases h
    exact ⟨rfl, rfl⟩
  | cons key keys ih =>
    have hstep :
        Commands.sects n (Commands.tally Commands.Call.remove (key :: keys) >>= fun went => pure (reply went)) =
        .call (Sect.key key .remove) fun found => Commands.sects n
          (Commands.tally Commands.Call.remove keys >>= fun went =>
            pure (reply ((if (found : Bool) then 1 else 0) + went))) := by
      rw [Commands.tally, Prog.bind_bind]
      simp only [Prog.bind_bind]
      rfl
    rw [hstep] at h
    cases h with
    | @cons who sky op next found calls _ h =>
      obtain ⟨hran, hops⟩ := ih h
      refine ⟨?_, congrArg _ hops⟩
      rw [hran]
      cases (found : Bool) <;> simp [taken, Nat.add_comm]

/-! ## Any number of threads -/

theorem countP_places {α : Type} (who : α → Nat) (p : α → Bool) (l : List α) (n : Nat) :
    ((List.range n).map fun i => (l.filter fun x => who x = i).countP p).sum =
      (l.filter fun x => who x < n).countP p := by
  induction n with
  | zero => simp
  | succ n ih =>
    rw [List.range_succ, List.map_append, List.sum_append, ih, List.map_singleton, List.sum_singleton]
    simp only [List.countP_filter]
    clear ih
    induction l with
    | nil => rfl
    | cons x l ih =>
      rw [List.countP_cons, List.countP_cons, List.countP_cons, ← ih]
      by_cases hp : p x = true
      · simp [hp]
        grind
      · simp [hp]

section threads
variable {imp : Imp} {p : Platform} {shards maxmemory : Nat} {seed : UInt64} {map : Map}
  {tr₀ : List (Map × Map.Act × Map)} {c : Cache} {others : List (Sects map.shards.length Commands.Ran)}
  {m : map.Crowd Commands.Ran}
  {tr : List (map.Crowd Commands.Ran × Move (@Sect.Answer map.shards.length) Sky × map.Crowd Commands.Ran)}

/-- What is named by one of them. -/
def doomed (removers : List Remover) : List (List UInt8) := removers.flatMap Remover.keys

section run
variable {pool : Pool (@Sect.Answer map.shards.length) Cache Commands.Ran}
  {ctr : List (Pool (@Sect.Answer map.shards.length) Cache Commands.Ran × Made (@Sect.Answer map.shards.length) Sky ×
    Pool (@Sect.Answer map.shards.length) Cache Commands.Ran)} {removers : List Remover}

/-- What becomes of a key that they name. -/
theorem doomed_gone {key : List UInt8} (hroom : map.shardBudget = 0)
    (hrun : Run (Cache.Goes map) ⟨c, removers.map (Remover.prog map.shards.length) ++ others⟩ ctr pool)
    (hothers : ∀ x ∈ others, x.Only (Sect.Spares map.home key))
    (hremoves : ∀ x ∈ ctr, x.2.1.who < removers.length → ∃ key, x.2.1.op = .key key .remove)
    (hvisited : ∃ t ∈ visits key ctr, t.op = .remove)
    (hlasts : ∀ kept, c key = some kept → ∀ now, Clocked ctr now → Table.passed kept.expiry now = false) :
    pool.state key = none ∧ (visits key ctr).countP Visit.took = if (c key).isSome then 1 else 0 := by
  have hspare := others_only hrun hothers
  rw [List.length_map] at hspare
  have hclears : ∀ x ∈ ctr, ¬ x.2.1.op.Clears map.home key := by
    intro x hx
    by_cases hlt : x.2.1.who < removers.length
    · obtain ⟨key', hop⟩ := hremoves x hx hlt
      rw [hop]
      exact id
    · exact Sect.Spares.clears (hspare x hx (Nat.le_of_not_lt hlt))
  have hops : ∀ t ∈ visits key ctr, t.op.reads = true ∨ t.op = .remove := by
    intro t ht
    obtain ⟨x, hx, hof⟩ := List.mem_filterMap.mp ht
    by_cases hlt : x.2.1.who < removers.length
    · obtain ⟨key', hop⟩ := hremoves x hx hlt
      rw [Visit.of_op hof] at hop
      injection hop with _ hremove
      exact .inr hremove
    · exact .inl (Visit.of_spares (hspare x hx (Nat.le_of_not_lt hlt)) hof)
  have htakes := takes_visits hroom hrun hclears
  cases hheld : c key with
  | none =>
    rw [hheld] at htakes
    exact htakes.gone hops
  | some kept =>
    rw [hheld] at htakes
    exact htakes.removed (hlasts kept hheld) hops hvisited

theorem taken_perm
    (hrun : Run (Cache.Goes map) ⟨c, removers.map (Remover.prog map.shards.length) ++ others⟩ ctr pool)
    (hothers : ∀ key ∈ doomed removers, ∀ x ∈ others, x.Only (Sect.Spares map.home key))
    (hremoves : ∀ x ∈ ctr, x.2.1.who < removers.length → ∃ key ∈ doomed removers, x.2.1.op = .key key .remove)
    (hcounts : ∀ key ∈ doomed removers, (visits key ctr).countP Visit.took = if (c key).isSome then 1 else 0) :
    (((ctr.filter fun x => x.2.1.who < removers.length).map fun x => x.2.1).filterMap taken).Perm
      ((doomed removers).dedup.filter fun key => (c key).isSome) := by
  rw [List.perm_iff_count]
  intro key
  have hnodup : ((doomed removers).dedup.filter fun key => (c key).isSome).Nodup := (List.nodup_dedup _).filter _
  have hthere : key ∈ ((doomed removers).dedup.filter fun key => (c key).isSome) ↔
      key ∈ doomed removers ∧ (c key).isSome := by rw [List.mem_filter, List.mem_dedup]
  by_cases hmem : key ∈ doomed removers
  · have hhere : (((ctr.filter fun x => x.2.1.who < removers.length).map fun x => x.2.1).filterMap taken).count key =
        (visits key ctr).countP Visit.took := by
      rw [List.count_eq_countP, List.countP_filterMap, List.countP_map, List.countP_filter, visits,
        List.countP_filterMap]
      apply List.countP_congr
      intro x hx
      rw [Function.comp_apply, Bool.and_eq_true, decide_eq_true_eq]
      constructor
      · rintro ⟨htaken, -⟩
        cases hmade : taken x.2.1 with
        | none => simp [hmade] at htaken
        | some key' =>
          obtain rfl : key' = key := by simpa [hmade] using htaken
          obtain ⟨t, hof, htook⟩ := taken_iff.mp hmade
          simp [hof, htook]
      · intro htook
        cases hof : Visit.of key x.2.1 with
        | none => simp [hof] at htook
        | some t =>
          have htook : t.took = true := by simpa [hof] using htook
          have htaken : taken x.2.1 = some key := taken_iff.mpr ⟨t, hof, htook⟩
          refine ⟨by simp [htaken], Nat.lt_of_not_le fun hle => ?_⟩
          -- the others only look
          have hspare := others_only hrun (hothers key hmem) x hx (by rwa [List.length_map])
          rw [Visit.took_reads (Visit.of_spares hspare hof)] at htook
          cases htook
    rw [hhere, hcounts key hmem]
    split
    · next hsome => exact (List.count_eq_one_of_mem hnodup (hthere.mpr ⟨hmem, hsome⟩)).symm
    · next hnone => exact (List.count_eq_zero_of_not_mem fun hin => hnone (hthere.mp hin).2).symm
  · rw [List.count_eq_zero_of_not_mem fun hin => hmem (hthere.mp hin).1]
    apply List.count_eq_zero_of_not_mem
    intro hin
    obtain ⟨made, hmade, htaken⟩ := List.mem_filterMap.mp hin
    obtain ⟨x, hx, rfl⟩ := List.mem_map.mp hmade
    obtain ⟨hx, hlt⟩ := List.mem_filter.mp hx
    obtain ⟨t, hof, -⟩ := taken_iff.mp htaken
    obtain ⟨key', hnamed, hop⟩ := hremoves x hx (of_decide_eq_true hlt)
    rw [Visit.of_op hof] at hop
    injection hop with heq
    rw [heq] at hmem
    exact hmem hnamed

end run
theorem mem_doomed {removers : List Remover} {key : List UInt8} :
    key ∈ doomed removers ↔ ∃ remover ∈ removers, key ∈ remover.keys := List.mem_flatMap

/-- Threads that remove keys, while others do as they like but write to those keys or clear their shards:
what they are told they have removed comes to the keys that were there, each once, and none of them
is there in the end. -/
theorem removes_once (removers : List Remover)
    (hreached : Run (Map.Returns imp p) (Map.withSeed shards maxmemory seed) tr₀ map)
    (hkeeps : ∀ x ∈ tr₀, Map.Unstranded p x.1 x.2.1) (hc : map.Stores imp c) (hroom : map.shardBudget = 0)
    (hothers : ∀ key ∈ doomed removers, ∀ x ∈ others, x.Only (Sect.Spares map.home key))
    (h : Run (Machine.Step (map.sections imp p)) (.start (map.sections imp p) map.tables
      (removers.map (Remover.prog map.shards.length) ++ others)) tr m)
    (hgranted : ∀ x ∈ tr, ∀ made, x.2.1.made = some made → ¬ made.op.Refused made.answer)
    (hlasts : ∀ key ∈ doomed removers, ∀ kept, c key = some kept → ∀ x ∈ tr, ∀ made, x.2.1.made = some made →
      Table.passed kept.expiry made.sky.now = false)
    (hdone : ∀ i < removers.length, ∃ ran, m.threads[i]? = some (.running (.ret ran))) :
    ∃ went : List Nat, went.length = removers.length ∧
      (∀ (i n : Nat), went[i]? = some n → ∃ ran, m.threads[i]? = some (.running (.ret ran)) ∧
        ran.reply = Encoder.integer (Signed.clamp n)) ∧
      went.sum = ((doomed removers).dedup.filter fun key => (c key).isSome).length ∧
      ((∀ who at_, ¬ m.Holds (map.sections imp p) who at_) → ∀ key ∈ doomed removers,
        (map.holding (m.cells.map fun cell => cell.lock.value)).stored imp key = .ok none) := by
  obtain ⟨ctr, pool, hrun, hlabels, hprogs, hidle⟩ := sections_serve hreached hkeeps hc h hgranted
  -- each is answered how many of its own calls took something
  have hthread : ∀ (i : Nat) (hi : i < removers.length), ∃ ran, m.threads[i]? = some (.running (.ret ran)) ∧
      ran.reply = Encoder.integer (Signed.clamp (((Pool.stepsOf i ctr).map fun x => x.2.1).filterMap taken).length) ∧
      ((Pool.stepsOf i ctr).map fun x => x.2.1).map (fun made => made.op) =
        removers[i].keys.map fun key => Sect.key key .remove := by
    intro i hi
    obtain ⟨ran, hran⟩ := hdone i hi
    have hprog : (removers.map (Remover.prog map.shards.length) ++ others)[i]? =
        some (removers[i].prog map.shards.length) := by
      rw [List.getElem?_append_left (by rwa [List.length_map]), List.getElem?_map, List.getElem?_eq_getElem hi]
      rfl
    have hdrives := crowd_drives hrun hprogs hprog hran
    rw [Remover.prog_eq] at hdrives
    obtain ⟨hreply, hops⟩ := tally_drives hdrives
    exact ⟨ran, hran, by rw [hreply], hops⟩
  have hlabel : ∀ x ∈ ctr, ∃ y ∈ tr, y.2.1.made = some x.2.1 := by
    intro x hx
    have hmem : x.2.1 ∈ ctr.map fun x => x.2.1 := List.mem_map_of_mem hx
    rw [hlabels, List.mem_filterMap] at hmem
    exact hmem
  have hremoves : ∀ x ∈ ctr, x.2.1.who < removers.length → ∃ key ∈ doomed removers, x.2.1.op = .key key .remove := by
    intro x hx hlt
    obtain ⟨-, -, -, hops⟩ := hthread _ hlt
    have hmem : x.2.1.op ∈ ((Pool.stepsOf x.2.1.who ctr).map fun x => x.2.1).map fun made => made.op :=
      List.mem_map_of_mem (List.mem_map_of_mem (List.mem_filter.mpr ⟨hx, by simp⟩))
    rw [hops] at hmem
    obtain ⟨key, hkey, hop⟩ := List.mem_map.mp hmem
    exact ⟨key, mem_doomed.mpr ⟨_, List.getElem_mem hlt, hkey⟩, hop.symm⟩
  have hvisited : ∀ key ∈ doomed removers, ∃ t ∈ visits key ctr, t.op = .remove := by
    intro key hkey
    obtain ⟨remover, hmem, hkey⟩ := mem_doomed.mp hkey
    obtain ⟨i, hi, rfl⟩ := List.getElem_of_mem hmem
    obtain ⟨-, -, -, hops⟩ := hthread i hi
    have hop : Sect.key key .remove ∈ ((Pool.stepsOf i ctr).map fun x => x.2.1).map fun made => made.op := by
      rw [hops]
      exact List.mem_map_of_mem hkey
    obtain ⟨made, hmade, hop⟩ := List.mem_map.mp hop
    obtain ⟨x, hx, rfl⟩ := List.mem_map.mp hmade
    obtain ⟨⟨who, sky, op, answer⟩, hlab⟩ : ∃ made, x.2.1 = made := ⟨_, rfl⟩
    rw [hlab] at hop
    subst hop
    have hof : Visit.of key x.2.1 = some ⟨who, sky.now, .remove, answer⟩ := by
      rw [hlab, Visit.of, if_pos rfl]
    exact ⟨_, List.mem_filterMap.mpr ⟨x, (List.mem_filter.mp hx).1, hof⟩, rfl⟩
  have hclocked : ∀ key ∈ doomed removers, ∀ kept, c key = some kept → ∀ now, Clocked ctr now →
      Table.passed kept.expiry now = false := by
    rintro key hkey kept hkept now ⟨x, hx, rfl⟩
    obtain ⟨y, hy, hmade⟩ := hlabel x hx
    exact hlasts key hkey kept hkept y hy _ hmade
  -- of all the visits to a key one takes it, if it was there
  have hkey : ∀ key ∈ doomed removers, pool.state key = none ∧
      (visits key ctr).countP Visit.took = if (c key).isSome then 1 else 0 := by
    intro key hkey
    apply doomed_gone hroom hrun (hothers key hkey) _ (hvisited key hkey) (hclocked key hkey)
    intro x hx hlt
    obtain ⟨key', -, hop⟩ := hremoves x hx hlt
    exact ⟨key', hop⟩
  have hcount := taken_perm hrun hothers hremoves fun key hnamed => (hkey key hnamed).2
  refine ⟨(List.range removers.length).map fun i => (((Pool.stepsOf i ctr).map fun x => x.2.1).filterMap taken).length,
    by simp, ?_, ?_, ?_⟩
  · intro i n hn
    rw [List.getElem?_map, Option.map_eq_some_iff] at hn
    obtain ⟨j, hj, rfl⟩ := hn
    obtain ⟨hlt, rfl⟩ := List.getElem?_eq_some_iff.mp hj
    rw [List.length_range] at hlt
    obtain ⟨ran, hran, hreply, -⟩ := hthread i hlt
    rw [List.getElem_range]
    exact ⟨ran, hran, hreply⟩
  · rw [← hcount.length_eq]
    simp only [List.length_filterMap_eq_countP, List.countP_map, Pool.stepsOf]
    apply countP_places
  · intro hnobody key hkey'
    rw [hidle hnobody key, (hkey key hkey').1]

end threads

/-! ## Two threads -/

/-- `DEL a`, and `UNLINK a`. -/
def delOne : Remover := ⟨Commands.started, .resp2, ascii "DEL", [ascii "a"], .inl (by decide), List.cons_ne_nil _ _⟩

def unlinkOne : Remover :=
  ⟨Commands.started, .resp3, ascii "unlink", [ascii "a"], .inr (by decide), List.cons_ne_nil _ _⟩

/-- The cache, once `SET a 1` has been answered. -/
def stocked : Map := Commands.left fresh 9 (.key (ascii "a") (.set (ascii "1") none none))

/-- Its tables once the key is removed, and once it is removed again. -/
def rid : List Table := remains stocked stocked.tables (.key (ascii "a") .remove)

theorem removers_answered :
    (fresh.perform .word .boxed ⟨9, true⟩ (.key (ascii "a") (.set (ascii "1") none none))).map Prod.fst =
      .ok (.ok .inserted) ∧
    stocked.stored .word (ascii "a") = .ok (some ⟨ascii "1", none, none⟩) ∧ stocked.shardBudget = 0 ∧
    ((stocked.sections .word .boxed).perform ⟨9, true⟩ stocked.tables (.key (ascii "a") .remove)).map Prod.fst =
      .ok true ∧
    ((stocked.sections .word .boxed).perform ⟨9, true⟩ rid (.key (ascii "a") .remove)).map Prod.fst = .ok false := by
  decide +kernel

/-- A thread that is to make one such section, and one that has made it. -/
def removing (dialect : Dialect) : Sects stocked.shards.length Commands.Ran :=
  .call (Sect.key (ascii "a") .remove) fun found =>
    .ret ⟨Encoder.integer (Signed.clamp ((if (found : Bool) then 1 else 0) + 0)), dialect, false⟩

def removed (dialect : Dialect) (went : Nat) : Sects stocked.shards.length Commands.Ran :=
  .ret ⟨Encoder.integer (Signed.clamp went), dialect, false⟩

theorem removers_progs : [delOne, unlinkOne].map (Remover.prog stocked.shards.length) ++ [] =
    [removing .resp2, removing .resp3] := by
  rw [List.append_nil, List.map_cons, List.map_cons, List.map_nil, Remover.prog_eq, Remover.prog_eq]
  rfl

/-- The second thread comes first, and only it finds the key. -/
theorem removers_run : ∃ tr m, Run (Machine.Step (stocked.sections .word .boxed))
      (.start (stocked.sections .word .boxed) stocked.tables
        ([delOne, unlinkOne].map (Remover.prog stocked.shards.length) ++ [])) tr m ∧
    m.threads = [.running (removed .resp2 0), .running (removed .resp3 1)] ∧
    ∀ x ∈ tr, ∀ made, x.2.1.made = some made → ¬ made.op.Refused made.answer := by
  obtain ⟨-, -, -, hunlink, hdel⟩ := removers_answered
  rw [removers_progs]
  have hfirst : Pool.Step (stocked.sections .word .boxed).perform ⟨stocked.tables, [removing .resp2, removing .resp3]⟩
      ⟨1, ⟨9, true⟩, .key (ascii "a") .remove, true⟩ ⟨rid, [removing .resp2, removed .resp3 1]⟩ :=
    made_by rfl (remains_of hunlink) rfl
  have hsecond : Pool.Step (stocked.sections .word .boxed).perform ⟨rid, [removing .resp2, removed .resp3 1]⟩
      ⟨0, ⟨9, true⟩, .key (ascii "a") .remove, false⟩
      ⟨remains stocked rid (.key (ascii "a") .remove), [removed .resp2 0, removed .resp3 1]⟩ :=
    made_by rfl (remains_of hdel) rfl
  obtain ⟨tr, hrun, hmade⟩ := Machine.covers ((Run.single hfirst).snoc hsecond)
  dsimp only at hrun
  exact ⟨tr, _, hrun, rfl, granted_of hmade (by simp [Sect.Refused, KeyOp.Refused])⟩

theorem removes_once_two : ∃ (tr : _) (m : _) (went : List Nat), Run (Machine.Step (stocked.sections .word .boxed))
      (.start (stocked.sections .word .boxed) stocked.tables
        ([delOne, unlinkOne].map (Remover.prog stocked.shards.length) ++ [])) tr m ∧
    stocked.stored .word (ascii "a") = .ok (some ⟨ascii "1", none, none⟩) ∧ went.length = 2 ∧
    (∀ (i n : Nat), went[i]? = some n → ∃ ran, m.threads[i]? = some (.running (.ret ran)) ∧
      ran.reply = Encoder.integer (Signed.clamp n)) ∧ went.sum = 1 := by
  obtain ⟨hset, hstored, hroom, -, -⟩ := removers_answered
  obtain ⟨tr, m, hrun, hthreads, hgranted⟩ := removers_run
  have hgoes : Map.Returns .word .boxed fresh
      (.op ⟨⟨9, true⟩, .key (ascii "a") (.set (ascii "1") none none), .ok .inserted⟩) stocked := Commands.performs hset
  have hkeeps : Map.Unstranded .boxed fresh
      (.op ⟨⟨9, true⟩, .key (ascii "a") (.set (ascii "1") none none), .ok .inserted⟩) := nofun
  have hkept : ∀ x ∈ [(fresh, Map.Act.op ⟨⟨9, true⟩, .key (ascii "a") (.set (ascii "1") none none), .ok .inserted⟩,
      stocked)], Map.Unstranded .boxed x.1 x.2.1 := by
    intro x hx
    rw [List.mem_singleton.mp hx]
    exact hkeeps
  have hreached : Run (Map.Returns .word .boxed) (Map.withSeed 1 0 0) _ stocked := Run.single hgoes
  obtain ⟨-, c, his⟩ := Map.reached_is hreached hkept
  have hone : c (ascii "a") = some ⟨ascii "1", none, none⟩ := his.stores.read hstored
  have hdoomed : (doomed [delOne, unlinkOne]).dedup = [ascii "a"] := by decide
  have hdone : ∀ i < [delOne, unlinkOne].length, ∃ ran, m.threads[i]? = some (.running (.ret ran)) := by
    intro i hi
    rw [hthreads]
    obtain rfl | rfl : i = 0 ∨ i = 1 := by
      simp only [List.length_cons, List.length_nil] at hi
      omega
    · exact ⟨_, rfl⟩
    · exact ⟨_, rfl⟩
  -- the one key has no expiry
  have hlasts : ∀ key ∈ doomed [delOne, unlinkOne], ∀ kept, c key = some kept → ∀ x ∈ tr, ∀ made,
      x.2.1.made = some made → Table.passed kept.expiry made.sky.now = false := by
    intro key hkey kept hkept _ _ _ _
    rw [← List.mem_dedup, hdoomed] at hkey
    rw [List.mem_singleton.mp hkey, hone] at hkept
    cases hkept
    rfl
  obtain ⟨went, hlength, hreplies, hsum, -⟩ := removes_once [delOne, unlinkOne] hreached hkept his.stores hroom
    (fun _ _ => List.forall_mem_nil _) hrun hgranted hlasts hdone
  refine ⟨tr, m, went, hrun, hstored, hlength, hreplies, hsum.trans ?_⟩
  rw [hdoomed, List.filter_cons_of_pos (by rw [hone]; rfl)]
  rfl

end Rugo
