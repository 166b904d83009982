import Rugo.CommandReplies
import Rugo.Sections

/- Commands at work on the shards. All but four of them ask for nothing that is not one
   section; `DBSIZE`, `INFO`, `FLUSHALL` and `FLUSHDB` ask for one of every shard.

     1. `sections_commands`: the others, run by any number of threads under the locks, are
        interleaved as whole operations of the map. -/
namespace Rugo
open Exec Progs Runs Resp

namespace Commands
variable {imp : Imp} {p : Platform} {map : Map} {n : Nat}

/-- An operation that is one section. -/
def AtOnce : Map.Op → Prop
  | .key .. => True
  | .now => True
  | _ => False

def whole : Made (@Sect.Answer n) Sky → Option (Made Map.Op.Answer Sky)
  | ⟨who, sky, .key key op, answer⟩ => some ⟨who, sky, .key key op, answer⟩
  | ⟨who, sky, .now, answer⟩ => some ⟨who, sky, .now, answer⟩
  | _ => none

section walk
variable (env : Env) (dialect : Dialect) (args : List (List UInt8))

theorem values_only (keys : List (List UInt8)) : (values dialect keys).Only AtOnce := by
  induction keys with
  | nil => trivial
  | cons key keys ih =>
    apply Prog.Only.ask trivial
    intro value
    exact ih.map _

theorem pairs_only (rest : List (List UInt8)) : (pairs rest).Only AtOnce := by
  induction rest using pairs.induct with
  | case1 key value rest ih =>
    apply Prog.Only.ask trivial
    intro wrote
    cases wrote with
    | error full => trivial
    | ok wrote => exact ih
  | case2 rest hrest =>
    rw [pairs.eq_def]
    split
    · next heq => exact absurd rfl (hrest _ _ _)
    · trivial

theorem count_only (key : List UInt8) (by_ : Int) : (count key by_).Only AtOnce := by
  apply Prog.Only.ask trivial
  intro counted
  match counted with
  | .ok value => trivial
  | .error .notANumber => trivial
  | .error .outOfRange => trivial
  | .error .full => trivial

theorem incr_only (word : String) (by_ : Int) : (incr args word by_).Only AtOnce :=
  Prog.Only.ite (x := pure _) trivial (count_only _ by_)

theorem incrBy_only (word : String) (negated : Bool) : (incrBy args word negated).Only AtOnce := by
  apply Prog.Only.ite
  · trivial
  split
  · trivial
  · split
    · trivial
    · exact count_only _ _

theorem set_only : (set dialect args).Only AtOnce := by
  apply Prog.Only.ite
  · trivial
  apply Prog.Only.ite
  · apply Prog.Only.ask trivial
    intro wrote
    cases wrote <;> trivial
  · apply Prog.Only.ask trivial
    intro now
    split
    · trivial
    · apply Prog.Only.ask trivial
      intro wrote
      split <;> trivial

theorem timedSet_only (millis : Bool) : (timedSet args millis).Only AtOnce := by
  rw [timedSet]
  apply Prog.Only.ite
  · trivial
  split
  · trivial
  · apply Prog.Only.ite
    · trivial
    apply Prog.Only.ask trivial
    intro now
    apply Prog.Only.ask trivial
    intro wrote
    cases wrote <;> trivial

theorem get_only : (get dialect args).Only AtOnce := by
  apply Prog.Only.ite
  · trivial
  · apply Prog.Only.ask trivial
    intro value
    trivial

theorem mget_only : (mget dialect args).Only AtOnce :=
  Prog.Only.ite (x := pure _) trivial ((values_only dialect _).map _)

theorem mset_only : (mset args).Only AtOnce := Prog.Only.ite (x := pure _) trivial (pairs_only _)

theorem strlen_only : (strlen args).Only AtOnce := by
  apply Prog.Only.ite
  · trivial
  · apply Prog.Only.ask trivial
    intro value
    trivial

theorem strings_only (name : List UInt8) : ∀ work, strings dialect args name = some work → work.Only AtOnce := by
  rw [strings]
  apply chosen (get_only dialect args)
  apply chosen (set_only dialect args)
  apply chosen (timedSet_only args _)
  apply chosen (mget_only dialect args)
  apply chosen (mset_only args)
  apply chosen (incr_only args _ _)
  apply chosen (incr_only args _ _)
  apply chosen (incrBy_only args _ _)
  apply chosen (incrBy_only args _ _)
  apply chosen (strlen_only args)
  intro work hwork
  cases hwork

theorem tally_only {ask : List UInt8 → Work Bool} (hask : ∀ key, (ask key).Only AtOnce) (keys : List (List UInt8)) :
    (tally ask keys).Only AtOnce := by
  induction keys with
  | nil => trivial
  | cons key keys ih => exact (hask key).bind fun yes => ih.map _

theorem expire_only (key : List UInt8) (value : Int) (millis absolute : Bool) :
    (expire key value millis absolute).Only AtOnce := by
  apply Prog.Only.ask trivial
  intro now
  apply Prog.Only.ite
  · apply Prog.Only.ask trivial
    intro there
    trivial
  · apply Prog.Only.ask trivial
    intro changed
    cases changed <;> trivial

theorem expireBy_only (word : String) (millis absolute : Bool) : (expireBy args word millis absolute).Only AtOnce := by
  apply Prog.Only.ite
  · trivial
  split
  · trivial
  · exact expire_only _ _ millis absolute

theorem ttl_only (word : String) (millis : Bool) : (ttl args word millis).Only AtOnce := by
  apply Prog.Only.ite
  · trivial
  apply Prog.Only.ask trivial
  intro now
  apply Prog.Only.ask trivial
  intro when_
  split <;> trivial

theorem persist_only : (persist args).Only AtOnce := by
  apply Prog.Only.ite
  · trivial
  apply Prog.Only.ask trivial
  intro when_
  apply Prog.Only.ask trivial
  intro changed
  cases changed <;> trivial

theorem del_only : (del args).Only AtOnce := by
  have hremove : ∀ key, (Call.remove key).Only AtOnce := fun _ => ⟨trivial, fun _ => trivial⟩
  exact Prog.Only.ite (x := pure _) trivial ((tally_only hremove _).map _)

theorem exists_only : (exists_ args).Only AtOnce := by
  have hcontains : ∀ key, (Call.contains key).Only AtOnce := fun _ => ⟨trivial, fun _ => trivial⟩
  exact Prog.Only.ite (x := pure _) trivial ((tally_only hcontains _).map _)

/-- The commands that ask for a section of every shard. -/
def shardwide : List (List UInt8) := [ascii "DBSIZE", ascii "FLUSHALL", ascii "FLUSHDB", ascii "INFO"]

/-- A name that is not the command's. -/
theorem passed_over {β : Type} {P : β → Prop} {c : Prop} [Decidable c] {a : β} {o : Option β} (hc : ¬ c)
    (ho : ∀ w, o = some w → P w) : ∀ w, (if c then some a else o) = some w → P w := by
  rw [if_neg hc]
  exact ho

theorem keyspace_only {name : List UInt8} (hname : name ∉ shardwide) :
    ∀ work, keyspace args name = some work → work.Only AtOnce := by
  rw [shardwide, List.mem_cons, List.mem_cons, List.mem_cons, not_or, not_or, not_or] at hname
  obtain ⟨hdbsize, hall, hdb, -⟩ := hname
  rw [keyspace]
  apply chosen (del_only args)
  apply chosen (exists_only args)
  apply chosen (expireBy_only args _ _ _)
  apply chosen (expireBy_only args _ _ _)
  apply chosen (expireBy_only args _ _ _)
  apply chosen (expireBy_only args _ _ _)
  apply chosen (ttl_only args _ _)
  apply chosen (ttl_only args _ _)
  apply chosen (persist_only args)
  apply passed_over (P := fun work : Work (List UInt8) => work.Only AtOnce) hdbsize
  apply passed_over (P := fun work : Work (List UInt8) => work.Only AtOnce) (not_or.mpr ⟨hall, hdb⟩)
  intro work hwork
  cases hwork

theorem admin_only {name : List UInt8} (hname : name ∉ shardwide) :
    ∀ work, admin env dialect args name = some work → work.Only AtOnce := by
  have hinfo : name ≠ ascii "INFO" := by
    intro hinfo
    rw [hinfo] at hname
    exact hname (by decide)
  have hpure : ∀ reply : List UInt8, (pure reply : Work (List UInt8)).Only AtOnce := fun _ => trivial
  rw [admin]
  apply passed_over (P := fun work : Work (List UInt8) => work.Only AtOnce) hinfo
  apply chosen (hpure _)
  apply chosen (hpure _)
  apply chosen (hpure _)
  intro work hwork
  cases hwork

/-- Every other command asks for nothing that is not one section. -/
theorem run_only (hname : ∀ raw ∈ args.head?, raw.map upper ∉ shardwide) : (run env args dialect).Only AtOnce := by
  cases args with
  | nil => trivial
  | cons raw rest =>
    have hraw : raw.map upper ∉ shardwide := hname raw rfl
    rw [run]
    apply Prog.Only.ite
    · trivial
    · dsimp only
      split
      · next work hwork => exact (strings_only _ _ _ work hwork).map _
      · split
        · next work hwork => exact (keyspace_only _ hraw work hwork).map _
        · split
          · trivial
          · split
            · next work hwork => exact (admin_only _ _ _ hraw work hwork).map _
            · trivial

end walk

/-! ## Interleavings -/

/-- Sections and operations side by side: the same programs, on the tables of the same map. -/
structure Mirrors (map : Map) {α : Type} (pool : Pool (@Sect.Answer map.shards.length) (List Table) α)
    (pool' : Pool Map.Op.Answer Map α) : Prop where
  alike : map.Alike pool'.state
  state : pool.state = pool'.state.tables
  progs : pool.progs = pool'.progs.map (sects map.shards.length)
  only : ∀ x ∈ pool'.progs, x.Only AtOnce

section mirror
variable {α : Type} {pool pool₁ : Pool (@Sect.Answer map.shards.length) (List Table) α}
  {pool' : Pool Map.Op.Answer Map α} {made : Made (@Sect.Answer map.shards.length) Sky}

/-- A program of which one call has been answered. -/
theorem Mirrors.set (h : Mirrors map pool pool') {who : Nat} {op : Map.Op} {next : op.Answer → Work α}
    (hcall : pool'.progs[who]? = some (.call op next)) (answer : op.Answer) :
    ∀ x ∈ pool'.progs.set who (next answer), x.Only AtOnce := by
  intro x hx
  obtain hx | rfl := List.mem_or_eq_of_mem_set hx
  · exact h.only x hx
  · exact (h.only _ (List.mem_of_getElem? hcall)).2 answer

theorem Mirrors.step (h : Mirrors map pool pool') (hstep : Pool.Step (map.sections imp p).perform pool made pool₁) :
    ∃ made' pool₁', whole made = some made' ∧
      Pool.Step (fun sky map op => Map.perform imp p sky map op) pool' made' pool₁' ∧ Mirrors map pool₁ pool₁' := by
  obtain ⟨hcall, hperform⟩ := hstep
  rename_i who sky sect next answer state
  rw [h.progs, List.getElem?_map, Option.map_eq_some_iff] at hcall
  obtain ⟨x, hx, hsects⟩ := hcall
  have honly := h.only x (List.mem_of_getElem? hx)
  rw [h.state] at hperform
  match x, hx, hsects, honly with
  | .call (.key key op) next', hx, hsects, _ =>
    cases hsects
    obtain ⟨shard, t', hshard, rfl, hperform'⟩ := h.alike.perform_section hperform
    refine ⟨_, _, rfl, .call hx hperform', ?_, ?_, ?_, h.set hx answer⟩
    · exact h.alike.trans ⟨List.length_set, rfl, rfl, rfl⟩
    · rw [Map.tables, Map.tables, List.map_set]
      rfl
    · rw [h.progs, List.map_set]
      rfl
  | .call .now next', hx, hsects, _ =>
    cases hsects
    cases hperform
    refine ⟨_, _, rfl, .call hx rfl, h.alike, rfl, ?_, h.set hx _⟩
    rw [h.progs, List.map_set]
    rfl

end mirror

section crowd
variable {m : map.Crowd Ran}
  {tr : List (map.Crowd Ran × Move (@Sect.Answer map.shards.length) Sky × map.Crowd Ran)}

/-- A program that asks for something as sections does so as operations. -/
theorem sects_ret {x : Work Ran} (honly : x.Only AtOnce) {ran : Ran} (h : sects n x = .ret ran) : x = .ret ran := by
  match x, honly with
  | .ret ran', _ =>
    cases h
    rfl
  | .call (.key key op) next, _ => cases h
  | .call .now next, _ => cases h

/-- Commands that ask for nothing that is not one section: what threads that run them under the
locks are answered, and what they come to and leave, is what they are told and come to and leave
where each operation of the map is done at one moment. -/
theorem sections_commands {env : Env} {cmds : List (List (List UInt8) × Dialect)}
    (hnames : ∀ cmd ∈ cmds, ∀ raw ∈ cmd.1.head?, raw.map upper ∉ shardwide)
    (h : Run (Machine.Step (map.sections imp p)) (.start (map.sections imp p) map.tables
      (cmds.map fun cmd => sects map.shards.length (run env cmd.1 cmd.2))) tr m) :
    ∃ tr' pool, Run (Sessions.Step imp p) ⟨map, cmds.map fun cmd => run env cmd.1 cmd.2⟩ tr' pool ∧
      tr'.map (fun x => x.2.1) = (tr.filterMap fun x => x.2.1.made).filterMap whole ∧
      (∀ (who : Nat) (ran : Ran), m.threads[who]? = some (.running (.ret ran)) → pool.progs[who]? = some (.ret ran)) ∧
      ((∀ who at_, ¬ m.Holds (map.sections imp p) who at_) →
        m.cells.map (fun cell => cell.lock.value) = pool.state.tables) := by
  have honly : ∀ x ∈ cmds.map (fun cmd => run env cmd.1 cmd.2), x.Only AtOnce := by
    intro x hx
    obtain ⟨cmd, hcmd, rfl⟩ := List.mem_map.mp hx
    exact run_only env cmd.2 cmd.1 (hnames cmd hcmd)
  obtain ⟨tr₁, pool₁, owner, hrun, hlinear, hlabels⟩ := (Linear.start (map.sections imp p) map.tables _).run h
  have hstart : Mirrors map ⟨map.tables, cmds.map fun cmd => sects map.shards.length (run env cmd.1 cmd.2)⟩
      ⟨map, cmds.map fun cmd => run env cmd.1 cmd.2⟩ := ⟨.refl map, rfl, List.map_map.symm, honly⟩
  obtain ⟨tr', pool, hrun', hmirrors, hlabels'⟩ :=
    hrun.refines (C := fun _ _ => True) (f := whole) hstart (by
      intro s t made s' hmirrors _ hstep
      exact .inr (hmirrors.step hstep)) (fun _ _ => trivial)
  refine ⟨tr', pool, hrun', ?_, ?_, ?_⟩
  · rw [hlabels', ← hlabels, List.filterMap_map]
    rfl
  · intro who ran hwho
    have hprogs := hlinear.progs.symm.trans hmirrors.progs
    have hret : (pool.progs.map (sects map.shards.length))[who]? = some (.ret ran) := by
      rw [← hprogs, List.getElem?_map, hwho]
      rfl
    rw [List.getElem?_map, Option.map_eq_some_iff] at hret
    obtain ⟨x, hx, hsects⟩ := hret
    rw [hx, sects_ret (hmirrors.only x (List.mem_of_getElem? hx)) hsects]
  · intro hidle
    rw [(hlinear.settled hidle).1, hmirrors.state]

end crowd

def meeting : List (List (List UInt8) × Dialect) :=
  [([ascii "SET", ascii "k", ascii "1"], .resp2), ([ascii "EXISTS", ascii "k"], .resp2)]

theorem meeting_answered :
    ((fresh.sections .word .boxed).perform ⟨9, true⟩ fresh.tables (.key (ascii "k") (.set (ascii "1") none none))).map
      Prod.fst = .ok (.ok .inserted) ∧
    ((fresh.sections .word .boxed).perform ⟨9, true⟩
      (remains fresh fresh.tables (.key (ascii "k") (.set (ascii "1") none none))) (.key (ascii "k") .contains)).map
      Prod.fst = .ok true := by
  decide +kernel

/-- The key is there once it is set, under the lock as where each operation is done at one moment. -/
theorem sections_commands_two : ∃ tr m tr' pool, Run (Machine.Step (fresh.sections .word .boxed))
      (.start (fresh.sections .word .boxed) fresh.tables
        (meeting.map fun cmd => sects fresh.shards.length (run started cmd.1 cmd.2))) tr m ∧
    Run (Sessions.Step .word .boxed) ⟨fresh, meeting.map fun cmd => run started cmd.1 cmd.2⟩ tr' pool ∧
    tr'.map (fun x => x.2.1) = (tr.filterMap fun x => x.2.1.made).filterMap whole ∧ tr'.length = 2 ∧
    pool.progs[0]? = some (.ret ⟨okay, .resp2, false⟩) ∧
    pool.progs[1]? = some (.ret ⟨Encoder.integer 1, .resp2, false⟩) := by
  obtain ⟨hset, hfound⟩ := meeting_answered
  let stored := remains fresh fresh.tables (.key (ascii "k") (.set (ascii "1") none none))
  have hfirst : Pool.Step (fresh.sections .word .boxed).perform
      ⟨fresh.tables, [working [ascii "SET", ascii "k", ascii "1"], working [ascii "EXISTS", ascii "k"]]⟩
      ⟨0, ⟨9, true⟩, .key (ascii "k") (.set (ascii "1") none none), .ok .inserted⟩
      ⟨stored, [.ret ⟨okay, .resp2, false⟩, working [ascii "EXISTS", ascii "k"]]⟩ := made_by rfl (remains_of hset) rfl
  have hsecond : Pool.Step (fresh.sections .word .boxed).perform
      ⟨stored, [.ret ⟨okay, .resp2, false⟩, working [ascii "EXISTS", ascii "k"]]⟩
      ⟨1, ⟨9, true⟩, .key (ascii "k") .contains, true⟩
      ⟨remains fresh stored (.key (ascii "k") .contains),
        [.ret ⟨okay, .resp2, false⟩, .ret ⟨Encoder.integer 1, .resp2, false⟩]⟩ := made_by rfl (remains_of hfound) rfl
  obtain ⟨tr, hrun, hmade⟩ := Machine.covers ((Run.single hfirst).snoc hsecond)
  have hnames : ∀ cmd ∈ meeting, ∀ raw ∈ cmd.1.head?, raw.map upper ∉ shardwide := by decide
  obtain ⟨tr', pool, hrun', hlabels, hrets, -⟩ := sections_commands hnames hrun
  refine ⟨tr, _, tr', pool, hrun, hrun', hlabels, ?_, hrets 0 _ rfl, hrets 1 _ rfl⟩
  have hlen := congrArg List.length hlabels
  rw [hmade, List.length_map] at hlen
  exact hlen

end Commands
end Rugo
