import Rugo.Lock
import Rugo.LockEnds
import Rugo.Batches

/- The map as its threads have it (`rugo-map/src/lib.rs`): every call is a section under one
   shard's lock, or a load beside it. An operation on a key is one section, which reads the
   clock before the lock is asked for; `clear` is one for each shard, and `len` one load for
   each. So neither of these is done at one moment.

   Where a sweep starts is left open: any shard, and any slot of it. A load without the lock
   reads what was published last.

     1. `sections_alone`: however the threads run, no two are under one shard's lock, and a
        lock that reads as held is held by one of them.
     2. `sections_serve`: whatever they are answered, one cache answers that is asked for the
        same calls one after another, each of them whole.
     3. `sections_sound`: no section panics, as long as none was refused, but for one that is
        itself given what is too long.
     4. `sections_finish`: wherever they are, they can all come to their ends. -/
namespace Rugo
open Exec Progs Runs

/-! ## Sections -/

/-- What a thread asks of a map of so many shards, and is done at one moment. -/
inductive Sect (shards : Nat) where
  | key (key : List UInt8) (op : KeyOp)
  /-- One shard of `clear`. -/
  | clear (at_ : Fin shards)
  /-- A sweep of a shard, from a slot of it on. -/
  | sweep (at_ : Fin shards) (slot budget : Nat)
  /-- One load of `len`. -/
  | len (at_ : Fin shards)
  | now

instance : Inhabited Sky := ⟨⟨0, true⟩⟩

namespace Sect
variable {n : Nat}

@[reducible] def Answer : Sect n → Type
  | key _ op => op.Answer
  | clear _ => Unit
  | sweep .. => Nat
  | len _ => Nat
  | now => UInt32

def Refused : (op : Sect n) → op.Answer → Prop
  | key _ op, answer => op.Refused answer
  | _, _ => False

end Sect

/-- A program of sections. -/
abbrev Sects (n : Nat) (α : Type) := Prog (@Sect.Answer n) α

namespace Table

def drain (imp : Imp) (t : Table) : Exec Table := do
  let t ← t.clear
  let (_, t) ← t.shrink imp
  pure t

/-- `Map::sweep`, under the lock: how many went. -/
def reap (imp : Imp) (slot budget : Nat) (now : UInt32) (t : Table) : Exec (Nat × Table) := do
  let ((_, removed), t) ← t.sweep imp slot budget now
  let t ← if removed > 0 then do
      let (_, t) ← t.shrink imp
      pure t
    else pure t
  pure (removed, t)

end Table

namespace Map

/-- What each call does, on a map of these shards, this seed and this ceiling. -/
def sections (imp : Imp) (p : Platform) (map : Map) : Service (@Sect.Answer map.shards.length) Table Nat Sky where
  act sky
    | .key key op => .under (map.home key) fun t => op.serve imp p sky map.shardBudget t key (map.hash key)
    | .clear at_ => .under at_ fun t => do
      let t ← t.drain imp
      pure ((), t)
    | .sweep at_ slot budget => .under at_ fun t => t.reap imp slot budget sky.now
    | .len at_ => .look at_ id
    | .now => .alone sky.now
  publish := Table.len

def lens {n : Nat} : List (Fin n) → Sects n Nat
  | [] => pure 0
  | at_ :: rest => do
    let len ← Prog.ask (Sect.len at_)
    let more ← lens rest
    pure (len + more)

def clears {n : Nat} : List (Fin n) → Sects n Unit
  | [] => pure ()
  | at_ :: rest => do
    let _ ← Prog.ask (Sect.clear at_)
    clears rest

/-- The sections of an operation. -/
def split (n : Nat) : (op : Op) → Sects n op.Answer
  | .key key op => Prog.ask (Sect.key key op)
  | .len => lens (List.finRange n)
  | .clear => clears (List.finRange n)
  | .now => Prog.ask Sect.now

def tables (map : Map) : List Table := map.shards.map Shard.table

/-- A map like this one that has these tables, and has published them. -/
def holding (map : Map) (tables : List Table) : Map :=
  { map with shards := tables.map fun t => ⟨t, t.len, t.chargedBytes, 0⟩ }

end Map

/-- A command, as the sections it asks for. -/
def Commands.sects {α : Type} (n : Nat) (x : Commands.Work α) : Sects n α := x.expand (Map.split n)

/-- Threads at work on the shards of a map. -/
abbrev Map.Crowd (map : Map) (α : Type) := Machine (@Sect.Answer map.shards.length) Table Nat Sky α

/-! ## What the cache answers -/

/-- What a section answers of a cache, and what it does to it, where these are the shards of the
keys and a map of such a ceiling may lose keys to a write. -/
inductive Cache.Answers {n : Nat} (home : List UInt8 → Nat) (ceiling : Nat) (m : Cache) (now : UInt32) :
    (op : Sect n) → op.Answer → Cache → Prop
  | key {key : List UInt8} {op : KeyOp} {a kept m'} : op.onKept key now (m key) = some (a, kept) →
      Cache.Below m' (Function.update m key kept) → (ceiling = 0 → m' = Function.update m key kept) →
      Answers home ceiling m now (.key key op) a m'
  | clear {at_ : Fin n} : Answers home ceiling m now (.clear at_) () (fun key => if home key = at_ then none else m key)
  | sweep {at_ : Fin n} {slot budget : Nat} {gone : List (List UInt8)} : (m.part home at_).Lapsed now gone →
      Answers home ceiling m now (.sweep at_ slot budget) gone.length (m.less gone)
  | len {at_ : Fin n} {count : Nat} : (m.part home at_).Counts count → Answers home ceiling m now (.len at_) count m
  | now : Answers home ceiling m now .now now m

namespace Map
variable {imp : Imp} {p : Platform} {sky : Sky} {map : Map} {m m' : Cache} {tables tables' : List Table}

theorem holding_alike (map : Map) (hlength : tables.length = map.shards.length) : map.Alike (map.holding tables) :=
  ⟨by rw [holding, List.length_map, hlength], rfl, rfl, rfl⟩

theorem holding_set (map : Map) {i : Nat} {t : Table} (t' : Table) (ht : tables[i]? = some t) :
    ∃ shard, (map.holding tables).shards[i]? = some shard ∧ shard.table = t ∧
      map.holding (tables.set i t') =
        { map.holding tables with shards := (map.holding tables).shards.set i (shard.publish t') } := by
  refine ⟨⟨t, t.len, t.chargedBytes, 0⟩, ?_, rfl, ?_⟩
  · rw [holding, List.getElem?_map, ht]
    rfl
  · rw [holding, List.map_set]
    rfl

theorem IsCache.set_shard (h : map.IsCache imp m) {i : Nat} {shard : Shard}
    (hholds : map.Holds imp shard (m'.part map.home i))
    (hothers : ∀ j ≠ i, m'.part map.home j = m.part map.home j) :
    ({ map with shards := map.shards.set i shard } : Map).IsCache imp m' := by
  have halike : map.Alike { map with shards := map.shards.set i shard } := ⟨List.length_set, rfl, rfl, rfl⟩
  refine ⟨halike.shaped h.shaped, ?_⟩
  intro j other hother
  rw [halike.home]
  by_cases heq : j = i
  · rw [heq] at hother ⊢
    have hlt := (List.getElem?_eq_some_iff.mp hother).1
    rw [List.length_set] at hlt
    rw [List.getElem?_set_self hlt] at hother
    cases hother
    exact hholds.alike halike
  · rw [List.getElem?_set_ne (Ne.symm heq)] at hother
    rw [hothers j heq]
    exact (h.shards j other hother).alike halike

theorem perform_under {op : Sect map.shards.length} {a : op.Answer} {at_ : Nat}
    {section_ : Table → Exec (op.Answer × Table)} (hact : (map.sections imp p).act sky op = .under at_ section_)
    (h : (map.sections imp p).perform sky tables op = .ok (a, tables')) :
    ∃ t t', tables[at_]? = some t ∧ section_ t = .ok (a, t') ∧ tables' = tables.set at_ t' := by
  simp only [Service.perform, hact] at h
  obtain ⟨t, ht, h⟩ := bind_ok_iff.mp h
  obtain ⟨⟨answer, t'⟩, hsection, h⟩ := bind_ok_iff.mp h
  obtain ⟨values, hupdate, h⟩ := bind_ok_iff.mp h
  obtain ⟨-, rfl⟩ := update_eq_ok.mp hupdate
  cases h
  exact ⟨t, t', index_eq_ok.mp ht, hsection, rfl⟩

theorem Alike.perform_section {map₁ : Map} (halike : map.Alike map₁) {key : List UInt8} {op : KeyOp} {a : op.Answer}
    (h : (map.sections imp p).perform sky map₁.tables (.key key op) = .ok (a, tables')) :
    ∃ shard t', map₁.shards[map.home key]? = some shard ∧ tables' = map₁.tables.set (map.home key) t' ∧
      map₁.perform imp p sky (.key key op) =
        .ok (a, { map₁ with shards := map₁.shards.set (map.home key) (shard.publish t') }) := by
  obtain ⟨t, t', ht, hserve, rfl⟩ := perform_under rfl h
  rw [tables, List.getElem?_map, Option.map_eq_some_iff] at ht
  obtain ⟨shard, hshard, rfl⟩ := ht
  refine ⟨shard, t', hshard, rfl, ?_⟩
  have hat : map₁.shardOf (map₁.hash key) = map.home key := congrFun halike.home key
  have hhash : map₁.hash key = map.hash key := by rw [Map.hash, Map.hash, halike.seed]
  have hlt := (List.getElem?_eq_some_iff.mp hshard).1
  rw [perform_key, withKey, hat, hhash, halike.budget, index_of_getElem? hshard, ok_bind, hserve]
  simp only [ok_bind, update_ok hlt, pure_ok]

theorem tables_holding (map : Map) (tables : List Table) : (map.holding tables).tables = tables := by
  rw [Map.tables, holding, List.map_map]
  exact List.map_id tables

theorem perform_section (hlength : tables.length = map.shards.length) {key : List UInt8} {op : KeyOp} {a : op.Answer}
    (h : (map.sections imp p).perform sky tables (.key key op) = .ok (a, tables')) :
    (map.holding tables).perform imp p sky (.key key op) = .ok (a, map.holding tables') := by
  rw [← map.tables_holding tables] at h
  obtain ⟨shard, t', hshard, rfl, hperform⟩ := (map.holding_alike hlength).perform_section h
  rw [hperform, tables_holding]
  rw [tables_holding] at h
  obtain ⟨t, -, ht, -, -⟩ := perform_under rfl h
  obtain ⟨shard', hshard', -, hset⟩ := map.holding_set t' ht
  rw [hshard, Option.some.injEq] at hshard'
  rw [hset, ← hshard']

theorem Holds.publish {shard : Shard} {t' : Table} {part : Cache} (hseed : t'.seed = map.seed)
    (his : Table.IsCache imp t' part) : map.Holds imp (shard.publish t') part := ⟨hseed, rfl, rfl, his⟩

theorem Holds.drain_ok {shard : Shard} {part : Cache} (h : map.Holds imp shard part) :
    ∃ t', shard.table.drain imp = .ok t' ∧ map.Holds imp (shard.publish t') (fun _ => none) := by
  obtain ⟨t₁, hclear, hseed, h₁⟩ := h.table.clear_ok
  obtain ⟨b, t₂, hshrink, hseed', h₂⟩ := h₁.shrink_ok
  refine ⟨t₂, ?_, .publish ((hseed'.trans hseed).trans h.seed) h₂⟩
  rw [Table.drain, hclear, ok_bind, hshrink]
  rfl

theorem Holds.reap_ok {shard : Shard} {part : Cache} (h : map.Holds imp shard part) (slot budget : Nat) (now : UInt32) :
    ∃ gone t', shard.table.reap imp slot budget now = .ok (gone.length, t') ∧ part.Lapsed now gone ∧
      map.Holds imp (shard.publish t') (part.less gone) := by
  have hslot : map.Holds imp { shard with sweepAt := slot } part := ⟨h.seed, h.len, h.charged, h.table⟩
  obtain ⟨gone, shard', hsweep, hlapsed, h'⟩ := hslot.sweep_ok now budget
  refine ⟨gone, shard'.table, ?_, hlapsed, .publish h'.seed h'.table⟩
  rw [Shard.sweep] at hsweep
  obtain ⟨⟨⟨next, removed⟩, t₁⟩, hswept, hsweep⟩ := bind_ok_iff.mp hsweep
  simp only [Table.reap, hswept, ok_bind]
  by_cases hpos : removed > 0
  · simp only [if_pos hpos] at hsweep ⊢
    obtain ⟨⟨b, t₂⟩, hshrink, hsweep⟩ := bind_ok_iff.mp hsweep
    cases hsweep
    rw [hshrink]
    rfl
  · simp only [if_neg hpos] at hsweep ⊢
    cases hsweep
    rfl

theorem part_reaped {home : List UInt8 → Nat} {i : Nat} {now : UInt32} {gone : List (List UInt8)}
    (h : (m.part home i).Lapsed now gone) : (m.less gone).part home i = (m.part home i).less gone ∧
      ∀ j ≠ i, (m.less gone).part home j = m.part home j := (part_less h).2

/-- A section that is not refused is answered as the cache answers it. -/
theorem IsCache.section_ok {op : Sect map.shards.length} {a : op.Answer} (hlength : tables.length = map.shards.length)
    (h : (map.holding tables).IsCache imp m) (hperform : (map.sections imp p).perform sky tables op = .ok (a, tables'))
    (hgranted : ¬ op.Refused a) :
    tables'.length = map.shards.length ∧ ∃ m', m.Answers map.home map.shardBudget sky.now op a m' ∧
      (map.holding tables').IsCache imp m' := by
  have hhome := (map.holding_alike hlength).home
  cases op with
  | key key op =>
    obtain ⟨t, t', -, -, rfl⟩ := perform_under rfl hperform
    have hserved := h.perform_key_ok p sky key op
    rw [perform_section hlength hperform] at hserved
    refine ⟨by rw [List.length_set, hlength], ?_⟩
    cases hserved with
    | answered hwant _ hbelow hnone his => exact ⟨_, .key hwant hbelow hnone, his⟩
    | refused hrefused _ => exact absurd hrefused hgranted
  | clear at_ =>
    obtain ⟨t, t', ht, hdrain, rfl⟩ := perform_under rfl hperform
    obtain ⟨t'', hdrain', hpure⟩ := bind_ok_iff.mp hdrain
    cases hpure
    obtain ⟨shard, hshard, rfl, hset⟩ := map.holding_set t' ht
    obtain ⟨t₁, hdrained, hholds⟩ := (h.shards _ shard hshard).drain_ok
    rw [hdrain'] at hdrained
    cases hdrained
    refine ⟨by rw [List.length_set, hlength], _, .clear, ?_⟩
    rw [hset]
    apply h.set_shard
    · rw [hhome]
      -- the shard that is cleared has no key of the cache left
      have hnone : Cache.part (fun key => if map.home key = at_ then none else m key) map.home at_ = fun _ => none := by
        funext key
        rw [Cache.part]
        split
        · rfl
        · rfl
      rw [hnone]
      exact hholds
    · intro j hj
      rw [hhome]
      funext key
      rw [Cache.part, Cache.part]
      split
      · next heq => rw [if_neg (by omega)]
      · rfl
  | sweep at_ slot budget =>
    obtain ⟨t, t', ht, hreap, rfl⟩ := perform_under rfl hperform
    obtain ⟨shard, hshard, rfl, hset⟩ := map.holding_set t' ht
    obtain ⟨gone, t₁, hreaped, hlapsed, hholds⟩ := (h.shards _ shard hshard).reap_ok slot budget sky.now
    rw [hreap] at hreaped
    cases hreaped
    rw [hhome] at hlapsed hholds
    obtain ⟨hown, hothers⟩ := part_reaped hlapsed
    refine ⟨by rw [List.length_set, hlength], _, .sweep hlapsed, ?_⟩
    rw [hset]
    apply h.set_shard
    · rw [hhome, hown]
      exact hholds
    · rw [hhome]
      exact hothers
  | len at_ =>
    simp only [Service.perform, sections] at hperform
    obtain ⟨t, ht, hpure⟩ := bind_ok_iff.mp hperform
    cases hpure
    obtain ⟨shard, hshard, rfl, -⟩ := map.holding_set t (index_eq_ok.mp ht)
    have hcounts := (h.shards _ shard hshard).table.counts
    rw [hhome] at hcounts
    exact ⟨hlength, m, .len hcounts, h⟩
  | now =>
    cases hperform
    exact ⟨hlength, m, .now, h⟩

/-- A section returns, unless it stores what is longer than an entry can say. -/
theorem IsCache.section_total (h : (map.holding tables).IsCache imp m) (p : Platform) (sky : Sky)
    (hlength : tables.length = map.shards.length) (op : Sect map.shards.length) :
    (∃ a tables', (map.sections imp p).perform sky tables op = .ok (a, tables')) ∨
      ∃ key op' held, op = .key key op' ∧ op'.onKept key sky.now held = none := by
  have hthere : ∀ i < map.shards.length, ∃ t, tables[i]? = some t ∧
      (map.holding tables).shards[i]? = some ⟨t, t.len, t.chargedBytes, 0⟩ := by
    intro i hi
    rw [← hlength] at hi
    refine ⟨tables.get ⟨i, hi⟩, List.getElem?_eq_getElem hi, ?_⟩
    rw [holding, List.getElem?_map, List.getElem?_eq_getElem hi]
    rfl
  -- What returns on a table that is there does so on the tables.
  have hunder : ∀ {op : Sect map.shards.length} {at_ : Nat} {section_ t a t'},
      (map.sections imp p).act sky op = .under at_ section_ → tables[at_]? = some t → section_ t = .ok (a, t') →
      ∃ a tables', (map.sections imp p).perform sky tables op = .ok (a, tables') := by
    intro op at_ section_ t a t' hact ht hran
    refine ⟨a, tables.set at_ t', ?_⟩
    simp only [Service.perform, hact, index_of_getElem? ht, ok_bind, hran,
      update_ok (List.getElem?_eq_some_iff.mp ht).1]
    rfl
  cases op with
  | key key op =>
    have halike := map.holding_alike hlength
    have hreturns : ∀ {a map'}, (map.holding tables).withKey ((map.holding tables).hash key)
        (fun t => op.serve imp p sky (map.holding tables).shardBudget t key ((map.holding tables).hash key)) =
          .ok (a, map') → ∃ a tables', (map.sections imp p).perform sky tables (.key key op) = .ok (a, tables') := by
      intro a map' hran
      obtain ⟨shard, t', hshard, hserve, -⟩ := withKey_eq_ok hran
      rw [holding, List.getElem?_map, Option.map_eq_some_iff] at hshard
      obtain ⟨t, ht, rfl⟩ := hshard
      have hat : (map.holding tables).shardOf ((map.holding tables).hash key) = map.home key := congrFun halike.home key
      exact hunder rfl (hat ▸ ht) hserve
    have hserved := h.perform_key_ok p sky key op
    rw [perform_key] at hserved
    generalize hgot : (map.holding tables).withKey _ _ = got at hserved
    cases hserved with
    | answered _ _ _ _ _ => exact .inl (hreturns hgot)
    | refused _ _ => exact .inl (hreturns hgot)
    | panics hwant => exact .inr ⟨key, op, _, rfl, hwant⟩
  | clear at_ =>
    obtain ⟨t, ht, hshard⟩ := hthere at_ at_.isLt
    obtain ⟨t', hdrain, -⟩ := (h.shards _ _ hshard).drain_ok
    have hran : (do let t ← t.drain imp; pure ((), t)) = Except.ok ((), t') := by
      rw [hdrain, ok_bind]
      rfl
    exact .inl (hunder rfl ht hran)
  | sweep at_ slot budget =>
    obtain ⟨t, ht, hshard⟩ := hthere at_ at_.isLt
    obtain ⟨gone, t', hreap, -⟩ := (h.shards _ _ hshard).reap_ok slot budget sky.now
    exact .inl (hunder rfl ht hreap)
  | len at_ =>
    obtain ⟨t, ht, -⟩ := hthere at_ at_.isLt
    left
    refine ⟨t.len, tables, ?_⟩
    simp only [Service.perform, sections, index_of_getElem? ht, ok_bind]
    rfl
  | now => exact .inl ⟨sky.now, tables, rfl⟩

theorem Shaped.ranges (h : map.Shaped) (imp : Imp) (p : Platform) :
    Machine.Ranges (map.sections imp p) map.shards.length := by
  intro sky op at_ hat
  cases op with
  | key key op =>
    cases hat
    exact h.home_lt key
  | clear at' =>
    cases hat
    exact at'.isLt
  | sweep at' slot budget =>
    cases hat
    exact at'.isLt
  | len at' =>
    cases hat
    exact at'.isLt
  | now => cases hat

theorem length_tables (map : Map) : map.tables.length = map.shards.length := List.length_map ..

theorem IsCache.holding (h : map.IsCache imp m) : (map.holding map.tables).IsCache imp m := by
  have halike := map.holding_alike map.length_tables
  refine ⟨halike.shaped h.shaped, ?_⟩
  intro i shard hshard
  rw [Map.holding, tables, List.getElem?_map, List.getElem?_map, Option.map_map, Option.map_eq_some_iff] at hshard
  obtain ⟨shard₀, hshard₀, rfl⟩ := hshard
  have hholds := h.shards i shard₀ hshard₀
  rw [halike.home]
  have hsame : map.Holds imp ⟨shard₀.table, shard₀.table.len, shard₀.table.chargedBytes, 0⟩ (m.part map.home i) :=
    ⟨hholds.seed, rfl, rfl, hholds.table⟩
  exact hsame.alike halike

/-- The tables are that cache's. -/
def Carries (imp : Imp) (map : Map) (tables : List Table) (c : Cache) : Prop :=
  tables.length = map.shards.length ∧ (map.holding tables).IsCache imp c

end Map

/-! ## Two of them -/

theorem granted_of {n : Nat} {α : Type} {made : List (Made (@Sect.Answer n) Sky)}
    {tr : List (Machine (@Sect.Answer n) Table Nat Sky α × Move (@Sect.Answer n) Sky ×
      Machine (@Sect.Answer n) Table Nat Sky α)}
    (hmade : tr.filterMap (fun x => x.2.1.made) = made) (h : ∀ x ∈ made, ¬ x.op.Refused x.answer) :
    ∀ x ∈ tr, ∀ made, x.2.1.made = some made → ¬ made.op.Refused made.answer := by
  intro x hx made' hmade'
  apply h
  rw [← hmade]
  exact List.mem_filterMap.mpr ⟨x, hx, hmade'⟩

/-- What a section leaves of these tables, at the ninth second. -/
def remains (map : Map) (tables : List Table) (op : Sect map.shards.length) : List Table :=
  match (map.sections .word .boxed).perform ⟨9, true⟩ tables op with
  | .ok (_, tables') => tables'
  | .error _ => tables

theorem remains_of {map : Map} {tables : List Table} {op : Sect map.shards.length} {a : op.Answer}
    (h : ((map.sections .word .boxed).perform ⟨9, true⟩ tables op).map Prod.fst = .ok a) :
    (map.sections .word .boxed).perform ⟨9, true⟩ tables op = .ok (a, remains map tables op) := by
  rw [remains]
  cases hperform : (map.sections .word .boxed).perform ⟨9, true⟩ tables op with
  | error e =>
    rw [hperform] at h
    cases h
  | ok result =>
    rw [hperform] at h
    cases h
    rfl

theorem made_by {map : Map} {α : Type} {progs progs' : List (Sects map.shards.length α)} {tables tables' : List Table}
    {who : Nat} {op : Sect map.shards.length} {next : op.Answer → Sects map.shards.length α} {answer : op.Answer}
    (hcall : progs[who]? = some (.call op next))
    (h : (map.sections .word .boxed).perform ⟨9, true⟩ tables op = .ok (answer, tables'))
    (hprogs : progs' = progs.set who (next answer)) :
    Pool.Step (map.sections .word .boxed).perform ⟨tables, progs⟩ ⟨who, ⟨9, true⟩, op, answer⟩ ⟨tables', progs'⟩ :=
  .make hcall h hprogs

/-- One thread asks whether a key is there, and the other how many keys the shard has. -/
def asking : List (Sects fresh.shards.length Nat) :=
  [do let found ← Prog.ask (Sect.key [7] .contains); pure found.toNat, Prog.ask (Sect.len ⟨0, by decide⟩)]

theorem asking_runs : ∃ tr m, Run (Machine.Step (fresh.sections .word .boxed)) (.start (fresh.sections .word .boxed)
      fresh.tables asking) tr m ∧ m.threads = [.running (.ret 0), .running (.ret 0)] ∧ tr ≠ [] ∧
    ∀ x ∈ tr, ∀ made, x.2.1.made = some made → ¬ made.op.Refused made.answer := by
  have hlen : (fresh.sections .word .boxed).perform ⟨9, true⟩ fresh.tables (.len ⟨0, by decide⟩) =
      .ok ((0 : Nat), fresh.tables) := rfl
  have hfound : ((fresh.sections .word .boxed).perform ⟨9, true⟩ fresh.tables (.key [7] .contains)).map Prod.fst =
      .ok false := by decide +kernel
  have hfirst : Pool.Step (fresh.sections .word .boxed).perform ⟨fresh.tables, asking⟩
      ⟨1, ⟨9, true⟩, .len ⟨0, by decide⟩, (0 : Nat)⟩ ⟨fresh.tables, asking.set 1 (.ret 0)⟩ := .call rfl hlen
  have hcall : (asking.set 1 (.ret 0))[0]? =
      some (.call (Sect.key [7] .contains) fun found => .ret found.toNat) := rfl
  have hsecond : Pool.Step (fresh.sections .word .boxed).perform ⟨fresh.tables, asking.set 1 (.ret 0)⟩
      ⟨0, ⟨9, true⟩, .key [7] .contains, false⟩
      ⟨remains fresh fresh.tables (.key [7] .contains), (asking.set 1 (.ret 0)).set 0 (.ret 0)⟩ :=
    .make hcall (remains_of hfound) rfl
  obtain ⟨tr, hmachine, hmade⟩ := Machine.covers ((Run.single hfirst).snoc hsecond)
  refine ⟨tr, _, hmachine, rfl, ?_, granted_of hmade ?_⟩
  · intro hnil
    rw [hnil] at hmade
    cases hmade
  · intro made hmem hrefused
    obtain rfl | hmem := List.mem_cons.mp hmem
    · exact hrefused
    · rw [List.mem_singleton.mp hmem] at hrefused
      exact hrefused

/-- What a thread asks of a map that was just made, for one command. -/
def working (args : List (List UInt8)) : Sects fresh.shards.length Commands.Ran :=
  Commands.sects fresh.shards.length (Commands.run Commands.started args .resp2)

/-! ## Any number of threads -/

section crowd
variable {imp : Imp} {p : Platform} {shards maxmemory : Nat} {seed : UInt64} {map : Map}
  {tr₀ : List (Map × Map.Act × Map)} {α : Type} {progs : List (Sects map.shards.length α)} {m : map.Crowd α}
  {tr : List (map.Crowd α × Move (@Sect.Answer map.shards.length) Sky × map.Crowd α)}

/-- A cache that is asked for one section after another. -/
abbrev Cache.Goes (map : Map) : Pool (@Sect.Answer map.shards.length) Cache α →
    Made (@Sect.Answer map.shards.length) Sky → Pool (@Sect.Answer map.shards.length) Cache α → Prop :=
  Pool.Goes fun sky m op a m' => m.Answers map.home map.shardBudget sky.now op a m'

/-- However the threads run, no two are ever under the lock of one shard; a lock reads as held
while somebody is under it, and no longer; and what a shard shows is what its lock keeps, but
for what its holder is about to leave in it. -/
theorem sections_alone (h : Run (Machine.Step (map.sections imp p))
    (.start (map.sections imp p) map.tables progs) tr m) :
    (∀ who who' at_, m.Holds (map.sections imp p) who at_ → m.Holds (map.sections imp p) who' at_ → who = who') ∧
      ∀ (at_ : Nat) (cell : Guarded Table Nat), m.cells[at_]? = some cell →
        (cell.lock.held = true ↔ ∃ who, m.Holds (map.sections imp p) who at_) ∧
        (cell.lock.held = false → cell.shown = cell.lock.value.len) := by
  obtain ⟨-, pool, owner, -, hlinear, -⟩ := (Linear.start (map.sections imp p) map.tables progs).run h
  refine ⟨hlinear.alone.1, ?_⟩
  intro at_ cell hcell
  refine ⟨hlinear.alone.2 at_ cell hcell, ?_⟩
  intro hfree
  obtain ⟨value, hvalue⟩ := hlinear.value hcell
  have hkeeps := hlinear.cells at_ cell value hcell hvalue
  rw [hkeeps.free hfree]
  exact hkeeps.shown

theorem sections_alone_asking : ∃ tr m, Run (Machine.Step (fresh.sections .word .boxed))
      (.start (fresh.sections .word .boxed) fresh.tables asking) tr m ∧ tr ≠ [] ∧
    (∀ who who' at_, m.Holds (fresh.sections .word .boxed) who at_ → m.Holds (fresh.sections .word .boxed) who' at_ →
      who = who') ∧
      ∀ (at_ : Nat) (cell : Guarded Table Nat), m.cells[at_]? = some cell →
        (cell.lock.held = true ↔ ∃ who, m.Holds (fresh.sections .word .boxed) who at_) ∧
        (cell.lock.held = false → cell.shown = cell.lock.value.len) := by
  obtain ⟨tr, m, hrun, -, hne, -⟩ := asking_runs
  exact ⟨tr, m, hrun, hne, sections_alone hrun⟩

theorem crowd_linear {c : Cache} (hreached : Run (Map.Returns imp p) (Map.withSeed shards maxmemory seed) tr₀ map)
    (hkeeps : ∀ x ∈ tr₀, Map.Unstranded p x.1 x.2.1) (hc : map.Stores imp c)
    (h : Run (Machine.Step (map.sections imp p)) (.start (map.sections imp p) map.tables progs) tr m)
    (hgranted : ∀ x ∈ tr, ∀ made, x.2.1.made = some made → ¬ made.op.Refused made.answer) :
    ∃ pool owner ctr cpool, Linear (map.sections imp p) m pool owner ∧ Run (Cache.Goes map) ⟨c, progs⟩ ctr cpool ∧
      ctr.map (fun x => x.2.1) = tr.filterMap (fun x => x.2.1.made) ∧ Pool.Alike (map.Carries imp) pool cpool := by
  obtain ⟨-, c', his⟩ := Map.reached_is hreached hkeeps
  rw [Commands.stores_unique his.stores hc] at his
  obtain ⟨tr', pool, owner, hrun, hlinear, hlabels⟩ := (Linear.start (map.sections imp p) map.tables progs).run h
  have hgoes := hrun.mono fun s made s' hstep => Pool.Step.goes hstep
  have hnone : ∀ x ∈ tr', ¬ x.2.1.op.Refused x.2.1.answer := by
    intro x hx
    have hmem : x.2.1 ∈ tr'.map fun x => x.2.1 := List.mem_map_of_mem hx
    rw [hlabels, List.mem_filterMap] at hmem
    obtain ⟨y, hy, hmade⟩ := hmem
    exact hgranted y hy x.2.1 hmade
  obtain ⟨ctr, cpool, hcrun, halike, hclabels⟩ : ∃ ctr cpool, Run (Cache.Goes map) ⟨c, progs⟩ ctr cpool ∧
      Pool.Alike (map.Carries imp) pool cpool ∧ ctr.map (fun x => x.2.1) = tr'.map fun x => x.2.1 := by
    apply Pool.simulates (C := fun _ made => ¬ made.op.Refused made.answer) _
      ⟨map.length_tables, his.holding⟩ hgoes hnone
    intro tables c tables' made hcarries hmade hperform
    obtain ⟨hlength', c', hanswers, his'⟩ := hcarries.2.section_ok hcarries.1 hperform hmade
    exact ⟨c', hanswers, hlength', his'⟩
  exact ⟨pool, owner, ctr, cpool, hlinear, hcrun, hclabels.trans hlabels, halike⟩

/-- Whatever the threads are answered, as long as nothing is refused the memory for it, one cache
answers that is asked for the same sections one after another: what the map stored at first, and
what it stores wherever nobody is under a lock. -/
theorem sections_serve {c : Cache} (hreached : Run (Map.Returns imp p) (Map.withSeed shards maxmemory seed) tr₀ map)
    (hkeeps : ∀ x ∈ tr₀, Map.Unstranded p x.1 x.2.1) (hc : map.Stores imp c)
    (h : Run (Machine.Step (map.sections imp p)) (.start (map.sections imp p) map.tables progs) tr m)
    (hgranted : ∀ x ∈ tr, ∀ made, x.2.1.made = some made → ¬ made.op.Refused made.answer) :
    ∃ ctr pool, Run (Cache.Goes map) ⟨c, progs⟩ ctr pool ∧
      ctr.map (fun x => x.2.1) = tr.filterMap (fun x => x.2.1.made) ∧
      pool.progs = m.threads.map Caller.program ∧
      ((∀ who at_, ¬ m.Holds (map.sections imp p) who at_) →
        (map.holding (m.cells.map fun cell => cell.lock.value)).Stores imp pool.state) := by
  obtain ⟨pool, owner, ctr, cpool, hlinear, hrun, hlabels, halike⟩ := crowd_linear hreached hkeeps hc h hgranted
  refine ⟨ctr, cpool, hrun, hlabels, halike.progs.trans hlinear.progs, ?_⟩
  intro hidle
  rw [(hlinear.settled hidle).1]
  exact halike.state.2.stores

theorem start_stores {tables : List Table} {c : Cache}
    (h : (∀ who at_, ¬ (Machine.start (map.sections imp p) tables progs).Holds (map.sections imp p) who at_) →
      (map.holding ((Machine.start (map.sections imp p) tables progs).cells.map fun cell => cell.lock.value)).Stores
        imp c) :
    (map.holding tables).Stores imp c := by
  have hstart := Linear.start (map.sections imp p) tables progs
  have hnobody : ∀ who at_, ¬ (Machine.start (map.sections imp p) tables progs).Holds (map.sections imp p) who at_ := by
    intro who at_
    rw [hstart.holds]
    exact nofun
  have hstores := h hnobody
  rw [(hstart.settled hnobody).1] at hstores
  exact hstores

theorem crowd_drives {c : Cache} {pool : Pool (@Sect.Answer map.shards.length) Cache α}
    {ctr : List (Pool (@Sect.Answer map.shards.length) Cache α × Made (@Sect.Answer map.shards.length) Sky ×
      Pool (@Sect.Answer map.shards.length) Cache α)}
    (hrun : Run (Cache.Goes map) ⟨c, progs⟩ ctr pool) (hprogs : pool.progs = m.threads.map Caller.program)
    {who : Nat} {x : Sects map.shards.length α} {a : α} (hwho : progs[who]? = some x)
    (hdone : m.threads[who]? = some (.running (.ret a))) :
    Drives x ((Pool.stepsOf who ctr).map fun x => x.2.1) (.ret a) := by
  obtain ⟨y, hy, hdrives⟩ := Pool.Goes.drives hrun hwho
  rw [hprogs, List.getElem?_map, hdone, Option.map_some, Option.some.injEq] at hy
  rw [← hy] at hdrives
  exact hdrives

/-- A thread is about to store what is longer than an entry can say. -/
def Caller.TooLong {n : Nat} : Caller (@Sect.Answer n) Table Sky α → Prop
  | .inside sky (.key key op) _ _ => ∃ held, op.onKept key sky.now held = none
  | _ => False

/-- Some thread is. -/
def Machine.Overlong {n : Nat} (m : Machine (@Sect.Answer n) Table Nat Sky α) : Prop :=
  ∃ (who : Nat) (thread : Caller (@Sect.Answer n) Table Sky α), m.threads[who]? = some thread ∧ thread.TooLong

/-- As long as nothing was refused the memory for it, a section that panics is given what is too long. -/
theorem crowd_tooLong (hreached : Run (Map.Returns imp p) (Map.withSeed shards maxmemory seed) tr₀ map)
    (hkeeps : ∀ x ∈ tr₀, Map.Unstranded p x.1 x.2.1)
    (h : Run (Machine.Step (map.sections imp p)) (.start (map.sections imp p) map.tables progs) tr m)
    (hgranted : ∀ x ∈ tr, ∀ made, x.2.1.made = some made → ¬ made.op.Refused made.answer) {who : Nat}
    {thread : Caller (@Sect.Answer map.shards.length) Table Sky α} (hthread : m.threads[who]? = some thread)
    (hpanics : thread.Panics (map.sections imp p)) : thread.TooLong := by
  obtain ⟨-, c, his⟩ := Map.reached_is hreached hkeeps
  obtain ⟨pool, owner, -, cpool, hlinear, -, -, halike⟩ := crowd_linear hreached hkeeps his.stores h hgranted
  obtain ⟨hlength, his'⟩ := halike.state
  cases thread with
  | inside sky op next seen =>
    obtain ⟨at_, section_, e, hact, hran⟩ := hpanics
    obtain ⟨at', section', hact', hseen⟩ := hlinear.threads who _ hthread
    rw [hact] at hact'
    cases hact'
    obtain ⟨a, tables', hperform⟩ | ⟨key, op', held, rfl, hnone⟩ := his'.section_total p sky hlength op
    · obtain ⟨seen', left, hseen', hran', -⟩ := Map.perform_under hact hperform
      rw [hseen, Option.some.injEq] at hseen'
      rw [← hseen', hran] at hran'
      cases hran'
    · exact ⟨held, hnone⟩
  | running x => cases hpanics
  | trying sky op next => cases hpanics
  | waiting sky op next spun => cases hpanics
  | done sky op next answer left => cases hpanics
  | leaving sky op next answer left => cases hpanics

/-- Wherever the threads are, waiting for locks or under them, there is a way on in which every one
of them comes to the end of its program; unless a section panics, and then something was refused,
or is longer than an entry can say. -/
theorem sections_finish (hreached : Run (Map.Returns imp p) (Map.withSeed shards maxmemory seed) tr₀ map)
    (hkeeps : ∀ x ∈ tr₀, Map.Unstranded p x.1 x.2.1)
    (h : Run (Machine.Step (map.sections imp p)) (.start (map.sections imp p) map.tables progs) tr m) :
    ∃ tr' m', Run (Machine.Step (map.sections imp p)) m tr' m' ∧
      (m'.Finished ∨ (m'.Panics (map.sections imp p) ∧
        (m'.Overlong ∨ ∃ x ∈ tr ++ tr', ∃ made, x.2.1.made = some made ∧ made.op.Refused made.answer))) := by
  obtain ⟨-, c, his⟩ := Map.reached_is hreached hkeeps
  obtain ⟨-, pool, owner, -, hlinear, -⟩ := (Linear.start (map.sections imp p) map.tables progs).run h
  have hrange : Machine.Ranges (map.sections imp p) m.cells.length := by
    rw [Machine.run_cells h, Machine.start, List.length_map, map.length_tables]
    exact his.shaped.ranges imp p
  obtain ⟨tr', m', hrun, hend⟩ := hlinear.finishes hrange
  refine ⟨tr', m', hrun, ?_⟩
  obtain hpanics | hfinished := hend
  · refine .inr ⟨hpanics, ?_⟩
    by_cases hgranted : ∀ x ∈ tr ++ tr', ∀ made, x.2.1.made = some made → ¬ made.op.Refused made.answer
    · obtain ⟨who, thread, hthread, hpanics⟩ := hpanics
      exact .inl ⟨who, thread, hthread, crowd_tooLong hreached hkeeps (h.trans hrun) hgranted hthread hpanics⟩
    · right
      push Not at hgranted
      exact hgranted
  · exact .inl hfinished

theorem sections_finish_asking : ∃ tr' m', Run (Machine.Step (fresh.sections .word .boxed))
      (.start (fresh.sections .word .boxed) fresh.tables asking) tr' m' ∧
    (m'.Finished ∨ (m'.Panics (fresh.sections .word .boxed) ∧
      (m'.Overlong ∨ ∃ x ∈ [] ++ tr', ∃ made, x.2.1.made = some made ∧ made.op.Refused made.answer))) :=
  sections_finish .nil (List.forall_mem_nil _) .nil

end crowd

end Rugo
