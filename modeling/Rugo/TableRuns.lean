import Mathlib.Logic.Function.Basic
import Rugo.Lib.Runs
import Rugo.ArenaRuns
import Rugo.TableWalks

/- Runs of one table, and the map it is. A cache is a map from keys to what is
   kept under them; every operation of a table does to the cache what its name
   says, and answers from it.

     1. `refines_map`: the answers of a table, in any run, are those of a cache. -/
namespace Rugo
open Exec Runs Probing

/-! ## The cache -/

/-- What is kept under a key. -/
structure Kept where
  value : List UInt8
  expiry : Option UInt32
  userFlags : Option UInt32
  deriving DecidableEq, Repr

def Entry.View.kept (v : Entry.View) : Kept := ⟨v.value, v.expiry, v.userFlags⟩

def Kept.view (kept : Kept) (key : List UInt8) : Entry.View := ⟨key, kept.value, kept.expiry, kept.userFlags⟩

abbrev Cache := List UInt8 → Option Kept

namespace Cache

def read (m : Cache) (key : List UInt8) (now : UInt32) : Option Kept :=
  (m key).filter fun kept => !Table.passed kept.expiry now

/-- The cache without what is under a key, if that has expired. -/
def settle (m : Cache) (key : List UInt8) (now : UInt32) : Cache :=
  if (m.read key now).isSome then m else Function.update m key none

end Cache

namespace Table

/-- An operation of a table. `granted` is the system's answer, should an
allocation need a segment. -/
inductive Op where
  | set (key value : List UInt8) (expiry userFlags : Option UInt32) (granted : Bool)
  | get (key : List UInt8) (now : UInt32)
  | view (key : List UInt8) (now : UInt32)
  | contains (key : List UInt8) (now : UInt32)
  | remove (key : List UInt8)
  | expire (key : List UInt8) (expiry : Option UInt32) (now : UInt32) (granted : Bool)
  | shrink
  | clear
  | sweep (from_ budget : Nat) (now : UInt32)
  | evict (roll : UInt64) (spare : Option Nat)

inductive Answer where
  | wrote (w : Wrote)
  | value (v : Option (List UInt8))
  | view (v : Option Entry.View)
  | flag (b : Bool)
  | swept (at_ removed : Nat)
  | done
  deriving DecidableEq

/-- An operation, with the key hashed as its callers hash it. -/
def perform (imp : Imp) (p : Platform) (t : Table) : Op → Exec (Except Full Answer × Table)
  | .set key value expiry userFlags granted => do
    let (r, t) ← t.set imp p granted key value (Hash.hash key t.seed) expiry userFlags
    pure (r.map .wrote, t)
  | .get key now => do
    let (r, t) ← t.get imp key (Hash.hash key t.seed) now
    pure (.ok (.value r), t)
  | .view key now => do
    let (r, t) ← t.view imp key (Hash.hash key t.seed) now
    pure (.ok (.view r), t)
  | .contains key now => do
    let (r, t) ← t.contains imp key (Hash.hash key t.seed) now
    pure (.ok (.flag r), t)
  | .remove key => do
    let (r, t) ← t.remove imp key (Hash.hash key t.seed)
    pure (.ok (.flag r), t)
  | .expire key expiry now granted => do
    let (r, t) ← t.expire imp p granted key (Hash.hash key t.seed) expiry now
    pure (r.map .flag, t)
  | .shrink => do
    let (r, t) ← t.shrink imp
    pure (.ok (.flag r), t)
  | .clear => do
    let t ← t.clear
    pure (.ok .done, t)
  | .sweep from_ budget now => do
    let (r, t) ← t.sweep imp from_ budget now
    pure (.ok (.swept r.1 r.2), t)
  | .evict roll spare => do
    let (r, t) ← t.evictOne imp roll spare
    pure (.ok (.flag r), t)

/-- An operation that is not refused memory, and its answer. -/
def Fulfils (imp : Imp) (p : Platform) (t : Table) (x : Op × Answer) (t' : Table) : Prop :=
  t.perform imp p x.1 = .ok (.ok x.2, t')

/-- What an operation writes fits the lengths of an entry's header. -/
def Op.Short : Op → Prop
  | .set key value expiry userFlags _ => Entry.Short ⟨key, value, expiry, userFlags⟩
  | _ => True

end Table

inductive Cache.Does : Cache → Table.Op × Table.Answer → Cache → Prop
  | set {m : Cache} {key value expiry userFlags granted} : Does m
      (.set key value expiry userFlags granted, .wrote (if (m key).isSome then .replaced else .inserted))
      (Function.update m key (some ⟨value, expiry, userFlags⟩))
  | get {m : Cache} {key now} : Does m (.get key now, .value ((m.read key now).map Kept.value)) (m.settle key now)
  | view {m : Cache} {key now} :
      Does m (.view key now, .view ((m.read key now).map fun kept => kept.view key)) (m.settle key now)
  | contains {m : Cache} {key now} : Does m (.contains key now, .flag (m.read key now).isSome) (m.settle key now)
  | remove {m : Cache} {key} : Does m (.remove key, .flag (m key).isSome) (Function.update m key none)
  | expire {m : Cache} {key expiry now granted kept} : m.read key now = some kept →
      Does m (.expire key expiry now granted, .flag true) (Function.update m key (some { kept with expiry }))
  | missing {m : Cache} {key expiry now granted} : m.read key now = none →
      Does m (.expire key expiry now granted, .flag false) (m.settle key now)
  | shrink {m : Cache} {b} : Does m (.shrink, .flag b) m
  | clear {m : Cache} : Does m (.clear, .done) (fun _ => none)
  /-- Only what has expired is swept. -/
  | sweep {m : Cache} {from_ budget now at_} {gone : List (List UInt8)} : gone.Nodup →
      (∀ key ∈ gone, ∃ kept, m key = some kept ∧ Table.passed kept.expiry now = true) →
      Does m (.sweep from_ budget now, .swept at_ gone.length) (fun key => if key ∈ gone then none else m key)
  | evict {m : Cache} {roll spare key} : (m key).isSome →
      Does m (.evict roll spare, .flag true) (Function.update m key none)
  /-- Nothing is evicted where there is nothing but what is spared. -/
  | spared {m : Cache} {roll spare} :
      (∀ key key', (m key).isSome → (m key').isSome → key = key') → (spare = none → ∀ key, m key = none) →
      Does m (.evict roll spare, .flag false) m

/-! ## Entries and what is kept -/

/-- The cache that these entries are. -/
def Shows (items : List Item) (m : Cache) : Prop :=
  ∀ key kept, m key = some kept ↔ ∃ item ∈ items, item.view.key = key ∧ item.view.kept = kept

namespace Shows
variable {items rest : List Item} {item : Item} {m : Cache}

theorem nil : Shows [] (fun _ => none) := by
  intro key kept
  simp

theorem perm {items' : List Item} (h : Shows items m) (hp : items.Perm items') : Shows items' m := by
  intro key kept
  rw [h key kept]
  exact exists_congr fun item => and_congr_left fun _ => hp.mem_iff

theorem get (h : Shows items m) (hi : item ∈ items) : m item.view.key = some item.view.kept :=
  (h _ _).mpr ⟨item, hi, rfl, rfl⟩

theorem none {key : List UInt8} (h : Shows items m) (habsent : ∀ item ∈ items, item.view.key ≠ key) :
    m key = Option.none := by
  cases hm : m key with
  | none => rfl
  | some kept =>
    obtain ⟨item, hi, hkey, -⟩ := (h key kept).mp hm
    exact absurd hkey (habsent item hi)

theorem drop (h : Shows (item :: rest) m) (hkeys : ((item :: rest).map fun item => item.view.key).Nodup) :
    Shows rest (Function.update m item.view.key Option.none) := by
  rw [List.map_cons, List.nodup_cons] at hkeys
  intro key kept
  by_cases heq : key = item.view.key
  · rw [heq, Function.update_self]
    constructor
    · intro hnone
      cases hnone
    · intro ⟨other, ho, hkey, _⟩
      exact absurd (List.mem_map.mpr ⟨other, ho, hkey⟩) hkeys.1
  · rw [Function.update_of_ne heq, h key kept]
    constructor
    · intro ⟨other, ho, hkey, hkept⟩
      obtain rfl | ho := List.mem_cons.mp ho
      · exact absurd hkey.symm heq
      · exact ⟨other, ho, hkey, hkept⟩
    · intro ⟨other, ho, hrest⟩
      exact ⟨other, List.mem_cons_of_mem _ ho, hrest⟩

theorem put (item : Item) (h : Shows rest m) (habsent : ∀ other ∈ rest, other.view.key ≠ item.view.key) :
    Shows (item :: rest) (Function.update m item.view.key (some item.view.kept)) := by
  intro key kept
  by_cases heq : key = item.view.key
  · rw [heq, Function.update_self, Option.some.injEq]
    constructor
    · intro hkept
      exact ⟨item, List.mem_cons_self, rfl, hkept⟩
    · intro ⟨other, ho, hkey, hkept⟩
      obtain rfl | ho := List.mem_cons.mp ho
      · exact hkept
      · exact absurd hkey (habsent other ho)
  · rw [Function.update_of_ne heq, h key kept]
    constructor
    · intro ⟨other, ho, hrest⟩
      exact ⟨other, List.mem_cons_of_mem _ ho, hrest⟩
    · intro ⟨other, ho, hkey, hkept⟩
      obtain rfl | ho := List.mem_cons.mp ho
      · exact absurd hkey.symm heq
      · exact ⟨other, ho, hkey, hkept⟩

theorem replace (h : Shows (item :: rest) m) (hkeys : ((item :: rest).map fun item => item.view.key).Nodup)
    (item' : Item) (hkey : item.view.key = item'.view.key) :
    Shows (item' :: rest) (Function.update m item'.view.key (some item'.view.kept)) := by
  have hdrop := h.drop hkeys
  rw [hkey] at hdrop
  have hput := hdrop.put item' (by
    intro other ho heq
    rw [List.map_cons, List.nodup_cons] at hkeys
    exact hkeys.1 (List.mem_map.mpr ⟨other, ho, heq.trans hkey.symm⟩))
  rw [Function.update_idem] at hput
  exact hput

theorem drops {gone : List Item} (h : Shows (gone ++ rest) m)
    (hkeys : ((gone ++ rest).map fun item => item.view.key).Nodup) :
    Shows rest (fun key => if key ∈ gone.map (fun item => item.view.key) then Option.none else m key) := by
  rw [List.map_append, List.nodup_append] at hkeys
  intro key kept
  by_cases hmem : key ∈ gone.map fun item => item.view.key
  · simp only [if_pos hmem]
    constructor
    · intro hnone
      cases hnone
    · intro ⟨other, ho, hkey, _⟩
      exact absurd rfl (hkeys.2.2 key hmem key (List.mem_map.mpr ⟨other, ho, hkey⟩))
  · simp only [if_neg hmem]
    rw [h key kept]
    constructor
    · intro ⟨other, ho, hkey, hkept⟩
      obtain ho | ho := List.mem_append.mp ho
      · exact absurd (List.mem_map.mpr ⟨other, ho, hkey⟩) hmem
      · exact ⟨other, ho, hkey, hkept⟩
    · intro ⟨other, ho, hrest⟩
      exact ⟨other, List.mem_append_right _ ho, hrest⟩

end Shows

namespace Table
variable {imp : Imp} {p : Platform} {t : Table} {items : List Item} {lost : Nat} {m : Cache}

theorem Has.keys (h : Has imp t items lost) : (items.map fun item => item.view.key).Nodup := by
  obtain ⟨cells, F, hsound, hperm⟩ := h
  exact (hperm.map _).nodup_iff.mp hsound.indexed.keys

/-- The table is that cache. -/
def IsCache (imp : Imp) (t : Table) (m : Cache) : Prop := ∃ items lost, Has imp t items lost ∧ Shows items m

theorem Sought.shows {key : List UInt8} {now : UInt32} {r : Option Entry.View} {t' : Table}
    (hs : Sought imp t items lost key now r t') (h : Has imp t items lost) (hm : Shows items m) :
    r = (m.read key now).map (fun kept => kept.view key) ∧ t'.seed = t.seed ∧ IsCache imp t' (m.settle key now) := by
  cases hs with
  | absent habsent =>
    have hnone := hm.none habsent
    have hread : m.read key now = none := by
      rw [Cache.read, hnone]
      rfl
    have hsettle : m.settle key now = m := by
      rw [Cache.settle, hread]
      exact Function.update_eq_self_iff.mpr hnone.symm
    rw [hread, hsettle]
    exact ⟨rfl, rfl, items, lost, h, hm⟩
  | @expired item rest t' hrest hkey hpassed hseed hhas =>
    have hget := hm.get (hrest.mem_iff.mpr List.mem_cons_self)
    rw [hkey] at hget
    have hread : m.read key now = none := by
      have hkept : passed item.view.kept.expiry now = true := hpassed
      rw [Cache.read, hget, Option.filter_some_eq_none]
      simp [hkept]
    -- the look has erased it
    have hdrop := (hm.perm hrest).drop ((hrest.map _).nodup_iff.mp h.keys)
    rw [hkey] at hdrop
    rw [Cache.settle, hread]
    exact ⟨rfl, hseed, rest, _, hhas, hdrop⟩
  | @live item rest hrest hkey hlive =>
    have hget := hm.get (hrest.mem_iff.mpr List.mem_cons_self)
    rw [hkey] at hget
    have hread : m.read key now = some item.view.kept := by
      have hkept : passed item.view.kept.expiry now = false := hlive
      rw [Cache.read, hget, Option.filter_some_pos]
      simp [hkept]
    rw [Cache.settle, hread]
    refine ⟨?_, rfl, items, lost, h, hm⟩
    rw [← hkey]
    rfl

/-- What is asked of a table is answered, and what is answered without a refusal
is the cache's answer. -/
def Answers (imp : Imp) (p : Platform) (t : Table) (m : Cache) (op : Op) : Prop :=
  ∃ r t', t.perform imp p op = .ok (r, t') ∧ t'.seed = t.seed ∧
    ∀ a, r = .ok a → ∃ m', m.Does (op, a) m' ∧ IsCache imp t' m'

theorem Answers.of {op : Op} {a : Answer} {t' : Table} {m' : Cache}
    (hperform : t.perform imp p op = .ok (.ok a, t')) (hseed : t'.seed = t.seed)
    (hdoes : m.Does (op, a) m') (his : IsCache imp t' m') : Answers imp p t m op := by
  refine ⟨.ok a, t', hperform, hseed, ?_⟩
  intro a' ha
  cases ha
  exact ⟨m', hdoes, his⟩

theorem Answers.refused {op : Op} {full : Full} {t' : Table}
    (hperform : t.perform imp p op = .ok (.error full, t')) (hseed : t'.seed = t.seed) :
    Answers imp p t m op := by
  refine ⟨.error full, t', hperform, hseed, ?_⟩
  intro a ha
  cases ha

theorem Has.answers_reads (h : Has imp t items lost) (hm : Shows items m) (key : List UInt8) (now : UInt32) :
    Answers imp p t m (.get key now) ∧ Answers imp p t m (.view key now) ∧
      Answers imp p t m (.contains key now) := by
  obtain ⟨r, t', hsought, hget, hview, hcontains⟩ := h.reads_ok key now
  obtain ⟨rfl, hseed, his⟩ := hsought.shows h hm
  rw [Option.map_map] at hget
  rw [Option.isSome_map] at hcontains
  have hperform : t.perform imp p (.get key now) = .ok (.ok (.value ((m.read key now).map Kept.value)), t') := by
    rw [perform, hget]
    rfl
  exact ⟨.of hperform hseed .get his, .of (by rw [perform, hview]; rfl) hseed .view his,
    .of (by rw [perform, hcontains]; rfl) hseed .contains his⟩

theorem Has.answers_set (h : Has imp t items lost) (hm : Shows items m) {key value : List UInt8}
    {expiry userFlags : Option UInt32} (hshort : Entry.Short ⟨key, value, expiry, userFlags⟩) (granted : Bool) :
    Answers imp p t m (.set key value expiry userFlags granted) := by
  obtain ⟨r, t', hset, hput⟩ := h.set_ok p granted hshort
  have hperform : t.perform imp p (.set key value expiry userFlags granted) = .ok (r.map .wrote, t') := by
    rw [perform, hset]
    rfl
  have hdoes : m.Does (.set key value expiry userFlags granted,
      .wrote (if (m key).isSome then .replaced else .inserted))
      (Function.update m key (some ⟨value, expiry, userFlags⟩)) := .set
  cases hput with
  | inserted habsent hseed hhas =>
    rw [hm.none habsent] at hdoes
    exact .of hperform hseed hdoes ⟨_, _, hhas, hm.put _ habsent⟩
  | @replaced t' item rest ref lost' hrest hkey hseed hlost hhas =>
    have hget := hm.get (hrest.mem_iff.mpr List.mem_cons_self)
    rw [hkey] at hget
    rw [show m key = _ from hget] at hdoes
    have hkeys := (hrest.map fun item => item.view.key).nodup_iff.mp h.keys
    exact .of hperform hseed hdoes ⟨_, _, hhas, (hm.perm hrest).replace hkeys _ hkey⟩
  | refused hseed _ => exact .refused hperform hseed

theorem Has.answers_remove (h : Has imp t items lost) (hm : Shows items m) (key : List UInt8) :
    Answers imp p t m (.remove key) := by
  have hdoes : m.Does (.remove key, .flag (m key).isSome) (Function.update m key none) := .remove
  obtain ⟨hremove, habsent⟩ | ⟨t', item, rest, hremove, hrest, hkey, hseed, hhas⟩ := h.remove_ok key
  · have hnone := hm.none habsent
    have hsame : Function.update m key none = m := Function.update_eq_self_iff.mpr hnone.symm
    rw [hnone, hsame] at hdoes
    exact .of (by rw [perform, hremove]; rfl) rfl hdoes ⟨items, lost, h, hm⟩
  · have hget := hm.get (hrest.mem_iff.mpr List.mem_cons_self)
    have hdrop := (hm.perm hrest).drop ((hrest.map _).nodup_iff.mp h.keys)
    rw [hkey] at hget hdrop
    rw [hget] at hdoes
    exact .of (by rw [perform, hremove]; rfl) hseed hdoes ⟨rest, _, hhas, hdrop⟩

theorem Has.answers_expire (h : Has imp t items lost) (hm : Shows items m) (key : List UInt8)
    (expiry : Option UInt32) (now : UInt32) (granted : Bool) :
    Answers imp p t m (.expire key expiry now granted) := by
  obtain ⟨r, t', hexpire, hdated⟩ := h.expire_ok p granted key expiry now
  have hperform : t.perform imp p (.expire key expiry now granted) = .ok (r.map .flag, t') := by
    rw [perform, hexpire]
    rfl
  cases hdated with
  | missing hsought =>
    obtain ⟨hr, hseed, his⟩ := hsought.shows h hm
    exact .of hperform hseed (.missing (Option.map_eq_none_iff.mp hr.symm)) his
  | @changed t' item rest ref lost' hrest hkey hlive hseed hlost hhas =>
    have hsought : Sought imp t items lost key now (some item.view) t := .live hrest hkey hlive
    obtain ⟨hr, -, -⟩ := hsought.shows h hm
    obtain ⟨kept, hread, hview⟩ := Option.map_eq_some_iff.mp hr.symm
    have hkept : item.view.kept = kept := by rw [← hview]; rfl
    have hkeys := (hrest.map fun item => item.view.key).nodup_iff.mp h.keys
    have hshows := (hm.perm hrest).replace hkeys ⟨ref, { item.view with expiry }⟩ rfl
    refine .of hperform hseed (.expire hread) ⟨_, _, hhas, ?_⟩
    rw [← hkept, ← hkey]
    exact hshows
  | refused _ _ _ hseed _ => exact .refused hperform hseed

theorem Has.answers_sweep (h : Has imp t items lost) (hm : Shows items m) (from_ budget : Nat) (now : UInt32) :
    Answers imp p t m (.sweep from_ budget now) := by
  obtain ⟨at_, gone, rest, t', hsweep, hseed, hsplit, hgone, hhas⟩ := h.sweep_ok from_ budget now
  have hkeys := (hsplit.map fun item => item.view.key).nodup_iff.mp h.keys
  have hnodup : (gone.map fun item => item.view.key).Nodup := by
    rw [List.map_append] at hkeys
    exact (List.nodup_append.mp hkeys).1
  have hexpired : ∀ key ∈ gone.map fun item => item.view.key,
      ∃ kept, m key = some kept ∧ passed kept.expiry now = true := by
    intro key hkey
    obtain ⟨item, hi, rfl⟩ := List.mem_map.mp hkey
    exact ⟨_, hm.get (hsplit.mem_iff.mpr (List.mem_append_left _ hi)), hgone item hi⟩
  have hperform : t.perform imp p (.sweep from_ budget now) =
      .ok (.ok (.swept at_ (gone.map fun item => item.view.key).length), t') := by
    rw [perform, hsweep, List.length_map]
    rfl
  exact .of hperform hseed (.sweep hnodup hexpired) ⟨rest, _, hhas, (hm.perm hsplit).drops hkeys⟩

theorem Has.answers_evict (h : Has imp t items lost) (hm : Shows items m) (roll : UInt64)
    (spare : Option Nat) : Answers imp p t m (.evict roll spare) := by
  obtain ⟨cells, F, hsound, hperm⟩ := h
  have hm' := hm.perm hperm.symm
  obtain ⟨hevict, hspared⟩ | ⟨t', i, item, rest, hevict, hseed, -, -, hrest, hhas⟩ :=
    hsound.evictOne_ok roll spare
  · have hslot : ∀ key, (m key).isSome → ∃ (i : Nat) (item : Item), cells[i]? = some (.full item) ∧
        item.view.key = key ∧ some i = spare := by
      intro key hkey
      obtain ⟨kept, hkept⟩ := Option.isSome_iff_exists.mp hkey
      obtain ⟨item, hi, hkey', -⟩ := (hm' key kept).mp hkept
      obtain ⟨i, hi⟩ := mem_entries.mp hi
      exact ⟨i, item, hi, hkey', hspared i item hi⟩
    refine .of (by rw [perform, hevict]; rfl) rfl (.spared ?_ ?_) ⟨_, lost, hsound.has, hm'⟩
    · intro key key' hkey hkey'
      obtain ⟨i, item, hi, hk, his⟩ := hslot key hkey
      obtain ⟨j, item', hj, hk', hjs⟩ := hslot key' hkey'
      rw [← hjs, Option.some.injEq] at his
      rw [his, hj] at hi
      cases hi
      rw [← hk, ← hk']
    · intro hnone key
      cases hkey : m key with
      | none => rfl
      | some kept =>
        obtain ⟨i, item, -, -, his⟩ := hslot key (by rw [hkey]; rfl)
        rw [hnone] at his
        cases his
  · have hget := hm'.get (hrest.mem_iff.mpr List.mem_cons_self)
    have hdrop := (hm'.perm hrest).drop ((hrest.map _).nodup_iff.mp hsound.has.keys)
    exact .of (by rw [perform, hevict]; rfl) hseed (.evict (by rw [hget]; rfl)) ⟨rest, _, hhas, hdrop⟩

/-- Every operation is answered as the cache answers it. -/
theorem IsCache.answers (h : IsCache imp t m) (p : Platform) (op : Op) (hshort : op.Short) : Answers imp p t m op := by
  obtain ⟨items, lost, hhas, hm⟩ := h
  cases op with
  | set key value expiry userFlags granted => exact hhas.answers_set hm hshort granted
  | get key now => exact (hhas.answers_reads hm key now).1
  | view key now => exact (hhas.answers_reads hm key now).2.1
  | contains key now => exact (hhas.answers_reads hm key now).2.2
  | remove key => exact hhas.answers_remove hm key
  | expire key expiry now granted => exact hhas.answers_expire hm key expiry now granted
  | shrink =>
    obtain ⟨cells, F, hsound, hperm⟩ := hhas
    obtain ⟨b, t', cells', hshrink, hsound', hperm', hseed, -⟩ := hsound.shrink_ok
    exact .of (by rw [perform, hshrink]; rfl) hseed .shrink
      ⟨items, lost, ⟨cells', F, hsound', hperm'.trans hperm⟩, hm⟩
  | clear =>
    obtain ⟨t', hclear, hseed, hhas'⟩ := hhas.clear_ok
    exact .of (by rw [perform, hclear]; rfl) hseed .clear ⟨[], _, hhas', .nil⟩
  | sweep from_ budget now => exact hhas.answers_sweep hm from_ budget now
  | evict roll spare => exact hhas.answers_evict hm roll spare

theorem sound_new (imp : Imp) (seed : UInt64) : Sound imp (Table.new seed) [] [] 0 where
  indexed := ⟨rfl, rfl, .inl rfl, List.nodup_nil, rfl, rfl, rfl, rfl⟩
  stored := ⟨Arena.holds_new, by simp [entries]⟩

theorem is_new (imp : Imp) (seed : UInt64) : IsCache imp (Table.new seed) (fun _ => none) :=
  ⟨_, 0, (sound_new imp seed).has, .nil⟩

/-- In any run of a table whose keys and values fit an entry's header, the answers
are those of a cache, and the next operation is answered. -/
theorem refines_map (imp : Imp) (p : Platform) (seed : UInt64)
    {tr : List (Table × (Op × Answer) × Table)} {t : Table}
    (h : Run (Fulfils imp p) (Table.new seed) tr t) (hshort : ∀ x ∈ tr, x.2.1.1.Short) :
    (∃ ctr m, Run Cache.Does (fun _ => none) ctr m ∧
      ctr.map (fun x => x.2.1) = tr.map (fun x => x.2.1)) ∧
    ∀ op : Op, op.Short → ∃ r t', t.perform imp p op = .ok (r, t') := by
  have hstep : ∀ (t : Table) (m : Cache) (x : Op × Answer) (t' : Table), IsCache imp t m → x.1.Short →
      Fulfils imp p t x t' → ∃ m', m.Does x m' ∧ IsCache imp t' m' := by
    intro t m x t' his hx hdoes
    obtain ⟨r, t'', hperform, -, hall⟩ := his.answers p _ hx
    rw [Fulfils, hperform] at hdoes
    cases hdoes
    exact hall x.2 rfl
  obtain ⟨ctr, m, hrun, his, hlabels⟩ :=
    h.simulates (C := fun _ x => x.1.Short) (is_new imp seed) hstep hshort
  refine ⟨⟨ctr, m, hrun, hlabels⟩, ?_⟩
  intro op hop
  obtain ⟨r, t', hperform, -⟩ := his.answers p _ hop
  exact ⟨r, t', hperform⟩

/-- Fifteen keys, for the last of which the table is rebuilt; then one of them is overwritten with more
and an expiry, one is removed, and one is read. -/
def busy : List Op :=
  (List.range 15).map (fun i => .set [UInt8.ofNat i] [1] none none true) ++
    [.set [3] [1, 2, 3] (some 5) none true, .remove [5], .get [3] 4]

theorem busy_short : ∀ op ∈ busy, op.Short := by
  intro op hop
  obtain hop | hop := List.mem_append.mp hop
  · obtain ⟨i, -, rfl⟩ := List.mem_map.mp hop
    exact ⟨show 1 < 2 ^ 35 by decide, show 1 < 2 ^ 35 by decide⟩
  · obtain rfl | hop := List.mem_cons.mp hop
    · exact ⟨by decide, by decide⟩
    · obtain rfl | hop := List.mem_cons.mp hop
      · trivial
      · rw [List.mem_singleton.mp hop]
        trivial

/-- An operation that is answered. -/
def answered (imp : Imp) (p : Platform) (t : Table) (op : Op) : Exec (Answer × Table) := do
  let (r, t) ← t.perform imp p op
  match r with
  | .ok a => pure (a, t)
  | .error _ => .error .bounds

theorem answered_does {imp : Imp} {p : Platform} (t : Table) (op : Op) (a : Answer) (t' : Table)
    (h : t.answered imp p op = .ok (a, t')) : Fulfils imp p t (op, a) t' := by
  obtain ⟨⟨r, t₁⟩, hperform, h⟩ := bind_ok_iff.mp h
  cases r with
  | error full => cases h
  | ok b =>
    cases h
    exact hperform

/-- What that run answers is what a cache does. -/
theorem refines_map_busy : ∃ tr t, Run (Fulfils .word .boxed) (Table.new 0) tr t ∧
    tr.map (fun x => x.2.1.1) = busy ∧ tr.map (fun x => x.2.1.2) =
      List.replicate 15 (.wrote .inserted) ++ [.wrote .replaced, .flag true, .value (some [1, 2, 3])] ∧
    (∃ ctr m, Run Cache.Does (fun _ => none) ctr m ∧ ctr.map (fun x => x.2.1) = tr.map (fun x => x.2.1)) ∧
    ∀ op : Op, op.Short → ∃ r t', t.perform .word .boxed op = .ok (r, t') := by
  have hplayed : (play (answered .word .boxed) busy (Table.new 0)).map (fun x => x.1.map fun y => y.2.1.2) =
      .ok (List.replicate 15 (.wrote .inserted) ++ [.wrote .replaced, .flag true, .value (some [1, 2, 3])]) := by
    decide +kernel
  cases hplay : play (answered .word .boxed) busy (Table.new 0) with
  | error e =>
    rw [hplay] at hplayed
    cases hplayed
  | ok got =>
    obtain ⟨tr, t⟩ := got
    rw [hplay] at hplayed
    have hrun : Run (Fulfils .word .boxed) (Table.new 0) tr t := play_run answered_does hplay
    have hinputs := play_inputs hplay
    refine ⟨tr, t, hrun, hinputs, Except.ok.inj hplayed, refines_map .word .boxed 0 hrun ?_⟩
    intro x hx
    apply busy_short
    rw [← hinputs]
    exact List.mem_map_of_mem (f := fun x => x.2.1.1) hx

/-- A new table is given a block for any entry too long to be described, and writing the
entry runs off its end. -/
theorem new_set_long (imp : Imp) (seed : UInt64) {view : Entry.View} (hlong : ¬ Entry.Short view) :
    (∃ new arena, Arena.new.alloc .boxed true view.size = .ok (.ok new, arena)) ∧
    (Table.new seed).set imp .boxed true view.key view.value (Hash.hash view.key seed) view.expiry view.userFlags =
      .error .bounds := by
  have hcls : Arena.classOf view.size = none := by
    have hsize : 2 ^ 35 ≤ view.size := by
      rw [Entry.View.size, Entry.sizeOfEntry]
      rw [Entry.Short] at hlong
      omega
    have hmax : smallMax = 2048 := rfl
    rw [Arena.classOf, if_pos (.inr (by omega))]
  have halloc : ∃ new arena, Arena.new.alloc .boxed true view.size = .ok (.ok new, arena) := by
    rw [Arena.alloc, hcls]
    exact ⟨_, _, rfl⟩
  refine ⟨halloc, ?_⟩
  obtain ⟨new, arena, halloc⟩ := halloc
  obtain hset | ⟨full, arena', t', halloc', -⟩ := (sound_new imp seed).has.set_long .boxed true hlong
  · exact hset
  · rw [show (Table.new seed).arena.alloc .boxed true view.size = _ from halloc] at halloc'
    cases halloc'

/-- A value of 2^35 bytes, whose length takes more than five varint bytes: the
block is given, and writing the entry runs off its end. -/
theorem set_panics : ∃ new arena,
    Arena.new.alloc .boxed true (Entry.View.size ⟨[], List.replicate (2 ^ 35) 0, none, none⟩) =
      .ok (.ok new, arena) ∧
    (Table.new 0).perform .sse2 .boxed (.set [] (List.replicate (2 ^ 35) 0) none none true) =
      .error .bounds := by
  have hlong : ¬ Entry.Short ⟨[], List.replicate (2 ^ 35) 0, none, none⟩ := by
    intro h
    have hv : (List.replicate (2 ^ 35) (0 : UInt8)).length < 2 ^ 35 := h.2
    rw [List.length_replicate] at hv
    exact Nat.lt_irrefl _ hv
  obtain ⟨⟨new, arena, halloc⟩, hset⟩ := new_set_long .sse2 0 hlong
  refine ⟨new, arena, halloc, ?_⟩
  rw [perform, show (Table.new 0).set .sse2 .boxed true [] _ (Hash.hash [] (Table.new 0).seed) none none = _ from hset]
  rfl

end Table
end Rugo
