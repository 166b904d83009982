import Rugo.MapSteps

/- An expired key beside an absent one. Expiry is lazy: an entry that has expired
   stays where it is until a read, a write or a sweep comes upon it. `purge` erases
   all of them at once, and an operation that looks before it answers cannot tell a
   table from the same table purged.

     1. `expired_absent_iff`: the operations that can tell are `remove` and `set`,
        and they can where the key is stored and has expired. -/
namespace Rugo
open Exec Runs Probing

namespace Table
variable {imp : Imp} {p : Platform} {t : Table} {m : Cache}

/-! ## Every reachable table -/

/-- What is said of the memory, should an operation ask for it. -/
def Op.granted : Op → Bool
  | .set _ _ _ _ granted => granted
  | .expire _ _ _ granted => granted
  | _ => true

/-- An operation that returns, whatever it returns. -/
def Returns (imp : Imp) (p : Platform) (t : Table) (x : Op × Except Full Answer) (t' : Table) : Prop :=
  t.perform imp p x.1 = .ok (x.2, t')

/-- A step that is not refused, or is refused without a tail being stranded. -/
def Unstranded (p : Platform) (t : Table) (x : Op × Except Full Answer) : Prop :=
  (∃ a, x.2 = .ok a) ∨ ∀ size, ¬ Arena.Strands p x.1.granted t.arena size

theorem IsCache.refused_ok (h : IsCache imp t m) {op : Op} {full : Full} {t' : Table}
    (hperform : t.perform imp p op = .ok (.error full, t'))
    (hkeeps : ∀ size, ¬ Arena.Strands p op.granted t.arena size) : IsCache imp t' m := by
  obtain ⟨items, lost, hhas, hm⟩ := h
  cases op with
  | set key value expiry userFlags granted =>
    rw [perform, bind_ok_iff] at hperform
    obtain ⟨⟨r, t''⟩, hset, hpure⟩ := hperform
    by_cases hshort : Entry.Short ⟨key, value, expiry, userFlags⟩
    · obtain ⟨r', t₁, hset', hput⟩ := hhas.set_ok p granted hshort
      rw [show t.set imp p granted key value _ expiry userFlags = _ from hset'] at hset
      cases hset
      cases hput with
      | inserted _ _ _ => cases hpure
      | replaced _ _ _ _ _ => cases hpure
      | refused _ hleft =>
        cases hpure
        obtain hstrands | hhas' := hleft
        · exact absurd hstrands (hkeeps _)
        · exact ⟨items, lost, hhas', hm⟩
    · obtain hpanic | ⟨full', arena, t₁, -, hset', -, hleft, -⟩ := hhas.set_long p granted hshort
      · rw [show t.set imp p granted key value _ expiry userFlags = _ from hpanic] at hset
        cases hset
      · rw [show t.set imp p granted key value _ expiry userFlags = _ from hset'] at hset
        cases hset
        cases hpure
        obtain hstrands | hhas' := hleft
        · exact absurd hstrands (hkeeps _)
        · exact ⟨items, lost, hhas', hm⟩
  | expire key expiry now granted =>
    rw [perform, bind_ok_iff] at hperform
    obtain ⟨⟨r, t''⟩, hexpire, hpure⟩ := hperform
    obtain ⟨r', t₁, hexpire', hdated⟩ := hhas.expire_ok p granted key expiry now
    rw [hexpire'] at hexpire
    cases hexpire
    cases hdated with
    | missing _ => cases hpure
    | changed _ _ _ _ _ _ => cases hpure
    | refused _ _ _ _ hleft =>
      cases hpure
      obtain hstrands | hhas' := hleft
      · exact absurd hstrands (hkeeps _)
      · exact ⟨items, lost, hhas', hm⟩
  -- nothing else is ever refused
  | _ =>
    rw [perform, bind_ok_iff] at hperform
    obtain ⟨_, -, hpure⟩ := hperform
    cases hpure

theorem IsCache.short_of_answer (h : IsCache imp t m) {op : Op} {a : Answer} {t' : Table}
    (hperform : t.perform imp p op = .ok (.ok a, t')) : op.Short := by
  cases op with
  | set key value expiry userFlags granted =>
    by_contra hlong
    rw [perform, bind_ok_iff] at hperform
    obtain ⟨⟨r, t''⟩, hset, hpure⟩ := hperform
    obtain hpanic | ⟨full, t₁, hset', -⟩ := h.set_long p granted (show ¬ Fits key ⟨value, expiry, userFlags⟩ from hlong)
    · rw [hpanic] at hset
      cases hset
    · rw [hset'] at hset
      cases hset
      cases hpure
  | _ => trivial

theorem IsCache.moves (h : IsCache imp t m) {x : Op × Except Full Answer} {t' : Table} (hmoves : Returns imp p t x t')
    (hkeeps : Unstranded p t x) : ∃ m', IsCache imp t' m' := by
  obtain ⟨op, r⟩ := x
  cases r with
  | error full =>
    obtain ⟨a, ha⟩ | hkeeps := hkeeps
    · cases ha
    · exact ⟨m, h.refused_ok hmoves hkeeps⟩
  | ok a =>
    obtain ⟨r', t₁, hperform, -, hall⟩ := h.answers p _ (h.short_of_answer hmoves)
    rw [hmoves] at hperform
    cases hperform
    obtain ⟨m', -, his⟩ := hall a rfl
    exact ⟨m', his⟩

/-- Every table that is reached is some cache. -/
theorem reached_is {seed : UInt64} {tr : List (Table × (Op × Except Full Answer) × Table)}
    (h : Run (Returns imp p) (Table.new seed) tr t) (hkeeps : ∀ x ∈ tr, Unstranded p x.1 x.2.1) :
    ∃ m, IsCache imp t m := by
  have hstep : ∀ (t : Table) (x : Op × Except Full Answer) (t' : Table), (∃ m, IsCache imp t m) →
      Unstranded p t x → Returns imp p t x t' → ∃ m, IsCache imp t' m := by
    intro t x t' ⟨m, his⟩ hx hmoves
    exact his.moves hmoves hx
  exact (h.invariant ⟨_, is_new imp seed⟩ hstep hkeeps).1

/-! ## The table purged -/

/-- One slot of `purge`. -/
def purgeSlot (imp : Imp) (now : UInt32) (at_ : Nat) (t : Table) : Exec Table := do
  let gone ← t.due at_ now
  if gone then t.erase imp at_ else pure t

/-- The table from which every entry that has expired has been erased. -/
def purge (imp : Imp) (t : Table) (now : UInt32) : Exec Table :=
  forRange t.slots.length (purgeSlot imp now) t

/-- How far a purge has come: what has expired is gone from the slots behind it, and
nothing else is. -/
structure Purged (imp : Imp) (t : Table) (m : Cache) (now : UInt32) (n : Nat) (s : Table) : Prop where
  seed : s.seed = t.seed
  rest : ∃ cells F lost m', Sound imp s cells F lost ∧ cells.length = t.slots.length ∧
    Shows (entries cells) m' ∧
    (∀ i < n, ∀ item, cells[i]? = some (.full item) → passed item.view.expiry now = false) ∧
    ∀ key, m' key = m key ∨ m' key = none ∧ Kept.live now (m key) = none

theorem Purged.slot_ok {now : UInt32} {n : Nat} {s : Table} (h : Purged imp t m now n s)
    (hn : n < t.slots.length) :
    ∃ s', purgeSlot imp now n s = .ok s' ∧ Purged imp t m now (n + 1) s' := by
  obtain ⟨hseed, cells, F, lost, m', hsound, hlen, hshows, hbehind, hkept⟩ := h
  have hslot := List.getElem?_eq_getElem (hlen.symm ▸ hn)
  obtain ⟨b, hdue, hb⟩ := hsound.due_ok hslot now
  rw [purgeSlot, hdue, ok_bind]
  cases b with
  | false =>
    refine ⟨s, rfl, hseed, cells, F, lost, m', hsound, hlen, hshows, ?_, hkept⟩
    intro i hi item hitem
    by_cases heq : i = n
    · rw [heq, hslot] at hitem
      cases hpassed : passed item.view.expiry now with
      | false => rfl
      | true => exact absurd (hb.mpr ⟨item, Option.some.inj hitem, hpassed⟩) Bool.false_ne_true
    · exact hbehind i (by omega) item hitem
  | true =>
    obtain ⟨item, heq, hpassed⟩ := hb.mp rfl
    rw [heq] at hslot
    -- expired: erased, and the cache loses that key
    obtain ⟨s', lane, F', herase, hseed', hfree, hsound'⟩ := hsound.erase_ok hslot
    have hsplit := entries_full hslot lane hfree
    have hget := hshows.get (mem_entries.mpr ⟨n, hslot⟩)
    have hdrop := (hshows.perm hsplit).drop ((hsplit.map _).nodup_iff.mp hsound.has.keys)
    refine ⟨s', by rw [if_pos rfl, herase], hseed'.trans hseed, cells.set n lane, F', _,
      Function.update m' item.view.key none, hsound', List.length_set.trans hlen, hdrop, ?_, ?_⟩
    · intro i hi other hother
      by_cases heq : i = n
      · have hlt := (List.getElem?_eq_some_iff.mp hslot).1
        rw [heq, List.getElem?_set_self hlt, Option.some.injEq] at hother
        rw [hother] at hfree
        cases hfree
      · rw [List.getElem?_set_ne (Ne.symm heq)] at hother
        exact hbehind i (by omega) other hother
    · intro key
      by_cases hkey : key = item.view.key
      · refine .inr ⟨by rw [hkey, Function.update_self], ?_⟩
        obtain hsame | ⟨-, hgone⟩ := hkept key
        · rw [← hsame, hkey, hget, Kept.live, Option.filter_some_eq_none]
          have hkept' : passed item.view.kept.expiry now = true := hpassed
          simp [hkept']
        · exact hgone
      · rw [Function.update_of_ne hkey]
        exact hkept key

theorem IsCache.purge_ok (h : IsCache imp t m) (now : UInt32) :
    ∃ t', t.purge imp now = .ok t' ∧ t'.seed = t.seed ∧ IsCache imp t' (fun key => Kept.live now (m key)) := by
  obtain ⟨items, lost, ⟨cells, F, hsound, hperm⟩, hm⟩ := h
  have hstart : Purged imp t m now 0 t :=
    ⟨rfl, cells, F, lost, m, hsound, hsound.indexed.length.symm, hm.perm hperm.symm,
      fun i hi => absurd hi (Nat.not_lt_zero i), fun _ => .inl rfl⟩
  obtain ⟨t', hpurge, hseed, cells', F', lost', m', hsound', hlen, hshows, hbehind, hkept⟩ := forRange_rule
    (I := Purged imp t m now) (n := t.slots.length) (f := purgeSlot imp now) hstart
    (fun _ hn _ hs => hs.slot_ok hn)
  refine ⟨t', hpurge, hseed, entries cells', lost', hsound'.has, ?_⟩
  have hsame : m' = fun key => Kept.live now (m key) := by
    funext key
    obtain heq | ⟨hnone, hgone⟩ := hkept key
    · cases hm' : m' key with
      | none =>
        rw [hm'] at heq
        rw [← heq]
        rfl
      | some kept =>
        obtain ⟨item, hi, -, rfl⟩ := (hshows key kept).mp hm'
        obtain ⟨i, hi⟩ := mem_entries.mp hi
        have hlt := (List.getElem?_eq_some_iff.mp hi).1
        have hlive : passed item.view.kept.expiry now = false := hbehind i (by omega) item hi
        rw [← heq, hm', Kept.live, Option.filter_some_pos]
        simp [hlive]
    · rw [hnone, hgone]
  rw [← hsame]
  exact hshows

/-! ## What can tell -/

/-- The key is stored, and has expired. -/
def Expired (imp : Imp) (t : Table) (key : List UInt8) (now : UInt32) : Prop :=
  ∃ at_, t.slotOf imp key (Hash.hash key t.seed) = .ok (some at_) ∧ t.isExpired at_ now = .ok true

theorem IsCache.expired_iff (h : IsCache imp t m) (key : List UInt8) (now : UInt32) :
    t.Expired imp key now ↔ (m key).isSome ∧ Kept.live now (m key) = none := by
  obtain ⟨items, lost, ⟨cells, F, hsound, hperm⟩, hm⟩ := h
  obtain ⟨found, hfind, hspec⟩ := hsound.find_ok key
  have hslot : t.slotOf imp key (Hash.hash key t.seed) = .ok (found.map Prod.fst) := by
    rw [slotOf, hfind]
    rfl
  cases found with
  | none =>
    have hnone := hm.none fun item hi => hspec item (hperm.mem_iff.mpr hi)
    rw [hnone]
    constructor
    · rintro ⟨at_, hat, -⟩
      rw [hslot] at hat
      cases hat
    · rintro ⟨hsome, -⟩
      cases hsome
  | some hit =>
    obtain ⟨i, head⟩ := hit
    obtain ⟨item, hi, hkey, -⟩ := hspec
    have hget := hm.get (hperm.mem_iff.mp (mem_entries.mpr ⟨i, hi⟩))
    -- in the slot where the key is, as the header there says
    have hexpired := hsound.isExpired_ok hi now
    have hkept : item.view.kept.expiry = item.view.expiry := rfl
    rw [hkey] at hget
    rw [hget, Kept.live, Option.filter_some_eq_none, hkept]
    constructor
    · rintro ⟨at_, hat, hpassed⟩
      rw [hslot] at hat
      cases hat
      rw [hexpired] at hpassed
      exact ⟨rfl, by simp [Except.ok.inj hpassed]⟩
    · rintro ⟨-, hpassed⟩
      refine ⟨i, hslot, ?_⟩
      rw [hexpired]
      simpa using hpassed

end Table

namespace KeyOp

/-- The operations that answer without asking when the entry expires. -/
def Blind : KeyOp → Prop
  | set .. => True
  | remove => True
  | _ => False

end KeyOp

theorem Kept.live_live (now : UInt32) (held : Option Kept) :
    Kept.live now (Kept.live now held) = Kept.live now held := by
  rw [Kept.live, Kept.live, Option.filter_filter]
  simp

/-- An operation that looks sees only what has not expired. -/
theorem KeyOp.onKept_live {op : KeyOp} (h : ¬ op.Blind) (key : List UInt8) (now : UInt32) (held : Option Kept) :
    op.onKept key now (Kept.live now held) = op.onKept key now held := by
  cases op with
  | set value expiry userFlags => exact absurd trivial h
  | remove => exact absurd trivial h
  | _ => simp only [KeyOp.onKept, Kept.live_live]

theorem wroteOver_inj {held held' : Option Kept} :
    wroteOver held = wroteOver held' ↔ held.isSome = held'.isSome := by
  rw [wroteOver, wroteOver]
  cases held.isSome <;> cases held'.isSome <;> decide

theorem Kept.isSome_live (now : UInt32) (held : Option Kept) :
    held.isSome = (Kept.live now held).isSome ↔ ¬ (held.isSome ∧ Kept.live now held = none) := by
  cases held with
  | none =>
    have hnone : Kept.live now none = none := rfl
    simp [hnone]
  | some kept => cases Kept.live now (some kept) <;> simp

theorem KeyOp.onKept_same {op : KeyOp} {key : List UInt8} {now : UInt32} {held kept kept' : Option Kept}
    {a a' : op.Answer} (h : op.onKept key now held = some (a, kept))
    (h' : op.onKept key now (Kept.live now held) = some (a', kept')) :
    a = a' ↔ ¬ (op.Blind ∧ held.isSome ∧ Kept.live now held = none) := by
  by_cases hblind : op.Blind
  · have hiff : ¬ (op.Blind ∧ held.isSome ∧ Kept.live now held = none) ↔
        held.isSome = (Kept.live now held).isSome := by
      rw [Kept.isSome_live]
      simp [hblind]
    rw [hiff]
    cases op with
    | set value expiry userFlags =>
      rw [KeyOp.onKept, writes] at h h'
      by_cases hfits : Fits key ⟨value, expiry, userFlags⟩
      · rw [if_pos hfits] at h h'
        cases h
        cases h'
        rw [Except.ok.injEq, wroteOver_inj]
      · rw [if_neg hfits] at h
        cases h
    | remove =>
      cases h
      cases h'
      exact Iff.rfl
    | _ => exact hblind.elim
  · rw [KeyOp.onKept_live hblind, h] at h'
    cases h'
    simp [hblind]

namespace Table
variable {imp : Imp} {p : Platform} {t : Table}

/-- On a table that is reached, an operation answers as on the table purged, exactly
where it asks when the entry expires, or the key is not stored, or it has not expired. -/
theorem expired_absent_iff {seed : UInt64} {tr : List (Table × (Op × Except Full Answer) × Table)}
    (h : Run (Returns imp p) (Table.new seed) tr t) (hkeeps : ∀ x ∈ tr, Unstranded p x.1 x.2.1)
    (sky sky' : Sky) (hnow : sky'.now = sky.now) (budget : Nat) (key : List UInt8) (op : KeyOp) :
    ∃ t', t.purge imp sky.now = .ok t' ∧ t'.seed = t.seed ∧ ∀ a t₁ a' t₂,
      op.serve imp p sky budget t key (Hash.hash key t.seed) = .ok (a, t₁) → ¬ op.Refused a →
      op.serve imp p sky' budget t' key (Hash.hash key t.seed) = .ok (a', t₂) → ¬ op.Refused a' →
      (a = a' ↔ ¬ (op.Blind ∧ t.Expired imp key sky.now)) := by
  obtain ⟨m, his⟩ := reached_is h hkeeps
  obtain ⟨t', hpurge, hseed, his'⟩ := his.purge_ok sky.now
  refine ⟨t', hpurge, hseed, ?_⟩
  intro a t₁ a' t₂ hserve hgranted hserve' hgranted'
  have hserved := his.serve_ok p sky budget key op
  have hserved' := his'.serve_ok p sky' budget key op
  rw [hserve] at hserved
  rw [hseed, hserve', hnow] at hserved'
  rw [his.expired_iff]
  cases hserved with
  | refused hr _ => exact absurd hr hgranted
  | answered hwant _ _ _ _ =>
    cases hserved' with
    | refused hr _ => exact absurd hr hgranted'
    | answered hwant' _ _ _ _ => exact KeyOp.onKept_same hwant hwant'

/-- A run that inserts, is rebuilt, overwrites, removes and reads, with what can be seen of each table
it comes by: how many slots are in use, and that none of these has the reference that reads as none. -/
theorem busy_run : ∃ tr t, Run (Returns .word .boxed) (Table.new 0) tr t ∧ tr.map (fun x => x.2.1.1) = busy ∧
    t.slots.length = 32 ∧ ∀ x ∈ tr, (∃ a, x.2.1.2 = .ok a) ∧
      (x.1.ctrl.countP Ctrl.isFull ≤ 15 ∧ x.2.2.ctrl.countP Ctrl.isFull ≤ 15) ∧
      ∀ y ∈ x.1.ctrl.zip x.1.slots, Ctrl.isFull y.1 = true → y.2 ≠ Ref.NONE.bits := by
  have hplayed : (play (fun t op => t.perform .word .boxed op) busy (Table.new 0)).map
      (fun x => (x.2.slots.length, x.1.all fun x => x.2.1.2.isOk &&
        decide (x.1.ctrl.countP Ctrl.isFull ≤ 15 ∧ x.2.2.ctrl.countP Ctrl.isFull ≤ 15) &&
        (x.1.ctrl.zip x.1.slots).all fun y => !Ctrl.isFull y.1 || y.2 != Ref.NONE.bits)) = .ok (32, true) := by
    decide +kernel
  cases hplay : play (fun t op => t.perform .word .boxed op) busy (Table.new 0) with
  | error e =>
    rw [hplay] at hplayed
    cases hplayed
  | ok got =>
    obtain ⟨tr, t⟩ := got
    rw [hplay] at hplayed
    obtain ⟨hslots, hall⟩ := (Prod.mk.injEq ..).mp (Except.ok.inj hplayed)
    refine ⟨tr, t, play_run (fun _ _ _ _ h => h) hplay, play_inputs hplay, hslots, ?_⟩
    intro x hx
    have hx' := List.all_eq_true.mp hall x hx
    simp only [Bool.and_eq_true, decide_eq_true_eq, List.all_eq_true] at hx'
    obtain ⟨⟨hok, hheld⟩, hnone⟩ := hx'
    refine ⟨isOk_iff.mp hok, hheld, ?_⟩
    intro y hy hfull
    have hy' := hnone y hy
    rw [hfull] at hy'
    exact bne_iff_ne.mp hy'

theorem set_lapsing : ∃ t, Returns .word .boxed (Table.new 0)
    (.set [7] [1] (some 5) none true, .ok (.wrote .inserted)) t ∧
    IsCache .word t (Function.update (fun _ => none) [7] (some ⟨[1], some 5, none⟩)) := by
  have hshort : Op.Short (.set [7] [1] (some 5) none true) := ⟨by decide, by decide⟩
  obtain ⟨r, t, hperform, -, hall⟩ := (is_new .word 0).answers .boxed _ hshort
  have hanswer : ((Table.new 0).perform .word .boxed (.set [7] [1] (some 5) none true)).map Prod.fst =
      .ok (.ok (.wrote .inserted)) := by
    decide +kernel
  rw [hperform] at hanswer
  cases hanswer
  obtain ⟨m, hdoes, his⟩ := hall _ rfl
  cases hdoes
  exact ⟨t, hperform, his⟩

/-- At 10 the key has expired: `remove` says it was there, and says it was not of the
table purged. -/
theorem remove_tells : ∃ t t' t₁ t₂,
    Run (Returns .word .boxed) (Table.new 0)
      [(Table.new 0, (.set [7] [1] (some 5) none true, .ok (.wrote .inserted)), t)] t ∧
    t.purge .word 10 = .ok t' ∧
    t.remove .word [7] (Hash.hash [7] t.seed) = .ok (true, t₁) ∧
    t'.remove .word [7] (Hash.hash [7] t'.seed) = .ok (false, t₂) := by
  obtain ⟨t, hmoves, his⟩ := set_lapsing
  obtain ⟨t', hpurge, -, his'⟩ := his.purge_ok 10
  obtain ⟨t₁, hremove, -⟩ := his.remove_ok [7]
  obtain ⟨t₂, hremove', -⟩ := his'.remove_ok [7]
  exact ⟨t, t', t₁, t₂, .single hmoves, hpurge, hremove, hremove'⟩

theorem expired_absent_lapsing : ∃ t t',
    Run (Returns .word .boxed) (Table.new 0)
      [(Table.new 0, (.set [7] [1] (some 5) none true, .ok (.wrote .inserted)), t)] t ∧
    t.purge .word 10 = .ok t' ∧ ∀ a t₁ a' t₂,
      KeyOp.get.serve .word .boxed ⟨10, true⟩ 0 t [7] (Hash.hash [7] t.seed) = .ok (a, t₁) →
      KeyOp.get.serve .word .boxed ⟨10, true⟩ 0 t' [7] (Hash.hash [7] t.seed) = .ok (a', t₂) → a = a' := by
  obtain ⟨t, hmoves, -⟩ := set_lapsing
  have hrun : Run (Returns .word .boxed) (Table.new 0)
      [(Table.new 0, (.set [7] [1] (some 5) none true, .ok (.wrote .inserted)), t)] t := .single hmoves
  obtain ⟨t', hpurge, -, hall⟩ := expired_absent_iff hrun (List.forall_mem_singleton.mpr (.inl ⟨_, rfl⟩))
    ⟨10, true⟩ ⟨10, true⟩ rfl 0 [7] .get
  refine ⟨t, t', hrun, hpurge, ?_⟩
  intro a t₁ a' t₂ hserve hserve'
  exact (hall a t₁ a' t₂ hserve id hserve' id).mpr fun hblind => hblind.1

end Table
end Rugo
