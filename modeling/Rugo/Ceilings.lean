import Mathlib.Algebra.Order.BigOperators.Group.List
import Rugo.Churn
import Rugo.Lifetimes
import Rugo.Persist

/- What a ceiling holds the writes of a map to. A write over its shard's share takes 64
   entries, or all but its own, so a shard that has a share holds no more entries than
   the share has room for slots, or than one; and each is as large as the largest that
   was written. Of one block that is lost there is no second: it is the last there is.

     1. `ceiling_defended`: with a share for each shard a map is charged no more than
        `Map.roof` after any write, and what a write leaves over the share is less than it
        would be without a ceiling; with none, every write is that of a map without one.
     2. `ceiling_ignored`: two shards and a ceiling of one byte. -/
namespace Rugo
open Exec Runs Probing

/-! ## What is lost -/

namespace Table
variable {imp : Imp} {p : Platform} {granted : Bool} {s budget : Nat} {t t' : Table} {items rest : List Item}
  {item : Item} {F : List Arena.Cell} {lost : Nat} {arena arena' : Arena}

/-- What is lost is one block of no more than `s` bytes, and it had the last slot there is. -/
structure Spends (s : Nat) (arena : Arena) (items : List Item) (lost : Nat) : Prop where
  le : lost ≤ s
  last : 0 < lost → arena.large.length = 2 ^ 31 ∧ ∀ item ∈ items, item.ref ≠ Ref.NONE

/-- A block under the reference that reads as none has the last slot, and no other has. -/
theorem Stored.last (h : Stored arena (item :: rest) F lost) (hnone : item.ref = Ref.NONE) :
    arena.large.length = 2 ^ 31 ∧ ∀ other ∈ rest, other.ref ≠ Ref.NONE := by
  have hindex : Ref.NONE.index = 2 ^ 31 - 1 := rfl
  have hlarge : item.block.isLarge = true := by
    rw [← h.holds.ref_isLarge List.mem_cons_self]
    exact congrArg Ref.isLarge hnone
  obtain ⟨hlt, -, hothers, -⟩ := h.holds.large_own hlarge
  have hreach := h.holds.blocks.reach
  rw [show item.block.ref = _ from hnone, hindex] at hlt hothers
  refine ⟨by omega, ?_⟩
  intro other ho hother
  have hmem : other.block ∈ rest.map Item.block := List.mem_map_of_mem ho
  have hbig : other.block.isLarge = true := by
    rw [← h.holds.ref_isLarge (List.mem_cons_of_mem _ hmem)]
    exact congrArg Ref.isLarge hother
  exact hothers _ hmem hbig (congrArg Ref.index hother)

theorem Spends.drop (h : Spends s arena (item :: rest) lost) (hstored : Stored arena (item :: rest) F lost)
    (hsize : item.view.size ≤ s) (hlarge : arena'.large.length = arena.large.length) :
    Spends s arena' rest (lost + leaked item) := by
  by_cases hnone : item.ref = Ref.NONE
  · have hzero : lost = 0 := by
      by_contra hpos
      exact (h.last (Nat.pos_of_ne_zero hpos)).2 item List.mem_cons_self hnone
    have hlength := Entry.encode_length (hstored.short item List.mem_cons_self)
    obtain ⟨hspent, hothers⟩ := hstored.last hnone
    rw [leaked, if_pos hnone, hlength, hzero, Nat.zero_add]
    exact ⟨hsize, fun _ => ⟨hlarge.trans hspent, hothers⟩⟩
  · rw [leaked, if_neg hnone, Nat.add_zero]
    refine ⟨h.le, ?_⟩
    intro hpos
    obtain ⟨hspent, hothers⟩ := h.last hpos
    exact ⟨hlarge.trans hspent, fun other ho => hothers other (List.mem_cons_of_mem _ ho)⟩

theorem Stored.gives (h : Stored arena items F lost) {new : Ref} {size : Nat}
    (hgives : Gives p granted arena size new arena') (hspent : arena.large.length = 2 ^ 31) :
    new ≠ Ref.NONE ∧ arena'.large.length = 2 ^ 31 := by
  obtain ⟨given, halloc, hlarge⟩ := hgives
  obtain ⟨hne, hgiven⟩ := h.holds.alloc_spent hspent halloc
  exact ⟨hne, hlarge.trans hgiven⟩

theorem Spends.perm {items' : List Item} (h : Spends s arena items lost) (hp : items.Perm items') :
    Spends s arena items' lost :=
  ⟨h.le, fun hpos => ⟨(h.last hpos).1, fun item hi => (h.last hpos).2 item (hp.mem_iff.mpr hi)⟩⟩

/-! ## Entries of a size -/

/-- A table in good order, under this seed, of whose entries none is larger than `s`. -/
def Small (imp : Imp) (s : Nat) (seed : UInt64) (t : Table) : Prop :=
  t.seed = seed ∧ ∃ items lost, Has imp t items lost ∧ (∀ item ∈ items, item.view.size ≤ s) ∧
    Spends s t.arena items lost

variable {seed : UInt64}

theorem small_new (imp : Imp) (s : Nat) (seed : UInt64) : Small imp s seed (Table.new seed) := by
  refine ⟨rfl, [], 0, ?_, nofun, Nat.zero_le _, nofun⟩
  exact (sound_new imp seed).has

theorem Small.live_le (h : Small imp s seed t) : t.arena.live ≤ t.len * (s + 3) + s := by
  obtain ⟨-, items, lost, ⟨cells, F, hsound, hperm⟩, hsizes, hspends⟩ := h
  have hlive := hsound.stored.holds.totals.live
  have hle := hspends.le
  have hsum : (((entries cells).map Item.block).map fun b => Arena.charge b.data.length).sum ≤
      (entries cells).length * (s + 3) := by
    have hall := List.sum_le_card_nsmul (((entries cells).map Item.block).map fun b => Arena.charge b.data.length)
      (s + 3)
    rw [List.length_map, List.length_map] at hall
    apply hall
    rw [List.map_map]
    intro charged hcharged
    obtain ⟨item, hi, rfl⟩ := List.mem_map.mp hcharged
    have hlength := Entry.encode_length (hsound.stored.short item hi)
    have hsize := hsizes item (hperm.mem_iff.mp hi)
    change Arena.charge (Entry.encode item.view).length ≤ s + 3
    rw [hlength, Arena.charge]
    split
    · next cls hcls =>
      have hclass := Arena.classOf_some hcls
      change (cls + 1) * 4 ≤ s + 3
      omega
    · omega
  rw [hsound.indexed.len]
  omega

theorem evictOne_large {roll : UInt64} {spare : Option Nat} {b : Bool}
    (h : t.evictOne imp roll spare = .ok (b, t')) : t'.arena.large.length = t.arena.large.length := by
  rw [Table.evictOne] at h
  split at h
  · cases h
    rfl
  · obtain ⟨first, -, h⟩ := bind_ok_iff.mp h
    obtain ⟨second, -, h⟩ := bind_ok_iff.mp h
    cases first with
    | none =>
      cases h
      rfl
    | some first =>
      cases second with
      | none =>
        cases h
        rfl
      | some second =>
        obtain ⟨d₁, -, h⟩ := bind_ok_iff.mp h
        obtain ⟨d₂, -, h⟩ := bind_ok_iff.mp h
        obtain ⟨t₁, herase, h⟩ := bind_ok_iff.mp h
        cases h
        obtain ⟨entry, n, hfree⟩ := erase_free herase
        exact Arena.free_large hfree

theorem Small.evictOne (h : Small imp s seed t) {roll : UInt64} {spare : Option Nat} {b : Bool}
    (hevict : t.evictOne imp roll spare = .ok (b, t')) : Small imp s seed t' := by
  obtain ⟨hseed, items, lost, ⟨cells, F, hsound, hperm⟩, hsizes, hspends⟩ := h
  obtain ⟨hnone, -⟩ | ⟨t₁, i, item, htook, htakes⟩ := hsound.evictOne_takes roll spare
  · rw [hevict] at hnone
    cases hnone
    exact ⟨hseed, items, lost, ⟨cells, F, hsound, hperm⟩, hsizes, hspends⟩
  · rw [hevict] at htook
    cases htook
    obtain ⟨lane, F', hfree, hsound'⟩ := htakes.rest
    have hrest := entries_full htakes.at_ lane hfree
    have hmem : ∀ other ∈ item :: entries (cells.set i lane), other ∈ items := fun other ho =>
      hperm.mem_iff.mp (hrest.mem_iff.mpr ho)
    refine ⟨htakes.seed.trans hseed, _, _, hsound'.has, ?_, ?_⟩
    · intro other ho
      exact hsizes other (hmem other (List.mem_cons_of_mem _ ho))
    · have hstored := hsound.stored.perm hrest
      have hbefore := hspends.perm (hperm.symm.trans hrest)
      exact hbefore.drop hstored (hsizes item (hmem item List.mem_cons_self)) (evictOne_large hevict)

theorem Small.shrink (h : Small imp s seed t) {b : Bool} (hshrink : t.shrink imp = .ok (b, t')) :
    Small imp s seed t' := by
  obtain ⟨hseed, items, lost, ⟨cells, F, hsound, hperm⟩, hsizes, hspends⟩ := h
  obtain ⟨b', t₁, cells₁, hshrink', hsound₁, hperm₁, hseed₁, harena, -⟩ := hsound.shrink_ok
  rw [hshrink] at hshrink'
  cases hshrink'
  rw [← harena] at hspends
  exact ⟨hseed₁.trans hseed, items, lost, ⟨cells₁, F, hsound₁, hperm₁.trans hperm⟩, hsizes, hspends⟩

/-! ## All the evictions of a write -/

section rule
variable {I : Table → Prop}
  (hevict : ∀ {t t' : Table} {roll : UInt64} {spare : Option Nat} {b : Bool}, I t →
    t.evictOne imp roll spare = .ok (b, t') → I t')
  (hshrink : ∀ {t t' : Table} {b : Bool}, I t → t.shrink imp = .ok (b, t') → I t')
include hevict

/-- What every eviction keeps, all of them keep. -/
theorem evictLoop_rule {spare : Option Nat} {fuel : Nat} {roll : UInt64} {went went' : Nat} {t t' : Table}
    (h : I t) (hloop : evictLoop imp budget spare fuel roll went t = .ok (went', t')) : I t' := by
  induction fuel generalizing roll went t with
  | zero =>
    cases hloop
    exact h
  | succ fuel ih =>
    rw [evictLoop] at hloop
    split at hloop
    · obtain ⟨⟨gone, t₁⟩, hone, hloop⟩ := bind_ok_iff.mp hloop
      have hnext := hevict h hone
      cases gone with
      | true => exact ih hnext hloop
      | false =>
        cases hloop
        exact hnext
    · cases hloop
      exact h

include hshrink

theorem evictToFit_rule {key : List UInt8} {hash : UInt64} {t t' : Table} (h : I t)
    (hfit : t.evictToFit imp budget key hash = .ok t') : I t' := by
  rw [evictToFit] at hfit
  split at hfit
  · cases hfit
    exact h
  · obtain ⟨spare, -, hfit⟩ := bind_ok_iff.mp hfit
    obtain ⟨⟨went, t₁⟩, hloop, hfit⟩ := bind_ok_iff.mp hfit
    have hevicted := evictLoop_rule hevict h hloop
    simp only at hfit
    split at hfit
    · obtain ⟨⟨b, t₂⟩, hshrunk, hfit⟩ := bind_ok_iff.mp hfit
      cases hfit
      exact hshrink hevicted hshrunk
    · cases hfit
      exact hevicted

end rule

theorem Small.evictToFit (h : Small imp s seed t) {key : List UInt8} {hash : UInt64}
    (hfit : t.evictToFit imp budget key hash = .ok t') : Small imp s seed t' :=
  evictToFit_rule (fun h => h.evictOne) (fun h => h.shrink) h hfit

theorem Tallied.evictToFit (h : Tallied t) {key : List UInt8} {hash : UInt64}
    (hfit : t.evictToFit imp budget key hash = .ok t') : Tallied t' ∧ t'.slots.length ≤ t.slots.length := by
  apply evictToFit_rule (I := fun t' => Tallied t' ∧ t'.slots.length ≤ t.slots.length) ?_ ?_ ⟨h, Nat.le_refl _⟩ hfit
  · intro t₁ t₂ roll spare b ⟨htallied, hle⟩ hevict
    have hless := htallied.evictOne hevict
    exact ⟨hless.tallied, Nat.le_trans (Nat.le_of_eq hless.slots) hle⟩
  · intro t₁ t₂ b ⟨htallied, hle⟩ hshrink
    obtain ⟨htallied', -, hless, -⟩ := htallied.shrink hshrink
    exact ⟨htallied', Nat.le_trans hless hle⟩

/-! ## A write -/

theorem Has.len (h : Has imp t items lost) : t.len = items.length := by
  obtain ⟨cells, F, hsound, hperm⟩ := h
  rw [hsound.indexed.len, hperm.length_eq]

theorem exists_shows (items : List Item) (hkeys : (items.map fun item => item.view.key).Nodup) :
    ∃ m, Shows items m := by
  induction items with
  | nil => exact ⟨_, .nil⟩
  | cons item rest ih =>
    rw [List.map_cons, List.nodup_cons] at hkeys
    obtain ⟨m, hm⟩ := ih hkeys.2
    refine ⟨_, hm.put item ?_⟩
    intro other ho hkey
    exact hkeys.1 (List.mem_map.mpr ⟨other, ho, hkey⟩)

theorem Small.set (h : Small imp s seed t) {view : Entry.View} {r : Except Full Wrote}
    (hset : t.set imp p granted view.key view.value (Hash.hash view.key seed) view.expiry view.userFlags = .ok (r, t'))
    (hsize : view.size ≤ s)
    (hkeeps : (∃ full, r = .error full) → ∀ size, ¬ Arena.Strands p granted t.arena size) :
    Small imp s seed t' ∧ t'.len ≤ t.len + 1 ∧ ((∃ full, r = .error full) → t'.len ≤ t.len) ∧
      (∀ wrote, r = .ok wrote → ∃ items lost ref, Has imp t' (⟨ref, view⟩ :: items) lost) := by
  obtain ⟨rfl, items, lost, hhas, hsizes, hspends⟩ := h
  have hlays := hhas.set_laid hset
  obtain ⟨cells, F, hsound, hperm⟩ := id hhas
  have hstored := hsound.stored.perm hperm
  cases hlays with
  | @inserted t' ref _ hseed hhas' hgives =>
    refine ⟨⟨hseed, _, lost, hhas', ?_, hspends.le, ?_⟩, ?_, nofun, fun _ _ => ⟨_, _, _, hhas'⟩⟩
    · intro item hi
      obtain rfl | hi := List.mem_cons.mp hi
      · exact hsize
      · exact hsizes item hi
    · intro hpos
      obtain ⟨hspent, hothers⟩ := hspends.last hpos
      -- with the last slot lost there is none left that reads as none
      obtain ⟨hne, hspent'⟩ := hstored.gives hgives hspent
      refine ⟨hspent', ?_⟩
      intro item hi
      obtain rfl | hi := List.mem_cons.mp hi
      · exact hne
      · exact hothers item hi
    · rw [hhas'.len, hhas.len, List.length_cons]
  | @inPlace t' item rest hrest _ hseed hhas' hlarge =>
    refine ⟨⟨hseed, _, lost, hhas', ?_, hspends.le, ?_⟩, ?_, nofun, fun _ _ => ⟨_, _, _, hhas'⟩⟩
    · intro other ho
      obtain rfl | ho := List.mem_cons.mp ho
      · exact hsize
      · exact hsizes other (hrest.mem_iff.mpr (List.mem_cons_of_mem _ ho))
    · intro hpos
      obtain ⟨hspent, hothers⟩ := hspends.last hpos
      refine ⟨hlarge.trans hspent, ?_⟩
      intro other ho
      obtain rfl | ho := List.mem_cons.mp ho
      · exact hothers item (hrest.mem_iff.mpr List.mem_cons_self)
      · exact hothers other (hrest.mem_iff.mpr (List.mem_cons_of_mem _ ho))
    · rw [hhas'.len, hhas.len, hrest.length_eq, List.length_cons, List.length_cons]
      exact Nat.le_succ _
  | @moved t' item rest ref hrest _ hseed hhas' hgives =>
    have hdrop := (hspends.perm hrest).drop (hstored.perm hrest)
      (hsizes item (hrest.mem_iff.mpr List.mem_cons_self)) rfl
    refine ⟨⟨hseed, _, _, hhas', ?_, hdrop.le, ?_⟩, ?_, nofun, fun _ _ => ⟨_, _, _, hhas'⟩⟩
    · intro other ho
      obtain rfl | ho := List.mem_cons.mp ho
      · exact hsize
      · exact hsizes other (hrest.mem_iff.mpr (List.mem_cons_of_mem _ ho))
    · intro hpos
      obtain ⟨hspent, hothers⟩ := hdrop.last hpos
      obtain ⟨hne, hspent'⟩ := hstored.gives hgives hspent
      refine ⟨hspent', ?_⟩
      intro other ho
      obtain rfl | ho := List.mem_cons.mp ho
      · exact hne
      · exact hothers other ho
    · rw [hhas'.len, hhas.len, hrest.length_eq, List.length_cons, List.length_cons]
      exact Nat.le_succ _
  | @refused t' full hseed hleft hlarge =>
    have hhas' : Has imp t' items lost := hleft.resolve_left (hkeeps ⟨full, rfl⟩ _)
    have hlen : t'.len = t.len := hhas'.len.trans hhas.len.symm
    refine ⟨⟨hseed, items, lost, hhas', hsizes, hspends.le, ?_⟩, by omega, fun _ => by omega, nofun⟩
    intro hpos
    obtain ⟨hspent, hothers⟩ := hspends.last hpos
    exact ⟨hlarge.trans hspent, hothers⟩

/-! ## Under a share -/

/-- How many entries a share holds a table to: as many as it has room for slots, or one. -/
def most (budget : Nat) : Nat := max 1 (budget / 5)

/-- How many slots such a table has. -/
def slotsMost (budget : Nat) : Nat := max minCapacity (32 * most budget / 7)

/-- What it is charged. -/
def roof (budget s : Nat) : Nat := slotsMost budget * 5 + most budget * (s + 3) + s

/-- A table that a share of the ceiling has held. -/
structure Under (imp : Imp) (budget s : Nat) (seed : UInt64) (t : Table) : Prop where
  tallied : Tallied t
  small : Small imp s seed t
  len : t.len ≤ most budget
  slots : t.slots.length ≤ slotsMost budget

theorem under_new (imp : Imp) (budget s : Nat) (seed : UInt64) : Under imp budget s seed (Table.new seed) :=
  ⟨tallied_new seed, small_new imp s seed, Nat.zero_le _, Nat.zero_le _⟩

theorem Tallied.chargedBytes (h : Tallied t) : t.chargedBytes = t.slots.length * 5 + t.arena.live := by
  rw [Table.chargedBytes, indexBytes, ← h.slots]
  omega

/-- What is charged for the slots alone is more than for the entries there can be. -/
theorem Tallied.len_le (h : Tallied t) : t.len * 5 ≤ t.chargedBytes := by
  have hheld : t.held ≤ t.ctrl.length := List.countP_le_length
  rw [h.chargedBytes, h.len, h.slots]
  omega

theorem Under.charged (h : Under imp budget s seed t) : t.chargedBytes ≤ roof budget s := by
  have hlive := h.small.live_le
  have hentries : t.len * (s + 3) ≤ most budget * (s + 3) := Nat.mul_le_mul_right _ h.len
  have hslots := h.slots
  rw [h.tallied.chargedBytes, roof]
  omega

theorem Small.alone (h : Small imp s seed t) {m : Cache} (hstores : Stores imp t m) {key : List UInt8}
    (halone : ∀ k, (m k).isSome → k = key) : t.len ≤ 1 := by
  obtain ⟨-, items, lost, hhas, -⟩ := h
  obtain ⟨m', hm'⟩ := exists_shows items hhas.keys
  have hkeys := hhas.keys
  have hsame : ∀ item ∈ items, item.view.key = key := by
    intro item hi
    obtain ⟨cells, F, hsound, hperm⟩ := hhas
    have hheld : (.ok _ : Exec (Option Kept)) = .ok _ :=
      (hstores item.view.key).symm.trans (hsound.stores (hm'.perm hperm.symm) item.view.key)
    apply halone
    rw [Except.ok.inj hheld, hm'.get hi]
    rfl
  rw [hhas.len]
  match items, hsame, hkeys with
  | [], _, _ => exact Nat.zero_le _
  | [_], _, _ => exact Nat.le_refl _
  | first :: second :: rest, hsame, hkeys =>
    rw [List.map_cons, List.map_cons, List.nodup_cons] at hkeys
    apply absurd _ hkeys.1
    rw [hsame first List.mem_cons_self, hsame second (List.mem_cons_of_mem _ List.mem_cons_self)]
    exact List.mem_cons_self

/-- A write that is done leaves its table within its share, or took 64 entries for it, or left
its own. -/
theorem Small.fitted (h : Small imp s seed t) {items : List Item} {view : Entry.View} {ref : Ref} {lost : Nat}
    (hhas : Has imp t (⟨ref, view⟩ :: items) lost) (hbudget : 0 < budget)
    (hfit : t.evictToFit imp budget view.key (Hash.hash view.key seed) = .ok t') :
    t'.chargedBytes ≤ budget ∨ t'.len + 64 = t.len ∨ t'.len ≤ 1 := by
  obtain ⟨rfl, -⟩ := id h
  have hsmall := h.evictToFit hfit
  obtain ⟨m, hm⟩ := exists_shows _ hhas.keys
  obtain ⟨cells, F, hsound, hperm⟩ := hhas
  have hkey : (m view.key).isSome := by
    rw [hm.get List.mem_cons_self]
    rfl
  obtain ⟨t₂, hfit', hfitted⟩ := hsound.evictToFit_ok (hm.perm hperm.symm) hbudget view.key hkey
  rw [hfit] at hfit'
  cases hfit'
  obtain ⟨gone, -, -, -, hstores, hlen, hend⟩ := hfitted.rest
  obtain hfits | hgone | halone := hend
  · exact .inl hfits
  · exact .inr (.inl (by omega))
  · have honly : ∀ k, (if k ∈ gone then none else m k).isSome → k = view.key := by
      intro k hk
      split at hk
      · cases hk
      · next hnot => exact halone k hk hnot
    exact .inr (.inr (hsmall.alone hstores honly))

theorem Under.put (h : Under imp budget s seed t) (hbudget : 0 < budget) {view : Entry.View}
    {r : Except Full Wrote}
    (hput : t.put imp p granted budget view.key view.value (Hash.hash view.key seed) view.expiry view.userFlags =
      .ok (r, t')) (hsize : view.size ≤ s)
    (hkeeps : (∃ full, r = .error full) → ∀ size, ¬ Arena.Strands p granted t.arena size) :
    Under imp budget s seed t' := by
  rw [Table.put] at hput
  obtain ⟨⟨res, t₁⟩, hset, hput⟩ := bind_ok_iff.mp hput
  obtain ⟨htallied, hslots⟩ := h.tallied.put hset
  have hlen := h.len
  have hheld := h.tallied.len
  have hbefore := h.slots
  have hslots' : t₁.slots.length ≤ slotsMost budget := by
    rw [slotsMost] at hbefore ⊢
    omega
  cases res with
  | error full =>
    cases hput
    obtain ⟨hsmall, -, hsame, -⟩ := h.small.set hset hsize hkeeps
    exact ⟨htallied, hsmall, Nat.le_trans (hsame ⟨full, rfl⟩) hlen, hslots'⟩
  | ok wrote =>
    obtain ⟨t₂, hfit, hput⟩ := bind_ok_iff.mp hput
    cases hput
    obtain ⟨hsmall, hmore, -, hwrote⟩ := h.small.set hset hsize (by rintro ⟨full, hfull⟩; cases hfull)
    obtain ⟨items, lost, ref, hhas⟩ := hwrote wrote rfl
    obtain ⟨htallied', hless⟩ := htallied.evictToFit hfit
    refine ⟨htallied', hsmall.evictToFit hfit, ?_, Nat.le_trans hless hslots'⟩
    have hone : 1 ≤ most budget := Nat.le_max_left _ _
    obtain hfits | hgone | halone := hsmall.fitted hhas hbudget hfit
    · have hcharged := htallied'.len_le
      have hroom : budget / 5 ≤ most budget := Nat.le_max_right _ _
      omega
    · omega
    · omega

/-- A write that is done as it would be without a share has nothing to evict, or nothing but what
it wrote. -/
theorem Small.put_same (h : Small imp s seed t) (hbudget : 0 < budget) {view : Entry.View} {wrote : Wrote}
    (hput : t.put imp p granted budget view.key view.value (Hash.hash view.key seed) view.expiry view.userFlags =
      .ok (.ok wrote, t')) (hsize : view.size ≤ s)
    (hsame : t.put imp p granted 0 view.key view.value (Hash.hash view.key seed) view.expiry view.userFlags =
      .ok (.ok wrote, t')) : t'.chargedBytes ≤ budget ∨ t'.len ≤ 1 := by
  rw [Table.put] at hput hsame
  obtain ⟨⟨res, t₁⟩, hset, hput⟩ := bind_ok_iff.mp hput
  rw [hset, ok_bind] at hsame
  cases res with
  | error full => cases hput
  | ok wrote' =>
    obtain ⟨t₂, hfit, hput⟩ := bind_ok_iff.mp hput
    obtain ⟨t₃, hnone, hsame⟩ := bind_ok_iff.mp hsame
    cases hput
    cases hsame
    rw [Table.evictToFit, if_pos (.inl rfl)] at hnone
    cases hnone
    obtain ⟨hsmall, -, -, hwrote⟩ := h.set hset hsize (by rintro ⟨full, hfull⟩; cases hfull)
    obtain ⟨items, lost, ref, hhas⟩ := hwrote wrote rfl
    obtain hfits | hfewer | halone := hsmall.fitted hhas hbudget hfit
    · exact .inl hfits
    · omega
    · exact .inr halone

end Table

/-! ## The map -/

namespace Map
variable {imp : Imp} {p : Platform} {s shards maxmemory : Nat} {seed : UInt64} {map map' : Map} {act : Act}
  {tr : List (Map × Act × Map)}

inductive Act.Sets (s : Nat) : Act → Prop
  | set {sky key value expiry userFlags answer} : Entry.View.size ⟨key, value, expiry, userFlags⟩ ≤ s →
      Act.Sets s (.op ⟨sky, .key key (.set value expiry userFlags), answer⟩)

/-- A write that was done as without a ceiling, though its shard is over its share for it, and
holds something else. -/
structure Unheeded (imp : Imp) (p : Platform) (map : Map) (act : Act) (map' : Map) : Prop where
  exceeds : ∃ sky key value expiry userFlags wrote shard,
    act = .op ⟨sky, .key key (.set value expiry userFlags), .ok wrote⟩ ∧ map'.shards[map'.home key]? = some shard ∧
      map'.maxmemory < map'.shards.length * shard.charged ∧ 1 < shard.len
  same : Returns imp p map.unlimited act map'.unlimited

/-- A ceiling that is one: however long the writes go on they leave the map charged no more than
some number, and none of them is done as if there were no ceiling. -/
structure Ceiling (imp : Imp) (p : Platform) (shards maxmemory : Nat) (seed : UInt64) (s : Nat) : Prop where
  bounded : ∃ most, ∀ tr map, Run (Returns imp p) (withSeed shards maxmemory seed) tr map →
    (∀ x ∈ tr, x.2.1.Sets s ∧ Unstranded p x.1 x.2.1) → ∀ x ∈ tr, x.2.2.chargedBytes ≤ most
  heeded : ∀ tr map, Run (Returns imp p) (withSeed shards maxmemory seed) tr map →
    (∀ x ∈ tr, x.2.1.Sets s ∧ Unstranded p x.1 x.2.1) → ∀ x ∈ tr, ¬ Unheeded imp p x.1 x.2.1 x.2.2

/-- A map that was made so. -/
structure Made (shards maxmemory : Nat) (seed : UInt64) (map : Map) : Prop where
  length : map.shards.length = shardCount shards
  seeded : map.seed = seed
  limit : map.maxmemory = maxmemory
  budget : map.shardBudget = maxmemory / shardCount shards

theorem made_withSeed (shards maxmemory : Nat) (seed : UInt64) :
    (withSeed shards maxmemory seed).Made shards maxmemory seed :=
  ⟨List.length_replicate, rfl, rfl, rfl⟩

theorem set_eq_ok {sky : Sky} {key value : List UInt8} {expiry userFlags : Option UInt32}
    {answer : Except Full Wrote} (h : map.set imp p sky key value expiry userFlags = .ok (answer, map')) :
    ∃ shard t', map.shards[map.home key]? = some shard ∧
      shard.table.put imp p sky.granted map.shardBudget key value (Hash.hash key map.seed) expiry userFlags =
        .ok (answer, t') ∧
      map' = { map with shards := map.shards.set (map.home key) (shard.publish t') } := withKey_eq_ok h

theorem Made.goes (h : map.Made shards maxmemory seed) (hsets : act.Sets s) (hgoes : Returns imp p map act map') :
    map'.Made shards maxmemory seed := by
  cases hsets with
  | @set sky key value expiry userFlags answer _ =>
    obtain ⟨_, _, -, -, rfl⟩ := set_eq_ok hgoes
    exact ⟨List.length_set.trans h.length, h.seeded, h.limit, h.budget⟩

/-- A shard that has kept to its share. -/
def InShare (imp : Imp) (budget s : Nat) (seed : UInt64) (shard : Shard) : Prop :=
  shard.table.Under imp budget s seed ∧ shard.charged ≤ Table.roof budget s

def AllInShare (imp : Imp) (s : Nat) (map : Map) : Prop :=
  ∀ shard ∈ map.shards, InShare imp map.shardBudget s map.seed shard

theorem inShare_withSeed (imp : Imp) (shards maxmemory s : Nat) (seed : UInt64) :
    (withSeed shards maxmemory seed).AllInShare imp s := by
  intro shard hshard
  rw [List.eq_of_mem_replicate hshard]
  exact ⟨Table.under_new imp _ s seed, Nat.zero_le _⟩

theorem AllInShare.goes (h : map.AllInShare imp s) (hbudget : 0 < map.shardBudget) (hsets : act.Sets s)
    (hkeeps : Unstranded p map act) (hgoes : Returns imp p map act map') : map'.AllInShare imp s := by
  cases hsets with
  | @set sky key value expiry userFlags answer hsize =>
    obtain ⟨shard, t', hshard, hput, rfl⟩ := set_eq_ok hgoes
    have hmem := List.mem_of_getElem? hshard
    have hunder : t'.Under imp map.shardBudget s map.seed :=
      Table.Under.put (h shard hmem).1 hbudget hput hsize (fun hrefused => hkeeps hrefused shard hmem)
    intro other hother
    obtain hother | rfl := List.mem_or_eq_of_mem_set hother
    · exact h other hother
    · exact ⟨hunder, hunder.charged⟩

theorem charged_le {roof : Nat} (h : ∀ shard ∈ map.shards, shard.charged ≤ roof) :
    map.chargedBytes ≤ map.shards.length * roof := by
  have hall := List.sum_le_card_nsmul (map.shards.map Shard.charged) roof
  rw [List.length_map] at hall
  apply hall
  intro charged hcharged
  obtain ⟨shard, hshard, rfl⟩ := List.mem_map.mp hcharged
  exact h shard hshard

theorem published {shard : Shard} {t' : Table} {key : List UInt8} (hshard : map.shards[map.home key]? = some shard) :
    (map.shards.set (map.home key) (shard.publish t'))[map.home key]? = some (shard.publish t') :=
  List.getElem?_set_self (List.getElem?_eq_some_iff.mp hshard).1

/-- A write under a share, of a shard that has kept to it, is not as it would be without one. -/
theorem AllInShare.heeded (h : map.AllInShare imp s) (hmade : map.Made shards maxmemory seed)
    (hbudget : 0 < map.shardBudget) (hsets : act.Sets s) (hgoes : Returns imp p map act map') :
    ¬ Unheeded imp p map act map' := by
  rintro ⟨⟨sky, key, value, expiry, userFlags, wrote, shard', rfl, hshard', hover, hsome⟩, hsame⟩
  obtain ⟨shard, t', hshard, hput, rfl⟩ := set_eq_ok hgoes
  obtain ⟨shard₁, t₁, hshard₁, hput₁, hmap'⟩ := set_eq_ok hsame
  have halike : map.Alike { map with shards := map.shards.set (map.home key) (shard.publish t') } :=
    ⟨List.length_set, rfl, rfl, rfl⟩
  rw [halike.home, published hshard] at hshard'
  cases hshard'
  -- the two maps have one table where it wrote
  obtain rfl : shard = shard₁ := Option.some.inj (hshard.symm.trans hshard₁)
  have hshards : map.shards.set (map.home key) (shard.publish t') = map.shards.set (map.home key) (shard.publish t₁) :=
    congrArg Map.shards hmap'
  have htables : some (shard.publish t') = some (shard.publish t₁) := by
    rw [← published hshard, hshards, published hshard]
  obtain rfl : t' = t₁ := congrArg Shard.table (Option.some.inj htables)
  have hsize : Entry.View.size ⟨key, value, expiry, userFlags⟩ ≤ s := by
    cases hsets
    assumption
  have hshare : map.shardBudget < t'.chargedBytes := by
    have hlength : 0 < map.shards.length := (Nat.zero_le _).trans_lt (List.getElem?_eq_some_iff.mp hshard).1
    change map.maxmemory < (map.shards.set _ _).length * t'.chargedBytes at hover
    rw [List.length_set, Nat.mul_comm] at hover
    rw [hmade.budget, ← hmade.limit, ← hmade.length]
    exact (Nat.div_lt_iff_lt_mul hlength).mpr hover
  obtain hfits | halone := (h shard (List.mem_of_getElem? hshard)).1.small.put_same hbudget hput hsize hput₁
  · omega
  · exact absurd hsome (Nat.not_lt.mpr halone)

/-- The number that its writes keep a map under. -/
def roof (shards maxmemory s : Nat) : Nat := shardCount shards * Table.roof (maxmemory / shardCount shards) s

theorem shardCount_pos (shards : Nat) : 0 < shardCount shards := by
  obtain ⟨k, hk, -⟩ := Table.nextPowerOfTwo_eq (min (max shards 1) maxShards)
  rw [shardCount, hk]
  exact Nat.two_pow_pos k

theorem writes_inShare (hshare : shardCount shards ≤ maxmemory)
    (h : Run (Returns imp p) (withSeed shards maxmemory seed) tr map)
    (hsets : ∀ x ∈ tr, x.2.1.Sets s ∧ Unstranded p x.1 x.2.1) :
    ∀ x ∈ tr, (x.1.Made shards maxmemory seed ∧ x.1.AllInShare imp s) ∧
      x.2.2.Made shards maxmemory seed ∧ x.2.2.AllInShare imp s := by
  have hbudget : ∀ map : Map, map.Made shards maxmemory seed → 0 < map.shardBudget := by
    intro map hmade
    rw [hmade.budget]
    exact Nat.div_pos hshare (shardCount_pos shards)
  have hstep : ∀ (map₁ : Map) (act : Act) (map₂ : Map), (map₁.Made shards maxmemory seed ∧ map₁.AllInShare imp s) →
      act.Sets s ∧ Unstranded p map₁ act → Returns imp p map₁ act map₂ →
      map₂.Made shards maxmemory seed ∧ map₂.AllInShare imp s := by
    intro map₁ act map₂ ⟨hmade, hin⟩ ⟨hset, hkeeps⟩ hgoes
    exact ⟨hmade.goes hset hgoes, hin.goes (hbudget _ hmade) hset hkeeps hgoes⟩
  exact (h.invariant ⟨made_withSeed shards maxmemory seed, inShare_withSeed imp shards maxmemory s seed⟩ hstep hsets).2

theorem goes_of_mem (h : Run (Returns imp p) map tr map') {x : Map × Act × Map} (hx : x ∈ tr) :
    Returns imp p x.1 x.2.1 x.2.2 :=
  ((h.steps (I := fun _ => True) trivial fun _ _ _ _ _ => trivial).2 x hx).2

/-- Where the ceiling leaves the shards nothing, that is taken for none. -/
theorem Made.unlimited (h : map.Made shards maxmemory seed) (hless : maxmemory < shardCount shards) :
    map.unlimited = map := by
  have hzero : map.shardBudget = 0 := by rw [h.budget, Nat.div_eq_of_lt hless]
  rw [Map.unlimited]
  exact hzero ▸ rfl

/-- A ceiling that leaves every shard something is one; and where it leaves them nothing, every
write is that of a map without one. -/
theorem ceiling_defended (imp : Imp) (p : Platform) (shards maxmemory : Nat) (seed : UInt64) (s : Nat) :
    (shardCount shards ≤ maxmemory → Ceiling imp p shards maxmemory seed s) ∧
    (maxmemory < shardCount shards → ∀ tr map, Run (Returns imp p) (withSeed shards maxmemory seed) tr map →
      (∀ x ∈ tr, x.2.1.Sets s) → ∀ x ∈ tr, Returns imp p x.1.unlimited x.2.1 x.2.2.unlimited) := by
  constructor
  · intro hshare
    refine ⟨⟨roof shards maxmemory s, ?_⟩, ?_⟩
    · intro tr map h hsets x hx
      obtain ⟨-, hmade, hin⟩ := writes_inShare hshare h hsets x hx
      have hle := charged_le fun shard hshard => (hin shard hshard).2
      rw [hmade.length, hmade.budget] at hle
      exact hle
    · intro tr map h hsets x hx
      obtain ⟨⟨hmade, hin⟩, -⟩ := writes_inShare hshare h hsets x hx
      have hbudget : 0 < x.1.shardBudget := by
        rw [hmade.budget]
        exact Nat.div_pos hshare (shardCount_pos shards)
      exact hin.heeded hmade hbudget (hsets x hx).1 (goes_of_mem h hx)
  · intro hless tr map h hsets x hx
    obtain ⟨hmade, hmade'⟩ := (h.invariant (C := fun _ act => act.Sets s) (made_withSeed shards maxmemory seed)
      (fun _ _ _ hmade hset hgoes => hmade.goes hset hgoes) hsets).2 x hx
    rw [hmade.unlimited hless, hmade'.unlimited hless]
    exact goes_of_mem h hx

/-- One shard, and a ceiling of 64 bytes. -/
theorem ceiling_defended_one : Ceiling .word .boxed 1 64 0 16 :=
  (ceiling_defended .word .boxed 1 64 0 16).1 (by decide)

open Commands in
/-- Two keys of one shard, of two that a ceiling of one byte is shared by: the second is written as
if there were no ceiling. -/
theorem ceiling_ignored : ¬ Ceiling .word .boxed 2 1 0 16 := by
  obtain ⟨m₁, hm₁⟩ : ∃ map, map = left (withSeed 2 1 0) 0 (.key [0] (.set [1] none none)) := ⟨_, rfl⟩
  obtain ⟨m₂, hm₂⟩ : ∃ map, map = left m₁ 0 (.key [2] (.set [1] none none)) := ⟨_, rfl⟩
  have h₁ : ((withSeed 2 1 0).perform .word .boxed ⟨0, true⟩ (.key [0] (.set [1] none none))).map Prod.fst =
      .ok (.ok .inserted) := by decide +kernel
  have h₂ : (m₁.perform .word .boxed ⟨0, true⟩ (.key [2] (.set [1] none none))).map Prod.fst = .ok (.ok .inserted) := by
    rw [hm₁]
    decide +kernel
  have hshard : (m₂.shards[m₂.home [2]]?).map (fun shard =>
      (shard.len, decide (m₂.maxmemory < m₂.shards.length * shard.charged))) = some (2, true) := by
    rw [hm₂, hm₁]
    decide +kernel
  have hgoes₁ : Returns .word .boxed (withSeed 2 1 0)
      (.op ⟨⟨0, true⟩, .key [0] (.set [1] none none), .ok .inserted⟩) m₁ := hm₁ ▸ performs h₁
  have hgoes₂ : Returns .word .boxed m₁ (.op ⟨⟨0, true⟩, .key [2] (.set [1] none none), .ok .inserted⟩) m₂ :=
    hm₂ ▸ performs h₂
  have hsets : ∀ key, Act.Sets 16 (.op ⟨⟨0, true⟩, .key [key] (.set [1] none none), .ok .inserted⟩) :=
    fun _ => .set (Nat.le_of_lt (by decide : 4 < 16))
  have hmade₁ := (made_withSeed 2 1 0).goes (hsets 0) hgoes₁
  have hmade₂ := hmade₁.goes (hsets 2) hgoes₂
  have hrun := (Run.nil.snoc hgoes₁).snoc hgoes₂
  obtain ⟨shard, hshard', hboth⟩ := Option.map_eq_some_iff.mp hshard
  obtain ⟨hlen, hover⟩ := (Prod.mk.injEq ..).mp hboth
  intro hceiling
  refine hceiling.heeded _ _ hrun ?_ (m₁, _, m₂) (List.mem_append_right _ List.mem_cons_self) ⟨?_, ?_⟩
  · intro x hx
    rw [List.nil_append, List.singleton_append, List.mem_cons, List.mem_singleton] at hx
    obtain rfl | rfl := hx
    · exact ⟨hsets 0, fun ⟨full, hfull⟩ => by cases hfull⟩
    · exact ⟨hsets 2, fun ⟨full, hfull⟩ => by cases hfull⟩
  · exact ⟨_, _, _, _, _, _, shard, rfl, hshard', of_decide_eq_true hover, by omega⟩
  · rw [hmade₁.unlimited (by decide), hmade₂.unlimited (by decide)]
    exact hgoes₂

end Map
end Rugo
