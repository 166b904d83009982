import Rugo.TableSteps

/- The operations that walk the slots: `sweep`, `evictOne`, `clear`. A walk erases
   as it goes, and what it has erased so far stands beside what is left. -/
namespace Rugo.Table
open Exec Probing

variable {imp : Imp} {t : Table} {cells : List (Lane Item)} {F : List Arena.Cell} {lost : Nat}

def leak (items : List Item) : Nat := (items.map leaked).sum

theorem leak_cons (item : Item) (items : List Item) : leak (item :: items) = leaked item + leak items := by
  rw [leak, List.map_cons, List.sum_cons, leak]

/-- Where no reference reads as none, nothing is lost. -/
theorem leak_eq_zero {items : List Item} (h : ∀ item ∈ items, item.ref ≠ Ref.NONE) : leak items = 0 := by
  induction items with
  | nil => rfl
  | cons item items ih =>
    rw [leak_cons, ih fun other ho => h other (List.mem_cons_of_mem _ ho), leaked,
      if_neg (h item List.mem_cons_self)]

theorem Indexed.byte (h : Indexed imp t cells) {i : Nat} {l : Lane Item} (hl : cells[i]? = some l) :
    index t.ctrl i = .ok (byteOf t.seed l) := by
  apply index_of_getElem?
  rw [h.ctrl, List.getElem?_map, hl]
  rfl

/-! ## The sweep -/

theorem Sound.isExpired_ok (h : Sound imp t cells F lost) {i : Nat} {item : Item}
    (hi : cells[i]? = some (.full item)) (now : UInt32) :
    t.isExpired i now = .ok (passed item.view.expiry now) := by
  have hmem := mem_entries.mpr ⟨i, hi⟩
  have hhead : t.headAt ⟨item.ref.bits⟩ = _ := h.stored.headAt_ok hmem
  have hexpiry : t.expiryOf ⟨item.ref.bits⟩ item.view.head = _ := h.stored.expiryOf_ok hmem
  rw [isExpired, h.indexed.slot hi, ok_bind, hhead, ok_bind, hexpiry]
  rfl

theorem Sound.due_ok (h : Sound imp t cells F lost) {i : Nat} {l : Lane Item} (hl : cells[i]? = some l)
    (now : UInt32) : ∃ b, t.due i now = .ok b ∧
      (b = true ↔ ∃ item, l = .full item ∧ passed item.view.expiry now = true) := by
  rw [due, h.indexed.byte hl, ok_bind]
  by_cases hfull : Ctrl.isFull (byteOf t.seed l) = true
  · obtain ⟨item, rfl⟩ := (isFull_byteOf t.seed l).mp hfull
    rw [if_pos hfull, h.isExpired_ok hl]
    refine ⟨_, rfl, ?_⟩
    constructor
    · intro hpassed
      exact ⟨item, rfl, hpassed⟩
    · intro ⟨item', heq, hpassed⟩
      cases heq
      exact hpassed
  · rw [if_neg hfull]
    refine ⟨false, rfl, ?_⟩
    constructor
    · intro hfalse
      cases hfalse
    · intro ⟨item, heq, _⟩
      exact absurd ((isFull_byteOf t.seed l).mpr ⟨item, heq⟩) hfull

/-- How far a sweep has come: what it removed, and what is left. -/
structure Swept (imp : Imp) (t : Table) (items : List Item) (lost : Nat) (now : UInt32) (capacity : Nat)
    (s : Sweep) : Prop where
  at_lt : s.at_ < capacity
  seed : s.table.seed = t.seed
  rest : ∃ cells F gone, Sound imp s.table cells F (lost + leak gone) ∧ cells.length = capacity ∧
    items.Perm (gone ++ entries cells) ∧ s.removed = gone.length ∧
    ∀ item ∈ gone, passed item.view.expiry now = true

theorem Swept.slot_ok {items : List Item} {now : UInt32} {capacity : Nat} {s : Sweep}
    (h : Swept imp t items lost now capacity s) :
    ∃ s', sweepSlot imp now capacity s = .ok s' ∧ Swept imp t items lost now capacity s' := by
  obtain ⟨hat, hseed, cells, F, gone, hsound, hlen, hperm, hremoved, hgone⟩ := h
  have hpos : 0 < capacity := Nat.lt_of_le_of_lt (Nat.zero_le _) hat
  have hnext : (s.at_ + 1) % capacity < capacity := Nat.mod_lt _ hpos
  have hslot := List.getElem?_eq_getElem (hlen.symm ▸ hat)
  obtain ⟨b, hdue, hb⟩ := hsound.due_ok hslot now
  rw [sweepSlot, hdue, ok_bind]
  cases b with
  | false =>
    refine ⟨{ s with at_ := (s.at_ + 1) % capacity }, rfl, hnext, hseed, ?_⟩
    exact ⟨cells, F, gone, hsound, hlen, hperm, hremoved, hgone⟩
  | true =>
    obtain ⟨item, heq, hpassed⟩ := hb.mp rfl
    rw [heq] at hslot
    obtain ⟨t', lane, F', herase, hseed', hfree, hsound'⟩ := hsound.erase_ok hslot
    have hsplit := entries_full hslot lane hfree
    refine ⟨⟨(s.at_ + 1) % capacity, s.removed + 1, t'⟩, ?_, hnext, hseed'.trans hseed, ?_⟩
    · rw [if_pos rfl, herase]
      rfl
    · refine ⟨cells.set s.at_ lane, F', item :: gone, ?_, List.length_set.trans hlen, ?_, ?_, ?_⟩
      · rw [leak_cons, Nat.add_comm (leaked item), ← Nat.add_assoc]
        exact hsound'
      · calc items
          List.Perm _ (gone ++ entries cells) := hperm
          List.Perm _ (gone ++ item :: entries (cells.set s.at_ lane)) := hsplit.append_left gone
          List.Perm _ (item :: gone ++ entries (cells.set s.at_ lane)) := List.perm_middle
      · rw [List.length_cons, ← hremoved]
      · intro other ho
        obtain rfl | ho := List.mem_cons.mp ho
        · exact hpassed
        · exact hgone other ho

/-- A sweep removes expired entries, and says how many. -/
theorem Has.sweep_ok {items : List Item} (h : Has imp t items lost) (from_ budget : Nat) (now : UInt32) :
    ∃ at_ gone rest t', t.sweep imp from_ budget now = .ok ((at_, gone.length), t') ∧ t'.seed = t.seed ∧
      items.Perm (gone ++ rest) ∧ (∀ item ∈ gone, passed item.view.expiry now = true) ∧
      Has imp t' rest (lost + leak gone) := by
  obtain ⟨cells, F, hsound, hperm⟩ := h
  have hself : Has imp t items (lost + leak []) := ⟨cells, F, hsound, hperm⟩
  rw [sweep]
  split
  · exact ⟨from_, [], items, t, rfl, rfl, List.Perm.refl _, by simp, hself⟩
  split
  · exact ⟨0, [], items, t, rfl, rfl, List.Perm.refl _, by simp, hself⟩
  · next _ hslots =>
    have hlen := hsound.indexed.length
    have hpos : 0 < t.slots.length := by
      rw [List.isEmpty_iff] at hslots
      exact List.length_pos_iff.mpr hslots
    have hstart : Swept imp t items lost now t.slots.length ⟨from_ % t.slots.length, 0, t⟩ :=
      ⟨Nat.mod_lt _ hpos, rfl, cells, F, [], hsound, hlen.symm, hperm.symm, rfl, by simp⟩
    obtain ⟨s, hloop, -, hseed, cells', F', gone, hsound', -, hsplit, hremoved, hgone⟩ := forRange_rule
      (I := fun _ s => Swept imp t items lost now t.slots.length s) (n := min budget t.slots.length)
      (f := fun _ => sweepSlot imp now t.slots.length) hstart (fun _ _ _ hs => hs.slot_ok)
    refine ⟨s.at_, gone, entries cells', s.table, ?_, hseed, hsplit, hgone, hsound'.has⟩
    simp only [hloop, ok_bind, hremoved, pure_ok]

/-! ## Eviction -/

theorem Sound.deadline_ok (h : Sound imp t cells F lost) {i : Nat} {item : Item}
    (hi : cells[i]? = some (.full item)) : t.deadline i = .ok (item.view.expiry.getD u32Max) := by
  have hmem := mem_entries.mpr ⟨i, hi⟩
  have hhead : t.headAt ⟨item.ref.bits⟩ = _ := h.stored.headAt_ok hmem
  have hexpiry : t.expiryOf ⟨item.ref.bits⟩ item.view.head = _ := h.stored.expiryOf_ok hmem
  rw [deadline, h.indexed.slot hi, ok_bind, hhead, ok_bind, hexpiry]
  rfl

theorem Indexed.firstFull_ok (h : Indexed imp t cells) (spare : Option Nat) {l : List Nat}
    (hl : ∀ i ∈ l, i < cells.length) :
    ∃ r, t.firstFull spare l = .ok r ∧ match r with
      | none => ∀ i ∈ l, ∀ item, cells[i]? = some (.full item) → some i = spare
      | some i => some i ≠ spare ∧ ∃ item, cells[i]? = some (.full item) := by
  induction l with
  | nil => exact ⟨none, rfl, by simp⟩
  | cons i l ih =>
    have hslot := List.getElem?_eq_getElem (hl i List.mem_cons_self)
    rw [firstFull, h.byte hslot, ok_bind]
    split
    · next hhit =>
      obtain ⟨item, heq⟩ := (isFull_byteOf t.seed _).mp hhit.1
      rw [heq] at hslot
      exact ⟨some i, rfl, hhit.2, item, hslot⟩
    · next hmiss =>
      obtain ⟨r, hr, hspec⟩ := ih fun j hj => hl j (List.mem_cons_of_mem _ hj)
      refine ⟨r, hr, ?_⟩
      cases r with
      | some j => exact hspec
      | none =>
        intro j hj item hitem
        obtain rfl | hj := List.mem_cons.mp hj
        · by_contra hne
          rw [hslot] at hitem
          apply hmiss
          refine ⟨(isFull_byteOf t.seed _).mpr ⟨item, Option.some.inj hitem⟩, hne⟩
        · exact hspec j hj item hitem

theorem turn_to {from_ i len : Nat} (h : i < len) : (from_ + (i + len - from_ % len) % len) % len = i := by
  have hmod := Nat.mod_lt from_ (Nat.lt_of_le_of_lt (Nat.zero_le i) h)
  have hdiv := Nat.div_add_mod from_ len
  have hsum : from_ + (i + len - from_ % len) = i + len * (from_ / len + 1) := by
    rw [Nat.mul_add]
    omega
  rw [Nat.add_mod_mod, hsum, Nat.add_mul_mod_self_left, Nat.mod_eq_of_lt h]

theorem Indexed.nearestFull_ok (h : Indexed imp t cells) (from_ : Nat) (spare : Option Nat) :
    ∃ r, t.nearestFull from_ spare = .ok r ∧ match r with
      | none => ∀ i item, cells[i]? = some (.full item) → some i = spare
      | some i => some i ≠ spare ∧ ∃ item, cells[i]? = some (.full item) := by
  have hlen := h.length
  obtain ⟨r, hr, hspec⟩ := h.firstFull_ok spare
    (l := (List.range t.slots.length).map fun step => (from_ + step) % t.slots.length) (by
      intro i hi
      obtain ⟨step, hstep, rfl⟩ := List.mem_map.mp hi
      have hlt := List.mem_range.mp hstep
      rw [hlen] at hlt ⊢
      exact Nat.mod_lt _ (by omega))
  refine ⟨r, hr, ?_⟩
  cases r with
  | some i => exact hspec
  | none =>
    intro i item hitem
    have hlt := (List.getElem?_eq_some_iff.mp hitem).1
    rw [← hlen] at hlt
    exact hspec i (List.mem_map.mpr ⟨(i + t.slots.length - from_ % t.slots.length) % t.slots.length,
      List.mem_range.mpr (Nat.mod_lt _ (by omega)), turn_to hlt⟩) item hitem

/-- The two slots that a roll comes to. -/
def Sampled (t : Table) (roll : UInt64) (spare : Option Nat) (first second : Nat) : Prop :=
  t.nearestFull (spot (mix roll) t.slots.length) spare = .ok (some first) ∧
  t.nearestFull (spot (mix (mix roll)) t.slots.length) spare = .ok (some second)

/-- What an eviction that takes an entry takes: of the two that are sampled, the one in
slot `i`, which expires no later. -/
structure Takes (imp : Imp) (t : Table) (cells : List (Lane Item)) (lost : Nat) (roll : UInt64) (spare : Option Nat)
    (i : Nat) (item : Item) (t' : Table) : Prop where
  at_ : cells[i]? = some (.full item)
  unspared : some i ≠ spare
  sooner : ∃ j other, cells[j]? = some (.full other) ∧
    (t.Sampled roll spare i j ∨ t.Sampled roll spare j i) ∧
    item.view.expiry.getD u32Max ≤ other.view.expiry.getD u32Max
  seed : t'.seed = t.seed
  rest : ∃ lane F', lane.item? = none ∧ Sound imp t' (cells.set i lane) F' (lost + leaked item)

/-- An eviction takes one entry that is not spared, if there is one. -/
theorem Sound.evictOne_takes (h : Sound imp t cells F lost) (roll : UInt64) (spare : Option Nat) :
    (t.evictOne imp roll spare = .ok (false, t) ∧
      ∀ i item, cells[i]? = some (.full item) → some i = spare) ∨
    ∃ t' i item, t.evictOne imp roll spare = .ok (true, t') ∧ Takes imp t cells lost roll spare i item t' := by
  rw [evictOne]
  split
  · next hzero =>
    refine .inl ⟨rfl, ?_⟩
    intro i item hi
    have hmem := mem_entries.mpr ⟨i, hi⟩
    rw [h.indexed.len, List.length_eq_zero_iff] at hzero
    rw [hzero] at hmem
    cases hmem
  · obtain ⟨first, hfirst, hspec₁⟩ := h.indexed.nearestFull_ok (spot (mix roll) t.slots.length) spare
    obtain ⟨second, hsecond, hspec₂⟩ := h.indexed.nearestFull_ok (spot (mix (mix roll)) t.slots.length) spare
    simp only [hfirst, hsecond, ok_bind]
    cases first with
    | none => exact .inl ⟨rfl, hspec₁⟩
    | some first =>
      cases second with
      | none => exact .inl ⟨rfl, hspec₂⟩
      | some second =>
        obtain ⟨hne₁, item₁, hitem₁⟩ := hspec₁
        obtain ⟨hne₂, item₂, hitem₂⟩ := hspec₂
        simp only [h.deadline_ok hitem₁, h.deadline_ok hitem₂, ok_bind]
        right
        -- whichever of the two expires sooner goes
        split
        · next hle =>
          obtain ⟨t', lane, F', herase, hseed, hfree, hsound⟩ := h.erase_ok hitem₁
          refine ⟨t', first, item₁, by rw [herase]; rfl, hitem₁, hne₁, ?_, hseed, lane, F', hfree, hsound⟩
          exact ⟨second, item₂, hitem₂, .inl ⟨hfirst, hsecond⟩, hle⟩
        · next hlt =>
          obtain ⟨t', lane, F', herase, hseed, hfree, hsound⟩ := h.erase_ok hitem₂
          refine ⟨t', second, item₂, by rw [herase]; rfl, hitem₂, hne₂, ?_, hseed, lane, F', hfree, hsound⟩
          exact ⟨first, item₁, hitem₁, .inr ⟨hfirst, hsecond⟩, UInt32.le_of_lt (UInt32.not_le.mp hlt)⟩

theorem Sound.evictOne_ok (h : Sound imp t cells F lost) (roll : UInt64) (spare : Option Nat) :
    (t.evictOne imp roll spare = .ok (false, t) ∧
      ∀ i item, cells[i]? = some (.full item) → some i = spare) ∨
    ∃ t' i item rest, t.evictOne imp roll spare = .ok (true, t') ∧ t'.seed = t.seed ∧
      cells[i]? = some (.full item) ∧ some i ≠ spare ∧ (entries cells).Perm (item :: rest) ∧
      Has imp t' rest (lost + leaked item) := by
  obtain hnone | ⟨t', i, item, hevict, htakes⟩ := h.evictOne_takes roll spare
  · exact .inl hnone
  · obtain ⟨lane, F', hfree, hsound⟩ := htakes.rest
    exact .inr ⟨t', i, item, _, hevict, htakes.seed, htakes.at_, htakes.unspared,
      entries_full htakes.at_ lane hfree, hsound.has⟩

/-! ## Clearing -/

/-- Giving any of these blocks back keeps this of an arena. -/
def Spared (items : List Item) (P : Arena → Prop) : Prop :=
  ∀ item ∈ items, ∀ arena arena', P arena → arena.free item.ref item.view.head.size = .ok arena' → P arena'

/-- How far a clear has come, and what it has kept of the arena. -/
structure Cleared (t : Table) (cells : List (Lane Item)) (P : Arena → Prop) (lost n : Nat) (t' : Table) : Prop where
  ctrl : t'.ctrl = (List.replicate n Lane.empty ++ cells.drop n).map (byteOf t.seed)
  slots : t'.slots = (List.replicate n Lane.empty ++ cells.drop n).map bitsOf
  seed : t'.seed = t.seed
  rest : ∃ F gone, Stored t'.arena (entries (cells.drop n)) F (lost + leak gone) ∧
    (entries cells).Perm (gone ++ entries (cells.drop n))
  kept : P t'.arena

theorem Cleared.slot_ok {P : Arena → Prop} {n : Nat} {t' : Table} (h : Cleared t cells P lost n t')
    (hspared : Spared (entries cells) P) (hn : n < cells.length) :
    ∃ t'', clearSlot n t' = .ok t'' ∧ Cleared t cells P lost (n + 1) t'' := by
  obtain ⟨F, gone, hstored, hperm⟩ := h.rest
  have hdrop : cells.drop n = cells[n] :: cells.drop (n + 1) := List.drop_eq_getElem_cons hn
  have hat : (List.replicate n Lane.empty ++ cells.drop n)[n]? = some cells[n] := by
    rw [List.getElem?_append_right (by rw [List.length_replicate]), List.length_replicate, Nat.sub_self, hdrop]
    rfl
  have hnext : (List.replicate n Lane.empty ++ cells.drop n).set n Lane.empty =
      List.replicate (n + 1) Lane.empty ++ cells.drop (n + 1) := by
    rw [hdrop, List.set_append_right _ _ (by rw [List.length_replicate]), List.length_replicate, Nat.sub_self,
      List.set_cons_zero, List.replicate_succ', List.append_assoc]
    rfl
  have hbyte : index t'.ctrl n = .ok (byteOf t.seed cells[n]) := by
    apply index_of_getElem?
    rw [h.ctrl, List.getElem?_map, hat]
    rfl
  have hlen : n < (List.replicate n Lane.empty ++ cells.drop n).length := (List.getElem?_eq_some_iff.mp hat).1
  have hctrl : update t'.ctrl n Ctrl.empty =
      .ok ((List.replicate (n + 1) Lane.empty ++ cells.drop (n + 1)).map (byteOf t.seed)) := by
    rw [h.ctrl, update_ok (by rw [List.length_map]; exact hlen), ← hnext, List.map_set]
    rfl
  have hslots : update t'.slots n Ref.NONE.bits =
      .ok ((List.replicate (n + 1) Lane.empty ++ cells.drop (n + 1)).map bitsOf) := by
    rw [h.slots, update_ok (by rw [List.length_map]; exact hlen), ← hnext, List.map_set]
    rfl
  -- the block of the slot is given back, where there is one
  have hrelease : ∃ arena F' gone', t'.release n = .ok arena ∧
      Stored arena (entries (cells.drop (n + 1))) F' (lost + leak gone') ∧
      (entries cells).Perm (gone' ++ entries (cells.drop (n + 1))) ∧ P arena := by
    rw [release, hbyte, ok_bind]
    rw [hdrop, entries_cons] at hstored hperm
    by_cases hfull : Ctrl.isFull (byteOf t.seed cells[n]) = true
    · obtain ⟨item, heq⟩ := (isFull_byteOf t.seed _).mp hfull
      rw [heq] at hstored hperm hat
      have hslot : index t'.slots n = .ok item.ref.bits := by
        apply index_of_getElem?
        rw [h.slots, List.getElem?_map, hat]
        rfl
      have hhead : t'.headAt ⟨item.ref.bits⟩ = _ := hstored.headAt_ok List.mem_cons_self
      obtain ⟨arena, F', hfree, hstored'⟩ := hstored.free_ok
      have hmem : item ∈ entries cells := mem_entries.mpr ⟨n, heq ▸ List.getElem?_eq_getElem hn⟩
      refine ⟨arena, F', item :: gone, ?_, ?_, ?_, hspared item hmem _ _ h.kept hfree⟩
      · rw [if_pos hfull, hslot, ok_bind, hhead, ok_bind]
        exact hfree
      · rw [leak_cons, Nat.add_comm (leaked item), ← Nat.add_assoc]
        exact hstored'
      · exact hperm.trans List.perm_middle
    · have hfree : cells[n].item? = none := by
        cases hentry : cells[n].item? with
        | none => rfl
        | some item => exact absurd ((isFull_byteOf t.seed _).mpr ⟨item, Lane.item?_eq_some.mp hentry⟩) hfull
      rw [hfree] at hstored hperm
      exact ⟨t'.arena, F, gone, by rw [if_neg hfull]; rfl, hstored, hperm, h.kept⟩
  obtain ⟨arena, F', gone', hrel, hstored', hperm', hkept⟩ := hrelease
  rw [clearSlot, hrel, ok_bind, hctrl, ok_bind, hslots, ok_bind]
  exact ⟨_, rfl, rfl, rfl, h.seed, ⟨F', gone', hstored', hperm'⟩, hkept⟩

theorem Has.clear_keeps {items : List Item} (h : Has imp t items lost) {P : Arena → Prop} (hspared : Spared items P)
    (hP : P t.arena) : ∃ t', t.clear = .ok t' ∧ t'.seed = t.seed ∧ Has imp t' [] (lost + leak items) ∧
      t'.slots.length = t.slots.length ∧ P t'.arena := by
  obtain ⟨cells, F, hsound, hperm⟩ := h
  have hspared' : Spared (entries cells) P := fun item hitem => hspared item (hperm.mem_iff.mp hitem)
  have hstart : Cleared t cells P lost 0 t :=
    ⟨hsound.indexed.ctrl, hsound.indexed.slots, rfl, ⟨F, [], hsound.stored, List.Perm.refl _⟩, hP⟩
  have hlen := hsound.indexed.length
  -- the slots walked are empty, and what was in them is freed
  obtain ⟨t', hloop, hcleared⟩ := forRange_rule (I := fun n t' => Cleared t cells P lost n t')
    (n := t.slots.length) (f := clearSlot) hstart (fun i hi t' h => h.slot_ok hspared' (hlen ▸ hi))
  rw [hlen] at hcleared
  obtain ⟨F', gone, hstored, hsplit⟩ := hcleared.rest
  -- at the end that is everything
  have hgone : (entries cells).Perm gone := by
    rw [List.drop_length] at hsplit
    simpa [entries] using hsplit
  have hcells : List.replicate cells.length Lane.empty ++ cells.drop cells.length =
      List.replicate cells.length Lane.empty := by
    rw [List.drop_length, List.append_nil]
  have hctrl := hcleared.ctrl
  have hslots := hcleared.slots
  rw [hcells] at hctrl hslots
  have hleak : leak items = leak gone := ((hperm.symm.trans hgone).map leaked).sum_eq
  refine ⟨{ t' with len := 0, tombstones := 0, timed := 0, growthLeft := t'.slots.length * loadNum / loadDen },
    ?_, hcleared.seed, ⟨List.replicate cells.length Lane.empty, F', ⟨?_, ?_⟩, ?_⟩, ?_, hcleared.kept⟩
  · rw [clear, hloop]
    rfl
  · refine ⟨hctrl.trans (by rw [← hcleared.seed]), hslots, ?_, ?_, ?_, ?_, ?_, ?_⟩
    · obtain hnil | ⟨hmin, k, hplaced⟩ := hsound.indexed.laid
      · rw [hnil]
        exact .inl rfl
      · refine .inr ⟨by rw [List.length_replicate]; exact hmin, k, ?_⟩
        rw [hplaced.length]
        exact placed_replicate
    · rw [entries_replicate]
      exact List.nodup_nil
    · rw [entries_replicate]
      rfl
    · rw [Probing.tombs, eq_comm, List.countP_eq_zero]
      intro l hl
      rw [List.eq_of_mem_replicate hl]
      exact Bool.false_ne_true
    · rw [entries_replicate]
      rfl
    · simp only [hslots, List.length_map]
      rfl
  · rw [entries_replicate, hleak]
    rw [List.drop_length] at hstored
    exact hstored
  · rw [entries_replicate]
  · rw [hlen, show _ = _ from hslots, List.length_map, List.length_replicate]

theorem Has.clear_ok {items : List Item} (h : Has imp t items lost) :
    ∃ t', t.clear = .ok t' ∧ t'.seed = t.seed ∧ Has imp t' [] (lost + leak items) := by
  have hspared : Spared items fun _ => True := fun _ _ _ _ _ _ => trivial
  obtain ⟨t', hclear, hseed, hhas, -, -⟩ := h.clear_keeps hspared trivial
  exact ⟨t', hclear, hseed, hhas⟩

end Rugo.Table
