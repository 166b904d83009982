import Rugo.TableLayout

/- What each operation of a table does to its lanes. An operation is one write of
   a lane (`Indexed.set`), a rebuild, or a walk over the slots; what it does to
   the arena is said by the arena's own lemmas. -/
namespace Rugo.Table
open Exec Probing Triangular Words

variable {imp : Imp} {t : Table} {cells : List (Lane Item)} {F : List Arena.Cell} {lost : Nat}

/-! ## One lane written -/

def timedOf (items : List Item) : Nat := items.countP fun item => item.view.expiry.isSome

theorem Indexed.set (h : Indexed imp t cells) {i : Nat} {old new : Lane Item} (hold : cells[i]? = some old)
    {t' : Table} (hseed : t'.seed = t.seed) (hctrl : t'.ctrl = t.ctrl.set i (byteOf t.seed new))
    (hslots : t'.slots = t.slots.set i (bitsOf new)) (hlaid : Laid imp t.seed (cells.set i new))
    (hkeys : ((entries (cells.set i new)).map fun item => item.view.key).Nodup)
    (hlen : t'.len + old.item?.toList.length = t.len + new.item?.toList.length)
    (htombs : t'.tombstones + (if old.isTomb then 1 else 0) = t.tombstones + (if new.isTomb then 1 else 0))
    (htimed : t'.timed + timedOf old.item?.toList = t.timed + timedOf new.item?.toList)
    (hgrowth : t'.growthLeft + t'.len + t'.tombstones = t.growthLeft + t.len + t.tombstones) :
    Indexed imp t' (cells.set i new) := by
  have hperm := entries_set hold new
  have hcount : new.item?.toList.length + (entries cells).length =
      old.item?.toList.length + (entries (cells.set i new)).length := by
    rw [← List.length_append, ← List.length_append]
    exact hperm.length_eq
  have hexpiry : timedOf new.item?.toList + timedOf (entries cells) =
      timedOf old.item?.toList + timedOf (entries (cells.set i new)) := by
    rw [timedOf, timedOf, timedOf, timedOf, ← List.countP_append, ← List.countP_append]
    exact hperm.countP_eq _
  have htomb := tombs_set hold new
  have hlen0 := h.len
  have htombs0 := h.tombstones
  have htimed0 : t.timed = timedOf (entries cells) := h.timed
  refine ⟨?_, ?_, ?_, hkeys, by omega, by omega, ?_, ?_⟩
  · rw [hctrl, hseed, h.ctrl, List.map_set]
  · rw [hslots, h.slots, List.map_set]
  · rw [hseed]
    exact hlaid
  · have hgoal : t'.timed = timedOf (entries (cells.set i new)) := by omega
    exact hgoal
  · rw [hgrowth, List.length_set]
    exact h.growth

theorem Indexed.placed (h : Indexed imp t cells) {i : Nat} {l : Lane Item} (hi : cells[i]? = some l) :
    minCapacity ≤ cells.length ∧ ∃ k, Placed imp.width k (homeOf t.seed (2 ^ k - 1)) cells := by
  obtain hnil | hlaid := h.laid
  · rw [hnil] at hi
    cases hi
  · exact hlaid

theorem retime_ok (t : Table) {was : Bool} (now : Bool) (h : was = true → 0 < t.timed) :
    ∃ timed, t.retime was now = .ok { t with timed } ∧ timed + was.toNat = t.timed + now.toNat := by
  cases was with
  | false =>
    cases now with
    | false => exact ⟨t.timed, rfl, rfl⟩
    | true => exact ⟨t.timed + 1, rfl, rfl⟩
  | true =>
    cases now with
    | false =>
      have hpos := h rfl
      refine ⟨t.timed - 1, ?_, Nat.sub_add_cancel hpos⟩
      simp only [retime, Bool.not_false, Bool.and_true, if_true, minus_ok hpos, ok_bind, pure_ok]
    | true => exact ⟨t.timed, rfl, rfl⟩

theorem retime_arena {t' : Table} {was now : Bool} (h : t.retime was now = .ok t') : t'.arena = t.arena := by
  rw [retime] at h
  split at h
  · obtain ⟨timed, -, h⟩ := bind_ok_iff.mp h
    cases h
    rfl
  · split at h <;> cases h <;> rfl

theorem timedOf_toList (item : Item) : timedOf (Lane.full item).item?.toList = item.view.expiry.isSome.toNat := by
  cases h : item.view.expiry <;> simp [timedOf, Lane.item?, h]

/-- What is lost when a block is given back: the block itself, where its reference
reads as the absence of one. -/
def leaked (item : Item) : Nat := if item.ref = Ref.NONE then (Entry.encode item.view).length else 0

theorem Stored.free_ok {arena : Arena} {item : Item} {items : List Item}
    (h : Stored arena (item :: items) F lost) :
    ∃ arena' F', arena.free item.ref item.view.head.size = .ok arena' ∧
      Stored arena' items F' (lost + leaked item) := by
  have hsize := h.head_size List.mem_cons_self
  have hshort : ∀ other ∈ items, Entry.Short other.view := fun other ho =>
    h.short other (List.mem_cons_of_mem _ ho)
  rw [hsize]
  by_cases hnone : item.ref = Ref.NONE
  · obtain ⟨hfree, hholds⟩ := Arena.free_none h.holds hnone
    refine ⟨arena, F, hfree, ?_, hshort⟩
    rw [leaked, if_pos hnone]
    exact hholds
  · obtain ⟨arena', F', hfree, hholds⟩ := Arena.free_ok h.holds hnone
    refine ⟨arena', F', hfree, ?_, hshort⟩
    rw [leaked, if_neg hnone]
    exact hholds

/-! ## Erasing -/

theorem entries_full {i : Nat} {item : Item} (hi : cells[i]? = some (.full item)) (lane : Lane Item)
    (hfree : lane.item? = none) : (entries cells).Perm (item :: entries (cells.set i lane)) := by
  have hperm := entries_set hi lane
  rw [hfree] at hperm
  exact hperm

theorem entries_free {i : Nat} {l : Lane Item} (hl : cells[i]? = some l) (hfree : l.item? = none)
    (item : Item) : (entries (cells.set i (.full item))).Perm (item :: entries cells) := by
  have hperm := entries_set hl (.full item)
  rw [hfree] at hperm
  exact hperm.symm

theorem Indexed.vacate_ok (h : Indexed imp t cells) {i : Nat} {item : Item}
    (hi : cells[i]? = some (.full item)) :
    ∃ lane growthLeft tombstones, t.vacate imp i = .ok
        { t with ctrl := t.ctrl.set i (byteOf t.seed lane), growthLeft, tombstones } ∧
      lane.item? = none ∧ Laid imp t.seed (cells.set i lane) ∧
      bitsOf lane = Ref.NONE.bits ∧
      tombstones = t.tombstones + (if lane.isTomb then 1 else 0) ∧
      growthLeft + tombstones = t.growthLeft + t.tombstones + 1 := by
  obtain ⟨hmin, k, hplaced⟩ := h.placed hi
  have hlen := hplaced.length
  have hdiv := div_lt (width_pos imp) hlen hi
  have hbase : i - i % imp.width = i / imp.width * imp.width := by
    have := Nat.div_add_mod' i imp.width
    omega
  have hgroup : t.groupAt imp (i - i % imp.width) =
      .ok ((group imp.width cells (i / imp.width)).map (byteOf t.seed)) := by
    rw [groupAt, h.ctrl, hbase]
    exact slice_group hlen hdiv
  have hlt : i < t.ctrl.length := by
    rw [h.ctrl, List.length_map]
    exact (List.getElem?_eq_some_iff.mp hi).1
  have hlaid : ∀ lane : Lane Item, lane.item? = none →
      (lane = .empty → Lane.empty ∈ group imp.width cells (i / imp.width)) →
      Laid imp t.seed (cells.set i lane) := by
    intro lane hfree hempty
    refine .inr ⟨?_, k, hplaced.erase (width_pos imp) hfree hempty⟩
    rw [List.length_set]
    exact hmin
  rw [vacate, hgroup, ok_bind]
  -- an empty lane in its group ends every walk there already; else the lane must not
  by_cases hempty : Lane.empty ∈ group imp.width cells (i / imp.width)
  · rw [if_pos ((any_matchEmpty_group hlen hdiv).mpr hempty), update_ok hlt]
    refine ⟨.empty, t.growthLeft + 1, t.tombstones, rfl, rfl, hlaid _ rfl fun _ => hempty, rfl, rfl, ?_⟩
    omega
  · rw [if_neg ((any_matchEmpty_group hlen hdiv).not.mpr hempty), update_ok hlt]
    refine ⟨.tomb, t.growthLeft, t.tombstones + 1, rfl, rfl, hlaid _ rfl ?_, rfl, rfl, rfl⟩
    intro heq
    cases heq

theorem Sound.erase_ok (h : Sound imp t cells F lost) {i : Nat} {item : Item}
    (hi : cells[i]? = some (.full item)) :
    ∃ t' lane F', t.erase imp i = .ok t' ∧ t'.seed = t.seed ∧ lane.item? = none ∧
      Sound imp t' (cells.set i lane) F' (lost + leaked item) := by
  have hmem := mem_entries.mpr ⟨i, hi⟩
  obtain ⟨lane, growthLeft, tombstones, hvacate, hfree, hlaid, hbits, htombs, hgrowth⟩ :=
    h.indexed.vacate_ok hi
  have hperm := entries_full hi lane hfree
  obtain ⟨arena, F', hgive, hstored⟩ := (h.stored.perm hperm).free_ok
  have hcount : t.len = (entries (cells.set i lane)).length + 1 := by
    rw [h.indexed.len, hperm.length_eq, List.length_cons]
  have hlt : i < t.slots.length := by
    rw [h.indexed.length]
    exact (List.getElem?_eq_some_iff.mp hi).1
  -- the count of timed entries counts this one
  have hpos : item.view.head.timed = true → 0 < t.timed := by
    intro htimed
    rw [Entry.View.head_timed] at htimed
    rw [h.indexed.timed]
    exact List.countP_pos_iff.mpr ⟨item, hmem, htimed⟩
  obtain ⟨timed, hretime, hsum⟩ := retime_ok
    { t with
      ctrl := t.ctrl.set i (byteOf t.seed lane), growthLeft, tombstones
      slots := t.slots.set i Ref.NONE.bits, arena, len := t.len - 1 } false hpos
  have hhead : t.headAt ⟨item.ref.bits⟩ = _ := h.stored.headAt_ok hmem
  have hminus : minus t.len 1 = .ok (t.len - 1) := minus_ok (by omega)
  have hupdate : update t.slots i Ref.NONE.bits = .ok (t.slots.set i Ref.NONE.bits) := update_ok hlt
  have hgive' : t.arena.free ⟨item.ref.bits⟩ item.view.head.size = .ok arena := hgive
  refine ⟨{ t with
      ctrl := t.ctrl.set i (byteOf t.seed lane), growthLeft, tombstones
      slots := t.slots.set i Ref.NONE.bits, arena, len := t.len - 1, timed },
    lane, F', ?_, rfl, hfree, ⟨?_, hstored⟩⟩
  · rw [erase, h.indexed.slot hi, ok_bind, hhead, ok_bind, hvacate, ok_bind]
    simp only [hupdate, hgive', hminus, ok_bind]
    exact hretime
  · rw [Entry.View.head_timed] at hsum
    refine h.indexed.set hi ?_ ?_ ?_ hlaid ?_ ?_ ?_ ?_ ?_
    · rfl
    · rfl
    · simp only [hbits]
    · have hkeys := (hperm.map fun item => item.view.key).nodup_iff.mp h.indexed.keys
      exact (List.nodup_cons.mp hkeys).2
    · rw [hfree]
      change t.len - 1 + 1 = t.len + 0
      omega
    · simp only [htombs, Lane.isTomb, Bool.false_eq_true, if_false]
      rfl
    · rw [timedOf_toList, hfree]
      exact hsum
    · simp only
      omega

/-! ## Free lanes -/

section free
variable {k : Nat} {seed : UInt64}

theorem matchEmpty_picks (hlen : cells.length = 2 ^ k * imp.width) (seed : UInt64) (g : Nat) (hg : g < 2 ^ k) :
    match imp.lowest (imp.matchEmpty ((group imp.width cells g).map (byteOf seed))) with
      | none => ∀ l ∈ group imp.width cells g, ¬ l = .empty
      | some lane => ∃ l, (group imp.width cells g)[lane]? = some l ∧ l = .empty := by
  have hwidth : ((group imp.width cells g).map (byteOf seed)).length = imp.width := by
    rw [List.length_map]
    exact group_length hlen hg
  have hvalid : ∀ b ∈ (group imp.width cells g).map (byteOf seed), Ctrl.Valid b := by
    intro b hb
    obtain ⟨l, -, rfl⟩ := List.mem_map.mp hb
    exact valid_byteOf seed l
  have hlow := Imp.lowest_matchEmpty hwidth hvalid
  cases hl : imp.lowest (imp.matchEmpty ((group imp.width cells g).map (byteOf seed))) with
  | none =>
    rw [hl] at hlow
    intro l hmem heq
    apply hlow
    rw [heq] at hmem
    exact List.mem_map.mpr ⟨.empty, hmem, rfl⟩
  | some lane =>
    rw [hl] at hlow
    simp only [List.getElem?_map] at hlow
    obtain ⟨l, hlane, heq⟩ := Option.map_eq_some_iff.mp hlow
    exact ⟨l, hlane, (byteOf_eq_empty seed l).mp heq⟩

theorem matchFree_picks (hlen : cells.length = 2 ^ k * imp.width) (seed : UInt64) (g : Nat) (hg : g < 2 ^ k) :
    match imp.lowest (imp.matchFree ((group imp.width cells g).map (byteOf seed))) with
      | none => ∀ l ∈ group imp.width cells g, ¬ l.item? = none
      | some lane => ∃ l, (group imp.width cells g)[lane]? = some l ∧ l.item? = none := by
  have hwidth : ((group imp.width cells g).map (byteOf seed)).length = imp.width := by
    rw [List.length_map]
    exact group_length hlen hg
  have hlow := Imp.lowest_matchFree hwidth
  cases hl : imp.lowest (imp.matchFree ((group imp.width cells g).map (byteOf seed))) with
  | none =>
    rw [hl] at hlow
    intro l hmem hnone
    obtain ⟨item, rfl⟩ := (isFull_byteOf seed l).mp (hlow _ (List.mem_map_of_mem hmem))
    cases hnone
  | some lane =>
    rw [hl] at hlow
    obtain ⟨b, hb, hfree⟩ := hlow
    rw [List.getElem?_map] at hb
    obtain ⟨l, hlane, rfl⟩ := Option.map_eq_some_iff.mp hb
    refine ⟨l, hlane, ?_⟩
    cases hentry : l.item? with
    | none => rfl
    | some item =>
      rw [(isFull_byteOf seed l).mpr ⟨item, Lane.item?_eq_some.mp hentry⟩] at hfree
      cases hfree

end free

/-! ## Rebuilding -/

/-- The arrays a rebuild has filled so far, with the entries of these lanes. -/
structure Building (imp : Imp) (seed : UInt64) (k : Nat) (done : List (Lane Item)) (new : Arrays)
    (fresh : List (Lane Item)) : Prop where
  ctrl : new.ctrl = fresh.map (byteOf seed)
  slots : new.slots = fresh.map bitsOf
  placed : Placed imp.width k (homeOf seed (2 ^ k - 1)) fresh
  perm : (entries fresh).Perm (entries done)
  tombs : tombs fresh = 0

theorem Building.place_ok {k : Nat} {done fresh : List (Lane Item)} {new : Arrays}
    (h : Building imp t.seed k done new fresh) (hi : Indexed imp t cells)
    (hs : Stored t.arena (entries cells) F lost) {at_ : Nat} {l : Lane Item} (hl : cells[at_]? = some l)
    (hroom : (entries done).length < 2 ^ k * imp.width) :
    ∃ new' fresh', t.place imp (2 ^ k - 1) at_ new = .ok new' ∧
      Building imp t.seed k (done ++ [l]) new' fresh' := by
  have hdone : entries (done ++ [l]) = entries done ++ l.item?.toList := by
    rw [entries, List.filterMap_append, ← entries, ← entries, entries_cons]
    simp [entries]
  have hbyte : index t.ctrl at_ = .ok (byteOf t.seed l) := by
    apply index_of_getElem?
    rw [hi.ctrl, List.getElem?_map, hl]
    rfl
  rw [place, hbyte, ok_bind]
  cases l with
  | empty =>
    have hfree : (!Ctrl.isFull (byteOf t.seed .empty)) = true := by
      rw [byteOf, Ctrl.isFull_empty, Bool.not_false]
    rw [if_pos hfree]
    refine ⟨new, fresh, rfl, h.ctrl, h.slots, h.placed, ?_, h.tombs⟩
    rw [hdone]
    simpa [Lane.item?] using h.perm
  | tomb =>
    have hfree : (!Ctrl.isFull (byteOf t.seed .tomb)) = true := by
      rw [byteOf, Ctrl.isFull_deleted, Bool.not_false]
    rw [if_pos hfree]
    refine ⟨new, fresh, rfl, h.ctrl, h.slots, h.placed, ?_, h.tombs⟩
    rw [hdone]
    simpa [Lane.item?] using h.perm
  | full item =>
    have hlen := h.placed.length
    have hmem := mem_entries.mpr ⟨at_, hl⟩
    have hfull : ¬ (!Ctrl.isFull (byteOf t.seed (.full item))) = true := by
      rw [(isFull_byteOf t.seed (.full item)).mpr ⟨item, rfl⟩]
      decide
    have hentry : t.entryAt ⟨item.ref.bits⟩ = _ := hs.entryAt_ok hmem
    -- fewer entries than slots and no tombstone: the walk comes to an empty one
    have hempty : Lane.empty ∈ fresh := by
      have hcount := length_eq fresh
      rw [h.perm.length_eq, h.tombs] at hcount
      have hpos : 0 < fresh.countP Lane.isEmpty := by
        rw [Probing.empties] at hcount
        omega
      obtain ⟨l, hl', hisEmpty⟩ := List.countP_pos_iff.mp hpos
      rw [Lane.isEmpty_iff.mp hisEmpty] at hl'
      exact hl'
    obtain ⟨i, l, n, hwalk, hslot, hfree, hn, hgroup, hpass⟩ :=
      walkTo_ok hlen (fun l => l = .empty) rfl (matchEmpty_picks hlen t.seed) hempty
        (home_lt k (Hash.hash item.view.key t.seed))
    rw [hfree] at hslot
    have hlt := (List.getElem?_eq_some_iff.mp hslot).1
    have hmask : 2 ^ k - 1 + 1 = 2 ^ k := Nat.sub_add_cancel Nat.one_le_two_pow
    rw [if_neg hfull, hi.slot hl, ok_bind, hentry]
    simp only [ok_bind, Entry.key_encode]
    rw [h.ctrl, hmask, hwalk, ok_bind, update_ok (by rw [List.length_map]; exact hlt), ok_bind, h.slots,
      update_ok (by rw [List.length_map]; exact hlt), ok_bind]
    refine ⟨_, fresh.set i (.full item), rfl, ?_, ?_, h.placed.insert (width_pos imp) hn hgroup hpass, ?_, ?_⟩
    · rw [List.map_set]
      rfl
    · rw [List.map_set]
      rfl
    · have hperm := entries_set hslot (.full item)
      rw [hdone]
      calc entries (fresh.set i (.full item))
        List.Perm _ (item :: entries fresh) := hperm.symm
        List.Perm _ (item :: entries done) := h.perm.cons item
        List.Perm _ (entries done ++ [item]) := (List.perm_append_singleton item _).symm
    · have htombs := tombs_set hslot (.full item)
      rw [h.tombs] at htombs
      exact htombs

/-- A rebuild keeps the entries, and drops the tombstones. -/
theorem Sound.rehash_ok (h : Sound imp t cells F lost) {capacity k : Nat}
    (hcap : capacity = 2 ^ k * imp.width) (hmin : minCapacity ≤ capacity)
    (hroom : t.len ≤ capacity * loadNum / loadDen) :
    ∃ t' cells', t.rehash imp capacity = .ok t' ∧ Sound imp t' cells' F lost ∧
      (entries cells').Perm (entries cells) ∧ t'.seed = t.seed ∧ t'.arena = t.arena ∧
      t'.growthLeft = capacity * loadNum / loadDen - t.len ∧ cells'.length = capacity := by
  have hpos : 0 < 2 ^ k := Nat.two_pow_pos k
  have hless : t.len < capacity := by
    have hload : capacity * loadNum / loadDen = capacity * 7 / 8 := rfl
    have hmin' : minCapacity = 16 := rfl
    omega
  have hgroups : minus (capacity / imp.width) 1 = .ok (2 ^ k - 1) := by
    rw [hcap, Nat.mul_div_cancel _ (width_pos imp), minus_ok hpos]
  have hstart : Building imp t.seed k [] ⟨List.replicate capacity Ctrl.empty,
      List.replicate capacity Ref.NONE.bits⟩ (List.replicate (2 ^ k * imp.width) .empty) := by
    refine ⟨?_, ?_, placed_replicate, ?_, ?_⟩
    · rw [hcap, List.map_replicate]
      rfl
    · rw [hcap, List.map_replicate]
      rfl
    · rw [entries_replicate]
      exact List.Perm.refl _
    · rw [Probing.tombs, List.countP_eq_zero]
      intro l hl
      rw [List.eq_of_mem_replicate hl]
      exact Bool.false_ne_true
  -- what of the old slots has been walked is in the new ones
  obtain ⟨new, hloop, fresh, hbuilt⟩ := forRange_rule
    (I := fun n new => ∃ fresh, Building imp t.seed k (cells.take n) new fresh)
    (n := t.slots.length) (f := t.place imp (2 ^ k - 1)) ⟨_, hstart⟩ (by
      rintro i hi new ⟨fresh, hbuild⟩
      rw [h.indexed.length] at hi
      have hle : (entries (cells.take i)).length ≤ (entries cells).length :=
        ((List.take_sublist i cells).filterMap _).length_le
      have hlen := h.indexed.len
      obtain ⟨new', fresh', hplace, hbuild'⟩ :=
        hbuild.place_ok h.indexed h.stored (List.getElem?_eq_getElem hi) (by omega)
      rw [List.take_append_getElem hi] at hbuild'
      exact ⟨new', hplace, fresh', hbuild'⟩)
  rw [h.indexed.length, List.take_length] at hbuilt
  have hcount : t.len = (entries fresh).length := by
    rw [h.indexed.len, hbuilt.perm.length_eq]
  refine ⟨{ t with
      ctrl := new.ctrl, slots := new.slots, tombstones := 0
      growthLeft := capacity * loadNum / loadDen - t.len }, fresh, ?_, ⟨?_, ?_⟩, hbuilt.perm, rfl, rfl, rfl, ?_⟩
  · rw [rehash, hgroups, ok_bind, hloop, ok_bind, minus_ok hroom]
    rfl
  · refine ⟨hbuilt.ctrl, hbuilt.slots, .inr ⟨?_, k, hbuilt.placed⟩, ?_, hcount, hbuilt.tombs.symm, ?_, ?_⟩
    · rw [hbuilt.placed.length, ← hcap]
      exact hmin
    · exact (hbuilt.perm.map _).nodup_iff.mpr h.indexed.keys
    · exact h.indexed.timed.trans (hbuilt.perm.countP_eq _).symm
    · rw [hbuilt.placed.length, ← hcap]
      simp only
      omega
  · exact h.stored.perm hbuilt.perm.symm
  · rw [hbuilt.placed.length, hcap]

theorem groups_of_pow (imp : Imp) {m : Nat} (h : minCapacity ≤ 2 ^ m) : ∃ k, 2 ^ m = 2 ^ k * imp.width := by
  have hm : 4 ≤ m := by
    by_contra hlt
    have hle : 2 ^ m ≤ 2 ^ 3 := Nat.pow_le_pow_right (by decide) (by omega)
    have hmin : minCapacity = 16 := rfl
    omega
  have hsplit : ∀ j, j ≤ 4 → 2 ^ m = 2 ^ (m - j) * 2 ^ j := by
    intro j hj
    rw [← Nat.pow_add, Nat.sub_add_cancel (Nat.le_trans hj hm)]
  cases imp with
  | neon => exact ⟨m - 4, hsplit 4 (by decide)⟩
  | sse2 => exact ⟨m - 4, hsplit 4 (by decide)⟩
  | word => exact ⟨m - 3, hsplit 3 (by decide)⟩

theorem nextPowerOfTwo_eq (n : Nat) : ∃ m, nextPowerOfTwo n = 2 ^ m ∧ n ≤ 2 ^ m := by
  rw [nextPowerOfTwo]
  split
  · next h => exact ⟨0, rfl, h⟩
  · next h =>
    refine ⟨_, rfl, ?_⟩
    have := Nat.lt_log2_self (n := n - 1)
    omega

theorem Sound.rebuild_ok (h : Sound imp t cells F lost) {m : Nat} (hmin : minCapacity ≤ 2 ^ m)
    (hroom : t.len ≤ 2 ^ m * loadNum / loadDen) :
    ∃ t' cells', t.rehash imp (2 ^ m) = .ok t' ∧ Sound imp t' cells' F lost ∧
      (entries cells').Perm (entries cells) ∧ t'.seed = t.seed ∧ t'.arena = t.arena ∧
      t'.growthLeft = 2 ^ m * loadNum / loadDen - t.len ∧ cells'.length = 2 ^ m := by
  obtain ⟨k, hk⟩ := groups_of_pow imp hmin
  exact h.rehash_ok hk hmin hroom

theorem Indexed.pow (h : Indexed imp t cells) (hne : cells ≠ []) :
    minCapacity ≤ cells.length ∧ ∃ m, cells.length = 2 ^ m := by
  obtain hnil | ⟨hmin, k, hplaced⟩ := h.laid
  · exact absurd hnil hne
  · refine ⟨hmin, ?_⟩
    rw [hplaced.length]
    cases imp with
    | neon => exact ⟨k + 4, (Nat.pow_add 2 k 4).symm⟩
    | sse2 => exact ⟨k + 4, (Nat.pow_add 2 k 4).symm⟩
    | word => exact ⟨k + 3, (Nat.pow_add 2 k 3).symm⟩

/-- Room for one more is made, whatever there was. -/
theorem Sound.ensure_ok (h : Sound imp t cells F lost) :
    ∃ t' cells', t.ensure imp = .ok t' ∧ Sound imp t' cells' F lost ∧
      (entries cells').Perm (entries cells) ∧ t'.seed = t.seed ∧ t'.arena = t.arena ∧
      0 < t'.growthLeft := by
  rw [ensure]
  by_cases hfull : t.growthLeft = 0
  · have hgrowth := h.indexed.growth
    have hload : ∀ n, n * loadNum / loadDen = n * 7 / 8 := fun _ => rfl
    have hmin' : minCapacity = 16 := rfl
    rw [hload, hfull] at hgrowth
    -- the three sizes differ; each leaves room over what there is
    have hall : ∀ m, minCapacity ≤ 2 ^ m → t.len < 2 ^ m * 7 / 8 → ∃ t' cells', t.rehash imp (2 ^ m) = .ok t' ∧
        Sound imp t' cells' F lost ∧ (entries cells').Perm (entries cells) ∧ t'.seed = t.seed ∧
        t'.arena = t.arena ∧ 0 < t'.growthLeft := by
      intro m hmin hroom
      obtain ⟨t', cells', hre, hsound, hperm, hseed, harena, hleft, -⟩ :=
        h.rebuild_ok hmin (Nat.le_of_lt (by rw [hload]; exact hroom))
      refine ⟨t', cells', hre, hsound, hperm, hseed, harena, ?_⟩
      rw [hleft, hload]
      omega
    rw [if_pos hfull, reserve]
    by_cases hnil : cells = []
    · have hslots : t.slots.isEmpty = true := by rw [h.indexed.slots, hnil]; rfl
      have hzero : t.len = 0 := by rw [h.indexed.len, hnil]; rfl
      rw [if_pos hslots]
      exact hall 4 (Nat.le_refl _) (by omega)
    · have hslots : ¬ t.slots.isEmpty = true := by
        rw [h.indexed.slots, List.isEmpty_iff, List.map_eq_nil_iff]
        exact hnil
      obtain ⟨hmin, m, hm⟩ := h.indexed.pow hnil
      rw [if_neg hslots, h.indexed.length, hm]
      rw [hm] at hmin hgrowth
      split
      · exact hall m hmin (by omega)
      · have hdouble : 2 ^ m * 2 = 2 ^ (m + 1) := (Nat.pow_succ 2 m).symm
        rw [hdouble]
        exact hall (m + 1) (by omega) (by omega)
  · rw [if_neg hfull]
    exact ⟨t, cells, rfl, h, List.Perm.refl _, rfl, rfl, Nat.pos_of_ne_zero hfull⟩

/-- Shrinking changes no entry, and makes nothing larger. -/
theorem Sound.shrink_ok (h : Sound imp t cells F lost) :
    ∃ b t' cells', t.shrink imp = .ok (b, t') ∧ Sound imp t' cells' F lost ∧
      (entries cells').Perm (entries cells) ∧ t'.seed = t.seed ∧ t'.arena = t.arena ∧
      cells'.length ≤ cells.length := by
  rw [shrink]
  split
  · exact ⟨false, t, cells, rfl, h, List.Perm.refl _, rfl, rfl, Nat.le_refl _⟩
  · obtain ⟨m, hm, hle⟩ := nextPowerOfTwo_eq (t.len * 2)
    have hwanted : ∃ j, max (nextPowerOfTwo (t.len * 2)) minCapacity = 2 ^ j ∧ minCapacity ≤ 2 ^ j ∧
        t.len * 2 ≤ 2 ^ j := by
      rw [hm]
      by_cases hmin : minCapacity ≤ 2 ^ m
      · exact ⟨m, Nat.max_eq_left hmin, hmin, hle⟩
      · have hfour : minCapacity = 2 ^ 4 := rfl
        exact ⟨4, Nat.max_eq_right (by omega), Nat.le_refl _, by omega⟩
    obtain ⟨j, hj, hmin, htwice⟩ := hwanted
    simp only [hj]
    split
    · exact ⟨false, t, cells, rfl, h, List.Perm.refl _, rfl, rfl, Nat.le_refl _⟩
    · next hless =>
      have hload : 2 ^ j * loadNum / loadDen = 2 ^ j * 7 / 8 := rfl
      obtain ⟨t', cells', hre, hsound, hperm, hseed, harena, -, hlen⟩ := h.rebuild_ok hmin (by omega)
      refine ⟨true, t', cells', by rw [hre]; rfl, hsound, hperm, hseed, harena, ?_⟩
      rw [hlen, ← h.indexed.length]
      omega

/-! ## Writing an entry -/

/-- A whole entry in a new block, or a refusal. -/
theorem Stored.store_ok {items : List Item} (h : Stored t.arena items F lost) (p : Platform)
    (granted : Bool) {view : Entry.View} (hshort : Entry.Short view) :
    (∃ full arena, t.store p granted view.size view.key view.value view.expiry view.userFlags =
        .ok (.error full, { t with arena }) ∧
      (Arena.Strands p granted t.arena view.size ∨ Stored arena items F lost)) ∨
    ∃ new arena F', t.store p granted view.size view.key view.value view.expiry view.userFlags =
        .ok (.ok new, { t with arena }) ∧ Stored arena (⟨new, view⟩ :: items) F' lost := by
  rw [store]
  obtain ⟨-, new, arena, data, F', halloc, hdata, hholds⟩ | ⟨-, full, arena, halloc, hholds⟩ |
    ⟨hstrands, full, arena, halloc, -⟩ := Arena.alloc_cases h.holds p granted view.size
  · have hwrite : Entry.write data view.key view.value view.expiry view.userFlags =
        .ok (Entry.encode view) := Entry.write_eq hshort hdata
    have hlen : (Entry.encode view).length = data.length := by
      rw [Entry.encode_length hshort, hdata]
    obtain ⟨arena', hmut, hholds'⟩ := Arena.getMut_ok hholds
      (fun into => Entry.write into view.key view.value view.expiry view.userFlags) hwrite hlen
    rw [hdata] at hmut
    refine .inr ⟨new, arena', F', ?_, hholds', ?_⟩
    · simp only [halloc, ok_bind, hmut, pure_ok]
    · intro item hi
      obtain rfl | hi := List.mem_cons.mp hi
      · exact hshort
      · exact h.short item hi
  · exact .inl ⟨full, arena, by rw [halloc]; rfl, .inr ⟨hholds, h.short⟩⟩
  · exact .inl ⟨full, arena, by rw [halloc]; rfl, .inl hstrands⟩

/-- What an entry's header cannot describe is not stored: where the block is given,
writing it runs off the end. -/
theorem Stored.store_long {items : List Item} (h : Stored t.arena items F lost) (p : Platform)
    (granted : Bool) {view : Entry.View} (hlong : ¬ Entry.Short view) :
    t.store p granted view.size view.key view.value view.expiry view.userFlags = .error .bounds ∨
    ∃ full arena, t.arena.alloc p granted view.size = .ok (.error full, arena) ∧
      t.store p granted view.size view.key view.value view.expiry view.userFlags =
        .ok (.error full, { t with arena }) ∧
      (Arena.Strands p granted t.arena view.size ∨ Stored arena items F lost) := by
  rw [store]
  obtain ⟨-, new, arena, data, F', halloc, hdata, hholds⟩ | ⟨-, full, arena, halloc, hholds⟩ |
    ⟨hstrands, full, arena, halloc, -⟩ := Arena.alloc_cases h.holds p granted view.size
  · have hwrite : Entry.write data view.key view.value view.expiry view.userFlags = .error .bounds :=
      Entry.write_long hlong hdata
    have hmut := Arena.getMut_error hholds
      (fun into => Entry.write into view.key view.value view.expiry view.userFlags) hwrite
    rw [hdata] at hmut
    refine .inl ?_
    simp only [halloc, ok_bind, hmut, error_bind]
  · exact .inr ⟨full, arena, halloc, by rw [halloc]; rfl, .inr ⟨hholds, h.short⟩⟩
  · exact .inr ⟨full, arena, halloc, by rw [halloc]; rfl, .inl hstrands⟩

/-- The arena gave this reference, and has the slots for oversized blocks that were then made. -/
def Gives (p : Platform) (granted : Bool) (arena : Arena) (size : Nat) (new : Ref) (arena' : Arena) : Prop :=
  ∃ given, arena.alloc p granted size = .ok (.ok new, given) ∧ arena'.large.length = given.large.length

theorem store_gives {p : Platform} {granted : Bool} {size : Nat} {key value : List UInt8}
    {expiry userFlags : Option UInt32} {new : Ref} {t' : Table}
    (h : t.store p granted size key value expiry userFlags = .ok (.ok new, t')) :
    Gives p granted t.arena size new t'.arena := by
  rw [store] at h
  obtain ⟨⟨res, given⟩, halloc, h⟩ := bind_ok_iff.mp h
  cases res with
  | error full => cases h
  | ok new' =>
    obtain ⟨arena, hmut, h⟩ := bind_ok_iff.mp h
    cases h
    exact ⟨given, halloc, Arena.getMut_large hmut⟩

theorem store_refused_large {p : Platform} {granted : Bool} {size : Nat} {key value : List UInt8}
    {expiry userFlags : Option UInt32} {full : Full} {t' : Table}
    (h : t.store p granted size key value expiry userFlags = .ok (.error full, t')) :
    t'.arena.large.length = t.arena.large.length := by
  rw [store] at h
  obtain ⟨⟨res, arena⟩, halloc, h⟩ := bind_ok_iff.mp h
  cases res with
  | error full' =>
    cases h
    exact congrArg _ (Arena.alloc_refused_large halloc)
  | ok new =>
    obtain ⟨arena', -, h⟩ := bind_ok_iff.mp h
    cases h

theorem swap_large {at_ size : Nat} {old new : Ref} {was now : Bool} {t' : Table}
    (h : t.swap at_ old new size was now = .ok t') : t'.arena.large.length = t.arena.large.length := by
  rw [swap] at h
  obtain ⟨arena, hfree, h⟩ := bind_ok_iff.mp h
  obtain ⟨slots, -, h⟩ := bind_ok_iff.mp h
  rw [retime_arena h]
  exact Arena.free_large hfree

/-! ## The entries of a table -/

/-- A table in good order, with these entries in any order. -/
def Has (imp : Imp) (t : Table) (items : List Item) (lost : Nat) : Prop :=
  ∃ cells F, Sound imp t cells F lost ∧ (entries cells).Perm items

theorem Has.perm {items items' : List Item} (h : Has imp t items lost) (hp : items.Perm items') :
    Has imp t items' lost := by
  obtain ⟨cells, F, hsound, hperm⟩ := h
  exact ⟨cells, F, hsound, hperm.trans hp⟩

theorem Sound.has (h : Sound imp t cells F lost) : Has imp t (entries cells) lost :=
  ⟨cells, F, h, List.Perm.refl _⟩

theorem Indexed.arena (h : Indexed imp t cells) (arena : Arena) : Indexed imp { t with arena } cells :=
  ⟨h.ctrl, h.slots, h.laid, h.keys, h.len, h.tombstones, h.timed, h.growth⟩

inductive Put (imp : Imp) (p : Platform) (granted : Bool) (t : Table) (items : List Item) (lost : Nat)
    (view : Entry.View) : Except Full Wrote → Table → Prop
  | inserted {t' ref} : (∀ item ∈ items, item.view.key ≠ view.key) → t'.seed = t.seed →
      Has imp t' (⟨ref, view⟩ :: items) lost → Put imp p granted t items lost view (.ok .inserted) t'
  | replaced {t' item rest ref lost'} : items.Perm (item :: rest) → item.view.key = view.key →
      t'.seed = t.seed → (lost' = lost ∨ lost' = lost + leaked item) →
      Has imp t' (⟨ref, view⟩ :: rest) lost' → Put imp p granted t items lost view (.ok .replaced) t'
  | refused {t' full} : t'.seed = t.seed →
      (Arena.Strands p granted t.arena view.size ∨ Has imp t' items lost) →
      Put imp p granted t items lost view (.error full) t'

/-- What `set` comes to, and whose the reference is that the entry is now under. -/
inductive Lays (imp : Imp) (p : Platform) (granted : Bool) (t : Table) (items : List Item) (lost : Nat)
    (view : Entry.View) : Except Full Wrote → Table → Prop
  | inserted {t' ref} : (∀ item ∈ items, item.view.key ≠ view.key) → t'.seed = t.seed →
      Has imp t' (⟨ref, view⟩ :: items) lost → Gives p granted t.arena view.size ref t'.arena →
      Lays imp p granted t items lost view (.ok .inserted) t'
  | inPlace {t' item rest} : items.Perm (item :: rest) → item.view.key = view.key → t'.seed = t.seed →
      Has imp t' (⟨item.ref, view⟩ :: rest) lost → t'.arena.large.length = t.arena.large.length →
      Lays imp p granted t items lost view (.ok .replaced) t'
  | moved {t' item rest ref} : items.Perm (item :: rest) → item.view.key = view.key → t'.seed = t.seed →
      Has imp t' (⟨ref, view⟩ :: rest) (lost + leaked item) → Gives p granted t.arena view.size ref t'.arena →
      Lays imp p granted t items lost view (.ok .replaced) t'
  | refused {t' full} : t'.seed = t.seed →
      (Arena.Strands p granted t.arena view.size ∨ Has imp t' items lost) →
      t'.arena.large.length = t.arena.large.length → Lays imp p granted t items lost view (.error full) t'

theorem Lays.put {p : Platform} {granted : Bool} {items : List Item} {view : Entry.View} {r : Except Full Wrote}
    {t' : Table} (h : Lays imp p granted t items lost view r t') : Put imp p granted t items lost view r t' := by
  cases h with
  | inserted habsent hseed hhas _ => exact .inserted habsent hseed hhas
  | inPlace hrest hkey hseed hhas _ => exact .replaced hrest hkey hseed (.inl rfl) hhas
  | moved hrest hkey hseed hhas _ => exact .replaced hrest hkey hseed (.inr rfl) hhas
  | refused hseed hleft _ => exact .refused hseed hleft

theorem Indexed.occupy_ok (h : Indexed imp t cells) {i : Nat} {l : Lane Item} (hl : cells[i]? = some l)
    (hfree : l.item? = none) (hroom : 0 < t.growthLeft) :
    ∃ growthLeft tombstones, t.occupy i = .ok { t with growthLeft, tombstones } ∧
      tombstones + (if l.isTomb then 1 else 0) = t.tombstones ∧
      growthLeft + tombstones + 1 = t.growthLeft + t.tombstones := by
  have hbyte : index t.ctrl i = .ok (byteOf t.seed l) := by
    apply index_of_getElem?
    rw [h.ctrl, List.getElem?_map, hl]
    rfl
  rw [occupy, hbyte, ok_bind]
  cases l with
  | empty =>
    have hne : ¬ byteOf t.seed .empty = Ctrl.deleted := by
      rw [byteOf_eq_deleted]
      exact fun heq => by cases heq
    rw [if_neg hne, minus_ok hroom]
    refine ⟨t.growthLeft - 1, t.tombstones, rfl, rfl, ?_⟩
    omega
  | tomb =>
    have hpos : 1 ≤ t.tombstones := by
      rw [h.tombstones]
      exact List.countP_pos_iff.mpr ⟨.tomb, List.mem_of_getElem? hl, rfl⟩
    have heq : byteOf t.seed .tomb = Ctrl.deleted := rfl
    rw [if_pos heq, minus_ok hpos]
    refine ⟨t.growthLeft, t.tombstones - 1, rfl, Nat.sub_add_cancel hpos, ?_⟩
    omega
  | full item => cases hfree

theorem Indexed.freeSlot_ok (h : Indexed imp t cells) (hroom : 0 < t.growthLeft) (item : Item) :
    ∃ i l, t.freeSlot imp (Hash.hash item.view.key t.seed) = .ok i ∧ cells[i]? = some l ∧
      l.item? = none ∧ Laid imp t.seed (cells.set i (.full item)) := by
  have hne : cells ≠ [] := by
    intro hnil
    have hgrowth := h.growth
    rw [hnil] at hgrowth
    have hzero : ([] : List (Lane Item)).length * loadNum / loadDen = 0 := rfl
    omega
  obtain hnil | ⟨hmin, k, hplaced⟩ := h.laid
  · exact absurd hnil hne
  · obtain ⟨i, l, n, hwalk, hslot, hfree, hn, hgroup, hpass⟩ :=
      walkTo_ok hplaced.length (fun l => l.item? = none) rfl
        (matchFree_picks hplaced.length t.seed) (h.empty_mem hne) (home_lt k (Hash.hash item.view.key t.seed))
    refine ⟨i, l, ?_, hslot, hfree, .inr ⟨?_, k, hplaced.insert (width_pos imp) hn hgroup hpass⟩⟩
    · rw [freeSlot, h.groups hplaced.length, minus_ok Nat.one_le_two_pow, ok_bind, h.ctrl]
      exact hwalk
    · rw [List.length_set]
      exact hmin

/-- A key that is not there is put in. -/
theorem Sound.insert_lays (h : Sound imp t cells F lost) (p : Platform) (granted : Bool) {view : Entry.View}
    (hshort : Entry.Short view) (habsent : ∀ item ∈ entries cells, item.view.key ≠ view.key) :
    ∃ r t', t.insert imp p granted (Hash.hash view.key t.seed) view.size view.key view.value view.expiry
        view.userFlags = .ok (r, t') ∧ Lays imp p granted t (entries cells) lost view r t' := by
  rw [insert]
  obtain ⟨t₁, cells₁, hensure, h₁, hperm, hseed, harena, hroom⟩ := h.ensure_ok
  rw [hensure, ok_bind]
  obtain ⟨full, arena, hstore, hleft⟩ | ⟨new, arena, F', hstore, hstored⟩ :=
    h₁.stored.store_ok p granted hshort
  -- no room for the bytes: nothing is in the index yet
  · have hlarge := store_refused_large hstore
    rw [harena] at hlarge
    rw [hstore]
    refine ⟨.error full, { t₁ with arena }, rfl, .refused hseed ?_ hlarge⟩
    obtain hstrands | hstored := hleft
    · rw [harena] at hstrands
      exact .inl hstrands
    · exact .inr ⟨cells₁, F, ⟨h₁.indexed.arena arena, hstored⟩, hperm⟩
  -- the bytes are stored, and a slot that is free leads to them
  · let t₂ : Table := { t₁ with arena }
    have h₂ : Indexed imp t₂ cells₁ := h₁.indexed.arena arena
    obtain ⟨i, l, hslot, hl, hfree, hlaid⟩ := h₂.freeSlot_ok hroom ⟨new, view⟩
    obtain ⟨growthLeft, tombstones, hoccupy, htombs, hgrowth⟩ := h₂.occupy_ok hl hfree hroom
    have hentries := entries_free hl hfree ⟨new, view⟩
    obtain ⟨timed, hretime, hsum⟩ := retime_ok { t₂ with
      growthLeft, tombstones
      ctrl := t₂.ctrl.set i (Ctrl.tagOf (Hash.hash view.key t.seed))
      slots := t₂.slots.set i new.bits, len := t₂.len + 1 } view.expiry.isSome
      (fun h => absurd h Bool.false_ne_true)
    have hctrl : i < t₁.ctrl.length := by
      rw [h₁.indexed.ctrl, List.length_map]
      exact (List.getElem?_eq_some_iff.mp hl).1
    have hslots : i < t₁.slots.length := by
      rw [h₁.indexed.length]
      exact (List.getElem?_eq_some_iff.mp hl).1
    have hslot' : freeSlot imp { t₁ with arena } (Hash.hash view.key t.seed) = .ok i := by
      rw [← hseed]
      exact hslot
    let t₃ : Table := { t₂ with
      growthLeft, tombstones
      ctrl := t₂.ctrl.set i (Ctrl.tagOf (Hash.hash view.key t.seed))
      slots := t₂.slots.set i new.bits, len := t₂.len + 1, timed }
    have hhas : Has imp t₃ (⟨new, view⟩ :: entries cells) lost := by
      refine ⟨cells₁.set i (.full ⟨new, view⟩), F', ⟨?_, hstored.perm hentries.symm⟩,
        hentries.trans (hperm.cons _)⟩
      refine h₂.set hl ?_ ?_ ?_ hlaid ?_ ?_ ?_ ?_ ?_
      · rfl
      · rw [show t₂.seed = t.seed from hseed]
        rfl
      · rfl
      · rw [(hentries.map _).nodup_iff, List.map_cons, List.nodup_cons]
        refine ⟨?_, h₁.indexed.keys⟩
        intro hmem
        obtain ⟨item, hitem, hkey⟩ := List.mem_map.mp hmem
        exact habsent item (hperm.mem_iff.mp hitem) hkey
      · rw [hfree]
        rfl
      · simp only [Lane.isTomb, Bool.false_eq_true, if_false]
        exact htombs
      · rw [hfree, timedOf_toList]
        exact hsum
      · have hsame : growthLeft + tombstones + 1 = t₁.growthLeft + t₁.tombstones := hgrowth
        change growthLeft + (t₁.len + 1) + tombstones = t₁.growthLeft + t₁.len + t₁.tombstones
        omega
    have hgives := store_gives hstore
    rw [harena] at hgives
    refine ⟨.ok .inserted, t₃, ?_, .inserted habsent hseed hhas hgives⟩
    simp only [hstore, ok_bind, hslot']
    rw [show occupy { t₁ with arena } i = _ from hoccupy, ok_bind, update_ok hctrl, ok_bind, update_ok hslots,
      ok_bind, show retime _ false view.expiry.isSome = _ from hretime]
    rfl

/-! ## An entry rewritten -/

theorem set_same {α : Type} {l : List α} {i : Nat} {a : α} (h : l[i]? = some a) : l.set i a = l := by
  obtain ⟨hi, heq⟩ := List.getElem?_eq_some_iff.mp h
  rw [← heq]
  exact List.set_getElem_self hi

theorem Indexed.rewrite (h : Indexed imp t cells) {i : Nat} {item item' : Item}
    (hi : cells[i]? = some (.full item)) (hkey : item'.view.key = item.view.key) {t' : Table}
    (hseed : t'.seed = t.seed) (hctrl : t'.ctrl = t.ctrl) (hslots : t'.slots = t.slots.set i item'.ref.bits)
    (hlen : t'.len = t.len) (htombs : t'.tombstones = t.tombstones) (hgrowth : t'.growthLeft = t.growthLeft)
    (htimed : t'.timed + item.view.expiry.isSome.toNat = t.timed + item'.view.expiry.isSome.toNat) :
    Indexed imp t' (cells.set i (.full item')) := by
  have hswap : (item' :: entries cells).Perm (item :: entries (cells.set i (.full item'))) :=
    entries_set hi (.full item')
  have hbyte : byteOf t.seed (.full item') = byteOf t.seed (.full item) := by
    rw [byteOf, byteOf, hkey]
  refine h.set hi hseed ?_ hslots ?_ ?_ ?_ ?_ ?_ ?_
  · rw [hctrl, hbyte]
    apply (set_same _).symm
    rw [h.ctrl, List.getElem?_map, hi]
    rfl
  · obtain ⟨hmin, k, hplaced⟩ := h.placed hi
    refine .inr ⟨?_, k, hplaced.replace (width_pos imp) hi ?_⟩
    · rw [List.length_set]
      exact hmin
    · rw [homeOf, homeOf, hkey]
  · have hkeys := hswap.map fun item => item.view.key
    rw [List.map_cons, List.map_cons, hkey] at hkeys
    exact hkeys.cons_inv.nodup_iff.mp h.keys
  · rw [hlen]
    rfl
  · rw [htombs]
    rfl
  · rw [timedOf_toList, timedOf_toList]
    exact htimed
  · rw [hgrowth, hlen, htombs]

theorem Sound.rewrite (h : Sound imp t cells F lost) {i : Nat} {item : Item} (item' : Item)
    {rest : List Item} (hi : cells[i]? = some (.full item)) (hrest : (entries cells).Perm (item :: rest))
    (hkey : item'.view.key = item.view.key) {arena : Arena} {F' : List Arena.Cell} {lost' timed : Nat}
    (hstored : Stored arena (item' :: rest) F' lost')
    (htimed : timed + item.view.expiry.isSome.toNat = t.timed + item'.view.expiry.isSome.toNat) :
    Has imp { t with arena, slots := t.slots.set i item'.ref.bits, timed } (item' :: rest) lost' := by
  have hswap : (item' :: entries cells).Perm (item :: entries (cells.set i (.full item'))) :=
    entries_set hi (.full item')
  have hperm : (entries (cells.set i (.full item'))).Perm (item' :: rest) := by
    apply List.Perm.cons_inv (a := item)
    calc item :: entries (cells.set i (.full item'))
      List.Perm _ (item' :: entries cells) := hswap.symm
      List.Perm _ (item' :: item :: rest) := hrest.cons item'
      List.Perm _ (item :: item' :: rest) := List.Perm.swap _ _ _
  exact ⟨_, F', ⟨h.indexed.rewrite hi hkey rfl rfl rfl rfl rfl rfl htimed, hstored.perm hperm.symm⟩, hperm⟩

theorem Sound.timed_pos (h : Sound imp t cells F lost) {item : Item} (hmem : item ∈ entries cells)
    (htimed : item.view.head.timed = true) : 0 < t.timed := by
  rw [Entry.View.head_timed] at htimed
  rw [h.indexed.timed]
  exact List.countP_pos_iff.mpr ⟨item, hmem, htimed⟩

theorem Sound.swap_ok (h : Sound imp t cells F lost) {i : Nat} {item : Item} {rest : List Item}
    (hi : cells[i]? = some (.full item)) (hrest : (entries cells).Perm (item :: rest)) {new : Ref}
    {view : Entry.View} (hkey : view.key = item.view.key) {arena : Arena} {F' : List Arena.Cell}
    (hstored : Stored arena (⟨new, view⟩ :: item :: rest) F' lost) :
    ∃ t', { t with arena }.swap i item.ref new item.view.head.size item.view.head.timed view.expiry.isSome =
        .ok t' ∧ t'.seed = t.seed ∧ Has imp t' (⟨new, view⟩ :: rest) (lost + leaked item) := by
  obtain ⟨arena', F'', hfree, hstored'⟩ := (hstored.perm (List.Perm.swap _ _ _)).free_ok
  have hlt : i < t.slots.length := by
    rw [h.indexed.length]
    exact (List.getElem?_eq_some_iff.mp hi).1
  have hpos := h.timed_pos (mem_entries.mpr ⟨i, hi⟩)
  obtain ⟨timed, hretime, hsum⟩ := retime_ok
    { t with arena := arena', slots := t.slots.set i new.bits } view.expiry.isSome hpos
  rw [Entry.View.head_timed] at hsum
  have hhas := h.rewrite ⟨new, view⟩ hi hrest hkey hstored' hsum
  refine ⟨{ t with arena := arena', slots := t.slots.set i new.bits, timed }, ?_, rfl, hhas⟩
  have hupdate : update t.slots i new.bits = .ok (t.slots.set i new.bits) := update_ok hlt
  simp only [swap, hfree, ok_bind, hupdate]
  exact hretime

theorem Sound.replace_lays (h : Sound imp t cells F lost) (p : Platform) (granted : Bool) {view : Entry.View}
    (hshort : Entry.Short view) {i : Nat} {item : Item} (hi : cells[i]? = some (.full item))
    (hkey : item.view.key = view.key) :
    ∃ r t', t.replace p granted i item.view.head view.size view.key view.value view.expiry view.userFlags =
        .ok (r, t') ∧ Lays imp p granted t (entries cells) lost view r t' := by
  have hmem := mem_entries.mpr ⟨i, hi⟩
  have hrest := entries_full hi .tomb rfl
  have hstored := h.stored.perm hrest
  have hpos := h.timed_pos hmem
  rw [replace, h.indexed.slot hi, ok_bind]
  by_cases hsame : item.view.head.size = view.size
  · -- the same size: written where it is
    have hdata : (Entry.encode item.view).length = view.size := by
      rw [← h.stored.head_size hmem, hsame]
    have hwrite : Entry.write (Entry.encode item.view) view.key view.value view.expiry view.userFlags =
        .ok (Entry.encode view) := Entry.write_eq hshort hdata
    have hlen : (Entry.encode view).length = (Entry.encode item.view).length := by
      rw [hdata, Entry.encode_length hshort]
    obtain ⟨arena, hmut, hholds⟩ := Arena.getMut_ok (b := item.block) hstored.holds
      (fun into => Entry.write into view.key view.value view.expiry view.userFlags) hwrite hlen
    have hmut' : t.arena.getMut ⟨item.ref.bits⟩ view.size
        (fun into => Entry.write into view.key view.value view.expiry view.userFlags) = .ok arena := by
      rw [← hdata]
      exact hmut
    obtain ⟨timed, hretime, hsum⟩ := retime_ok { t with arena } view.expiry.isSome hpos
    rw [Entry.View.head_timed] at hsum
    have hstored' : Stored arena (⟨item.ref, view⟩ :: entries (cells.set i .tomb)) F lost := by
      refine ⟨hholds, ?_⟩
      intro other ho
      obtain rfl | ho := List.mem_cons.mp ho
      · exact hshort
      · exact hstored.short other (List.mem_cons_of_mem _ ho)
    have hslots : t.slots.set i item.ref.bits = t.slots := set_same (index_eq_ok.mp (h.indexed.slot hi))
    have hhas := h.rewrite ⟨item.ref, view⟩ hi hrest hkey.symm hstored' hsum
    simp only [hslots] at hhas
    refine ⟨.ok .replaced, { t with arena, timed }, ?_, .inPlace hrest hkey rfl hhas (Arena.getMut_large hmut)⟩
    rw [if_pos hsame, hmut', ok_bind, hretime]
    rfl
  · rw [if_neg hsame]
    obtain ⟨full, arena, hstore, hleft⟩ | ⟨new, arena, F', hstore, hstored'⟩ :=
      hstored.store_ok p granted hshort
    · have hlarge := store_refused_large hstore
      rw [hstore]
      refine ⟨.error full, { t with arena }, rfl, .refused rfl ?_ hlarge⟩
      obtain hstrands | hstored' := hleft
      · exact .inl hstrands
      · exact .inr ⟨cells, F, ⟨h.indexed.arena arena, hstored'.perm hrest.symm⟩, List.Perm.refl _⟩
    · obtain ⟨t', hswap, hseed, hhas⟩ := h.swap_ok hi hrest hkey.symm hstored'
      obtain ⟨given, halloc, hlarge⟩ := store_gives hstore
      refine ⟨.ok .replaced, t', ?_, .moved hrest hkey hseed hhas ⟨given, halloc, (swap_large hswap).trans hlarge⟩⟩
      simp only [hstore, ok_bind]
      rw [show Table.swap { t with arena } i ⟨item.ref.bits⟩ new _ _ _ = _ from hswap]
      rfl

theorem Lays.perm {p : Platform} {granted : Bool} {items items' : List Item} {view : Entry.View}
    {r : Except Full Wrote} {t' : Table} (h : Lays imp p granted t items lost view r t')
    (hp : items.Perm items') : Lays imp p granted t items' lost view r t' := by
  cases h with
  | inserted habsent hseed hhas hgives =>
    exact .inserted (fun item hi => habsent item (hp.mem_iff.mpr hi)) hseed (hhas.perm (hp.cons _)) hgives
  | inPlace hrest hkey hseed hhas hlarge => exact .inPlace (hp.symm.trans hrest) hkey hseed hhas hlarge
  | moved hrest hkey hseed hhas hgives => exact .moved (hp.symm.trans hrest) hkey hseed hhas hgives
  | refused hseed hleft hlarge =>
    refine .refused hseed ?_ hlarge
    obtain hstrands | hhas := hleft
    · exact .inl hstrands
    · exact .inr (hhas.perm hp)

/-- `set`, whatever there was. -/
theorem Has.set_lays {items : List Item} (h : Has imp t items lost) (p : Platform) (granted : Bool)
    {view : Entry.View} (hshort : Entry.Short view) :
    ∃ r t', t.set imp p granted view.key view.value (Hash.hash view.key t.seed) view.expiry view.userFlags =
        .ok (r, t') ∧ Lays imp p granted t items lost view r t' := by
  obtain ⟨cells, F, hsound, hperm⟩ := h
  obtain ⟨found, hfind, hspec⟩ := hsound.find_ok view.key
  rw [set, hfind]
  cases found with
  | none =>
    obtain ⟨r, t', hinsert, hlays⟩ := hsound.insert_lays p granted hshort hspec
    exact ⟨r, t', hinsert, hlays.perm hperm⟩
  | some hit =>
    obtain ⟨at_, head⟩ := hit
    obtain ⟨item, hi, hkey, rfl⟩ := hspec
    obtain ⟨r, t', hreplace, hlays⟩ := hsound.replace_lays p granted hshort hi hkey
    exact ⟨r, t', hreplace, hlays.perm hperm⟩

theorem Has.set_ok {items : List Item} (h : Has imp t items lost) (p : Platform) (granted : Bool)
    {view : Entry.View} (hshort : Entry.Short view) :
    ∃ r t', t.set imp p granted view.key view.value (Hash.hash view.key t.seed) view.expiry view.userFlags =
        .ok (r, t') ∧ Put imp p granted t items lost view r t' := by
  obtain ⟨r, t', hset, hlays⟩ := h.set_lays p granted hshort
  exact ⟨r, t', hset, hlays.put⟩

/-- `set` of what an entry's header cannot describe: a panic, or a refusal. -/
theorem Has.set_long {items : List Item} (h : Has imp t items lost) (p : Platform) (granted : Bool)
    {view : Entry.View} (hlong : ¬ Entry.Short view) :
    t.set imp p granted view.key view.value (Hash.hash view.key t.seed) view.expiry view.userFlags =
      .error .bounds ∨
    ∃ full arena t', t.arena.alloc p granted view.size = .ok (.error full, arena) ∧
      t.set imp p granted view.key view.value (Hash.hash view.key t.seed) view.expiry view.userFlags =
        .ok (.error full, t') ∧ t'.seed = t.seed ∧
      (Arena.Strands p granted t.arena view.size ∨ Has imp t' items lost) ∧
      t'.arena.large.length = t.arena.large.length := by
  obtain ⟨cells, F, hsound, hperm⟩ := h
  obtain ⟨found, hfind, hspec⟩ := hsound.find_ok view.key
  have hsize : Entry.sizeOfEntry view.key.length view.value.length view.expiry.isSome
      view.userFlags.isSome = view.size := rfl
  rw [set, hfind, ok_bind, hsize]
  cases found with
  | none =>
    obtain ⟨t₁, cells₁, hensure, h₁, hperm₁, hseed, harena, -⟩ := hsound.ensure_ok
    simp only
    rw [insert, hensure, ok_bind]
    obtain hstore | ⟨full, arena, halloc, hstore, hleft⟩ := h₁.stored.store_long p granted hlong
    · exact .inl (by rw [hstore]; rfl)
    · rw [harena] at halloc hleft
      have hlarge := congrArg List.length (Arena.alloc_refused_large halloc)
      refine .inr ⟨full, arena, { t₁ with arena }, halloc, by rw [hstore]; rfl, hseed, ?_, hlarge⟩
      · obtain hstrands | hstored := hleft
        · exact .inl hstrands
        · exact .inr ⟨cells₁, F, ⟨h₁.indexed.arena arena, hstored⟩, hperm₁.trans hperm⟩
  | some hit =>
    obtain ⟨at_, head⟩ := hit
    obtain ⟨item, hi, -, rfl⟩ := hspec
    have hmem := mem_entries.mpr ⟨at_, hi⟩
    simp only
    rw [replace, hsound.indexed.slot hi, ok_bind]
    by_cases hsame : item.view.head.size = view.size
    · -- the entry that is there is as long as one that cannot be written
      have hdata : (Entry.encode item.view).length = view.size := by
        rw [← hsound.stored.head_size hmem, hsame]
      have hmut := Arena.getMut_error (b := item.block)
        (hsound.stored.perm (entries_full hi .tomb rfl)).holds
        (fun into => Entry.write into view.key view.value view.expiry view.userFlags)
        (Entry.write_long hlong hdata)
      rw [show item.block.data.length = view.size from hdata] at hmut
      exact .inl (by rw [if_pos hsame, show t.arena.getMut ⟨item.ref.bits⟩ _ _ = _ from hmut]; rfl)
    · rw [if_neg hsame]
      obtain hstore | ⟨full, arena, halloc, hstore, hleft⟩ := hsound.stored.store_long p granted hlong
      · exact .inl (by rw [hstore]; rfl)
      · have hlarge := congrArg List.length (Arena.alloc_refused_large halloc)
        refine .inr ⟨full, arena, { t with arena }, halloc, by rw [hstore]; rfl, rfl, ?_, hlarge⟩
        obtain hstrands | hstored := hleft
        · exact .inl hstrands
        · exact .inr ⟨cells, F, ⟨hsound.indexed.arena arena, hstored⟩, hperm⟩

theorem Has.set_laid {items : List Item} (h : Has imp t items lost) {p : Platform} {granted : Bool}
    {view : Entry.View} {r : Except Full Wrote} {t' : Table}
    (hset : t.set imp p granted view.key view.value (Hash.hash view.key t.seed) view.expiry view.userFlags =
      .ok (r, t')) : Lays imp p granted t items lost view r t' := by
  by_cases hshort : Entry.Short view
  · obtain ⟨r', t₁, hset', hlays⟩ := h.set_lays p granted hshort
    rw [hset] at hset'
    cases hset'
    exact hlays
  · obtain hpanic | ⟨full, arena, t₁, -, hset', hseed, hleft, hlarge⟩ := h.set_long p granted hshort
    · rw [hset] at hpanic
      cases hpanic
    · rw [hset] at hset'
      cases hset'
      exact .refused hseed hleft hlarge

/-! ## Looking up -/

/-- What a lookup comes to: the slot of a live entry, or the entry erased. -/
inductive Looked (imp : Imp) (t : Table) (cells : List (Lane Item)) (lost : Nat) (key : List UInt8)
    (now : UInt32) : Option (Nat × Ref × Entry.Head) → Table → Prop
  | absent : (∀ item ∈ entries cells, item.view.key ≠ key) → Looked imp t cells lost key now none t
  | expired {i : Nat} {item : Item} {rest t'} : cells[i]? = some (.full item) → item.view.key = key →
      passed item.view.expiry now = true → t'.seed = t.seed → (entries cells).Perm (item :: rest) →
      Has imp t' rest (lost + leaked item) → Looked imp t cells lost key now none t'
  | live {i : Nat} {item : Item} : cells[i]? = some (.full item) → item.view.key = key →
      passed item.view.expiry now = false →
      Looked imp t cells lost key now (some (i, item.ref, item.view.head)) t

theorem Sound.lookup_ok (h : Sound imp t cells F lost) (key : List UInt8) (now : UInt32) :
    ∃ r t', t.lookup imp key (Hash.hash key t.seed) now = .ok (r, t') ∧
      Looked imp t cells lost key now r t' := by
  obtain ⟨found, hfind, hspec⟩ := h.find_ok key
  rw [lookup, hfind, ok_bind]
  cases found with
  | none => exact ⟨none, t, rfl, .absent hspec⟩
  | some hit =>
    obtain ⟨i, head⟩ := hit
    obtain ⟨item, hi, hkey, rfl⟩ := hspec
    have hmem := mem_entries.mpr ⟨i, hi⟩
    have hexpiry : t.expiryOf ⟨item.ref.bits⟩ item.view.head = _ := h.stored.expiryOf_ok hmem
    simp only [h.indexed.slot hi, ok_bind, hexpiry]
    cases hpassed : passed item.view.expiry now with
    | true =>
      obtain ⟨t', lane, F', herase, hseed, hfree, hsound⟩ := h.erase_ok hi
      refine ⟨none, t', ?_, .expired hi hkey hpassed hseed (entries_full hi lane hfree) hsound.has⟩
      rw [if_pos rfl, herase]
      rfl
    | false => exact ⟨_, t, rfl, .live hi hkey hpassed⟩

inductive Sought (imp : Imp) (t : Table) (items : List Item) (lost : Nat) (key : List UInt8) (now : UInt32) :
    Option Entry.View → Table → Prop
  | absent : (∀ item ∈ items, item.view.key ≠ key) → Sought imp t items lost key now none t
  | expired {item rest t'} : items.Perm (item :: rest) → item.view.key = key →
      passed item.view.expiry now = true → t'.seed = t.seed → Has imp t' rest (lost + leaked item) →
      Sought imp t items lost key now none t'
  | live {item rest} : items.Perm (item :: rest) → item.view.key = key →
      passed item.view.expiry now = false → Sought imp t items lost key now (some item.view) t

theorem Sought.perm {items items' : List Item} {key : List UInt8} {now : UInt32} {r : Option Entry.View}
    {t' : Table} (h : Sought imp t items lost key now r t') (hp : items.Perm items') :
    Sought imp t items' lost key now r t' := by
  cases h with
  | absent habsent => exact .absent fun item hi => habsent item (hp.mem_iff.mpr hi)
  | expired hrest hkey hpassed hseed hhas => exact .expired (hp.symm.trans hrest) hkey hpassed hseed hhas
  | live hrest hkey hpassed => exact .live (hp.symm.trans hrest) hkey hpassed

theorem Has.reads_ok {items : List Item} (h : Has imp t items lost) (key : List UInt8) (now : UInt32) :
    ∃ r t', Sought imp t items lost key now r t' ∧
      t.get imp key (Hash.hash key t.seed) now = .ok (r.map Entry.View.value, t') ∧
      t.view imp key (Hash.hash key t.seed) now = .ok (r, t') ∧
      t.contains imp key (Hash.hash key t.seed) now = .ok (r.isSome, t') := by
  obtain ⟨cells, F, hsound, hperm⟩ := h
  obtain ⟨found, t', hlookup, hlooked⟩ := hsound.lookup_ok key now
  rw [get, view, contains, hlookup]
  cases hlooked with
  | absent habsent => exact ⟨none, t, .perm (.absent habsent) hperm, rfl, rfl, rfl⟩
  | expired hi hkey hpassed hseed hrest hhas =>
    exact ⟨none, t', .perm (.expired hrest hkey hpassed hseed hhas) hperm, rfl, rfl, rfl⟩
  | @live i item hi hkey hpassed =>
    have hget := hsound.stored.get_ok (mem_entries.mpr ⟨i, hi⟩)
    refine ⟨some item.view, t, .perm (.live (entries_full hi .tomb rfl) hkey hpassed) hperm, ?_, ?_, rfl⟩
    · simp only [ok_bind, hget, Entry.value_encode]
      rfl
    · simp only [ok_bind, hget, Entry.view_encode]
      rfl

/-- `remove`, which does not ask when the entry expires. -/
theorem Has.remove_ok {items : List Item} (h : Has imp t items lost) (key : List UInt8) :
    (t.remove imp key (Hash.hash key t.seed) = .ok (false, t) ∧ ∀ item ∈ items, item.view.key ≠ key) ∨
    ∃ t' item rest, t.remove imp key (Hash.hash key t.seed) = .ok (true, t') ∧ items.Perm (item :: rest) ∧
      item.view.key = key ∧ t'.seed = t.seed ∧ Has imp t' rest (lost + leaked item) := by
  obtain ⟨cells, F, hsound, hperm⟩ := h
  obtain ⟨found, hfind, hspec⟩ := hsound.find_ok key
  rw [remove, hfind]
  cases found with
  | none => exact .inl ⟨rfl, fun item hi => hspec item (hperm.mem_iff.mpr hi)⟩
  | some hit =>
    obtain ⟨i, head⟩ := hit
    obtain ⟨item, hi, hkey, -⟩ := hspec
    obtain ⟨t', lane, F', herase, hseed, hfree, hsound'⟩ := hsound.erase_ok hi
    refine .inr ⟨t', item, _, ?_, hperm.symm.trans (entries_full hi lane hfree), hkey, hseed, hsound'.has⟩
    simp only [ok_bind, herase]
    rfl

/-! ## Expiry -/

inductive Dated (imp : Imp) (p : Platform) (granted : Bool) (t : Table) (items : List Item) (lost : Nat)
    (key : List UInt8) (expiry : Option UInt32) (now : UInt32) : Except Full Bool → Table → Prop
  | missing {t'} : Sought imp t items lost key now none t' →
      Dated imp p granted t items lost key expiry now (.ok false) t'
  | changed {t' item rest ref lost'} : items.Perm (item :: rest) → item.view.key = key →
      passed item.view.expiry now = false → t'.seed = t.seed → (lost' = lost ∨ lost' = lost + leaked item) →
      Has imp t' (⟨ref, { item.view with expiry }⟩ :: rest) lost' →
      Dated imp p granted t items lost key expiry now (.ok true) t'
  | refused {t' item rest full} : items.Perm (item :: rest) → item.view.key = key →
      passed item.view.expiry now = false → t'.seed = t.seed →
      (Arena.Strands p granted t.arena ({ item.view with expiry } : Entry.View).size ∨ Has imp t' items lost) →
      Dated imp p granted t items lost key expiry now (.error full) t'

theorem Dated.perm {p : Platform} {granted : Bool} {items items' : List Item} {key : List UInt8}
    {expiry : Option UInt32} {now : UInt32} {r : Except Full Bool} {t' : Table}
    (h : Dated imp p granted t items lost key expiry now r t') (hp : items.Perm items') :
    Dated imp p granted t items' lost key expiry now r t' := by
  cases h with
  | missing hsought => exact .missing (hsought.perm hp)
  | changed hrest hkey hlive hseed hlost hhas =>
    exact .changed (hp.symm.trans hrest) hkey hlive hseed hlost hhas
  | refused hrest hkey hlive hseed hleft =>
    refine .refused (hp.symm.trans hrest) hkey hlive hseed ?_
    obtain hstrands | hhas := hleft
    · exact .inl hstrands
    · exact .inr (hhas.perm hp)

theorem Sound.redate_ok (h : Sound imp t cells F lost) {i : Nat} {item : Item}
    (hi : cells[i]? = some (.full item)) {was : UInt32} (when : UInt32) (hwas : item.view.expiry = some was) :
    ∃ arena, t.arena.getMut item.ref item.view.head.size (fun into =>
        splice into (item.view.head.header + item.view.head.klen + item.view.head.vlen) (u32Bytes when)) =
        .ok arena ∧
      Has imp { t with arena } (⟨item.ref, { item.view with expiry := some when }⟩ ::
        entries (cells.set i .tomb)) lost := by
  have hmem := mem_entries.mpr ⟨i, hi⟩
  have hrest := entries_full hi .tomb rfl
  have hstored := h.stored.perm hrest
  have hshort : Entry.Short { item.view with expiry := some when } := h.stored.short item hmem
  have hedit : splice (Entry.encode item.view)
      (item.view.head.header + item.view.head.klen + item.view.head.vlen) (u32Bytes when) =
      .ok (Entry.encode { item.view with expiry := some when }) := Entry.splice_expiry hwas
  have hlen := splice_length hedit
  obtain ⟨arena, hmut, hholds⟩ := Arena.getMut_ok (b := item.block) hstored.holds
    (fun into => splice into (item.view.head.header + item.view.head.klen + item.view.head.vlen)
      (u32Bytes when)) hedit hlen
  have hsize : item.block.data.length = item.view.head.size := (h.stored.head_size hmem).symm
  rw [hsize] at hmut
  have hstored' : Stored arena (⟨item.ref, { item.view with expiry := some when }⟩ ::
      entries (cells.set i .tomb)) F lost := by
    refine ⟨hholds, ?_⟩
    intro other ho
    obtain rfl | ho := List.mem_cons.mp ho
    · exact hshort
    · exact hstored.short other (List.mem_cons_of_mem _ ho)
  have hslots : t.slots.set i item.ref.bits = t.slots := set_same (index_eq_ok.mp (h.indexed.slot hi))
  have hsum : t.timed + item.view.expiry.isSome.toNat = t.timed + (some when).isSome.toNat := by
    rw [hwas]
    rfl
  have hhas := h.rewrite ⟨item.ref, { item.view with expiry := some when }⟩ hi hrest rfl hstored' hsum
  simp only [hslots] at hhas
  exact ⟨arena, hmut, hhas⟩

theorem Sound.rewrite_ok (h : Sound imp t cells F lost) (p : Platform) (granted : Bool) {i : Nat}
    {item : Item} (hi : cells[i]? = some (.full item)) (expiry : Option UInt32) {now : UInt32}
    (hlive : passed item.view.expiry now = false) :
    ∃ r t', t.rewrite p granted i item.ref item.view.head expiry = .ok (r, t') ∧
      Dated imp p granted t (entries cells) lost item.view.key expiry now r t' := by
  have hmem := mem_entries.mpr ⟨i, hi⟩
  have hrest := entries_full hi .tomb rfl
  have hstored := h.stored.perm hrest
  let view : Entry.View := { item.view with expiry }
  have hshort : Entry.Short view := h.stored.short item hmem
  have hhead : Entry.head (Entry.encode item.view) = .ok item.view.head :=
    Entry.head_header item.view _
  have hsize : Entry.sizeOfEntry item.view.head.klen item.view.head.vlen expiry.isSome
      item.view.userFlags.isSome = view.size := rfl
  rw [Table.rewrite, h.stored.get_ok hmem, ok_bind, hhead, ok_bind, Entry.userFlags_encode, ok_bind]
  simp only [hsize, Entry.key_encode, Entry.value_encode, ok_bind]
  obtain ⟨full, arena, hstore, hleft⟩ | ⟨new, arena, F', hstore, hstored'⟩ :=
    hstored.store_ok p granted hshort
  · rw [show t.store p granted view.size item.view.key item.view.value expiry item.view.userFlags = _ from
      hstore]
    refine ⟨.error full, { t with arena }, rfl, .refused hrest rfl hlive rfl ?_⟩
    obtain hstrands | hstored' := hleft
    · exact .inl hstrands
    · exact .inr ⟨cells, F, ⟨h.indexed.arena arena, hstored'.perm hrest.symm⟩, List.Perm.refl _⟩
  · have hkey : view.key = item.view.key := rfl
    obtain ⟨t', hswap, hseed, hhas⟩ := h.swap_ok hi hrest hkey hstored'
    refine ⟨.ok true, t', ?_, .changed hrest rfl hlive hseed (.inr rfl) hhas⟩
    rw [show t.store p granted view.size item.view.key item.view.value expiry item.view.userFlags = _ from
      hstore, ok_bind]
    simp only
    rw [show Table.swap { t with arena } i item.ref new _ _ expiry.isSome = _ from hswap]
    rfl

/-- What `expire` does to the entry it finds. -/
theorem expire_found {p : Platform} {granted : Bool} {t₁ : Table} {key : List UInt8} {hash : UInt64}
    {expiry : Option UInt32} {now : UInt32} {i : Nat} {ref : Ref} {head : Entry.Head}
    (hlookup : t.lookup imp key hash now = .ok (some (i, ref, head), t₁)) :
    t.expire imp p granted key hash expiry now = match head.timed, expiry with
      | true, some when => do
        let arena ← t₁.arena.getMut ref head.size fun into =>
          splice into (head.header + head.klen + head.vlen) (u32Bytes when)
        pure (.ok true, { t₁ with arena })
      | false, none => pure (.ok true, t₁)
      | _, _ => t₁.rewrite p granted i ref head expiry := by
  rw [expire, hlookup]
  rfl

theorem expire_eq_ok {p : Platform} {granted : Bool} {t' : Table} {key : List UInt8} {hash : UInt64}
    {expiry : Option UInt32} {now : UInt32} {r : Except Full Bool}
    (hexpire : t.expire imp p granted key hash expiry now = .ok (r, t')) :
    ∃ found t₁, t.lookup imp key hash now = .ok (found, t₁) ∧ match found with
      | none => r = .ok false ∧ t' = t₁
      | some (i, ref, head) =>
        (∃ arena, r = .ok true ∧ t' = { t₁ with arena }) ∨ r = .ok true ∧ t' = t₁ ∨
          t₁.rewrite p granted i ref head expiry = .ok (r, t') := by
  have hfirst := hexpire
  rw [expire] at hfirst
  obtain ⟨⟨found, t₁⟩, hlookup, hrest⟩ := bind_ok_iff.mp hfirst
  refine ⟨found, t₁, hlookup, ?_⟩
  cases found with
  | none =>
    cases hrest
    exact ⟨rfl, rfl⟩
  | some hit =>
    obtain ⟨i, ref, head⟩ := hit
    rw [expire_found hlookup] at hexpire
    -- patched in place where the entry has an expiry and keeps one
    cases htimed : head.timed with
    | true =>
      rw [htimed] at hexpire
      cases expiry with
      | none => exact .inr (.inr hexpire)
      | some when =>
        obtain ⟨arena, -, hexpire⟩ := bind_ok_iff.mp hexpire
        cases hexpire
        exact .inl ⟨arena, rfl, rfl⟩
    | false =>
      rw [htimed] at hexpire
      cases expiry with
      | none =>
        cases hexpire
        exact .inr (.inl ⟨rfl, rfl⟩)
      | some when => exact .inr (.inr hexpire)

theorem Has.expire_ok {items : List Item} (h : Has imp t items lost) (p : Platform) (granted : Bool)
    (key : List UInt8) (expiry : Option UInt32) (now : UInt32) :
    ∃ r t', t.expire imp p granted key (Hash.hash key t.seed) expiry now = .ok (r, t') ∧
      Dated imp p granted t items lost key expiry now r t' := by
  obtain ⟨cells, F, hsound, hperm⟩ := h
  obtain ⟨found, t', hlookup, hlooked⟩ := hsound.lookup_ok key now
  cases hlooked with
  | absent habsent =>
    rw [expire, hlookup]
    exact ⟨.ok false, t, rfl, .missing (.perm (.absent habsent) hperm)⟩
  | expired hi hkey hpassed hseed hrest hhas =>
    rw [expire, hlookup]
    exact ⟨.ok false, t', rfl, .missing (.perm (.expired hrest hkey hpassed hseed hhas) hperm)⟩
  | @live i item hi hkey hlive =>
    have hrest := entries_full hi .tomb rfl
    rw [expire_found hlookup, item.view.head_timed]
    cases hwas : item.view.expiry with
    | none =>
      cases expiry with
      | none =>
        -- persisting a key that was never going to expire
        have hsame : (⟨item.ref, { item.view with expiry := none }⟩ : Item) = item := by
          rw [← hwas]
        have hhas : Has imp t (⟨item.ref, { item.view with expiry := none }⟩ ::
            entries (cells.set i .tomb)) lost := by
          rw [hsame]
          exact hsound.has.perm hrest
        exact ⟨.ok true, t, rfl, (Dated.changed hrest hkey hlive rfl (.inl rfl) hhas).perm hperm⟩
      | some when =>
        obtain ⟨r, t', hrewrite, hdated⟩ := hsound.rewrite_ok p granted hi (some when) hlive
        rw [hkey] at hdated
        exact ⟨r, t', hrewrite, hdated.perm hperm⟩
    | some was =>
      cases expiry with
      | none =>
        obtain ⟨r, t', hrewrite, hdated⟩ := hsound.rewrite_ok p granted hi none hlive
        rw [hkey] at hdated
        exact ⟨r, t', hrewrite, hdated.perm hperm⟩
      | some when =>
        obtain ⟨arena, hmut, hhas⟩ := hsound.redate_ok hi when hwas
        have hdated : Dated imp p granted t (entries cells) lost key (some when) now (.ok true)
            { t with arena } := .changed hrest hkey hlive rfl (.inl rfl) hhas
        refine ⟨.ok true, { t with arena }, ?_, hdated.perm hperm⟩
        simp only [Option.isSome_some]
        rw [hmut]
        rfl

end Rugo.Table
