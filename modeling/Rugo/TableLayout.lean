import Rugo.Lib.Probing
import Rugo.ArenaSteps
import Rugo.Table

/- What a table holds. The lanes of `Probing` are the slots; an entry of the
   index is an `Item`, the reference in the slot and what is written in the block
   behind it. `Indexed` ties the control bytes, the slots and the counters to the
   lanes, `Stored` the arena to the entries; a read of the table is then a read of
   the lanes. -/
namespace Rugo
open Exec Probing Triangular

/-- An entry of the index, and what it refers to. -/
structure Item where
  ref : Ref
  view : Entry.View

def Item.block (item : Item) : Arena.Block := ⟨item.ref, Entry.encode item.view⟩

namespace Table

def byteOf (seed : UInt64) : Lane Item → UInt8
  | .empty => Ctrl.empty
  | .tomb => Ctrl.deleted
  | .full item => Ctrl.tagOf (Hash.hash item.view.key seed)

def bitsOf : Lane Item → UInt32
  | .empty => Ref.NONE.bits
  | .tomb => Ref.NONE.bits
  | .full item => item.ref.bits

/-- The group an entry's walk starts in. -/
def homeOf (seed : UInt64) (mask : Nat) (item : Item) : Nat :=
  groupOf (Hash.hash item.view.key seed) mask

/-- A table has no slots, or a power of two of groups. -/
def Laid (imp : Imp) (seed : UInt64) (cells : List (Lane Item)) : Prop :=
  cells = [] ∨ minCapacity ≤ cells.length ∧ ∃ k, Placed imp.width k (homeOf seed (2 ^ k - 1)) cells

/-- The index of a table, lane by lane. -/
structure Indexed (imp : Imp) (t : Table) (cells : List (Lane Item)) : Prop where
  ctrl : t.ctrl = cells.map (byteOf t.seed)
  slots : t.slots = cells.map bitsOf
  laid : Laid imp t.seed cells
  keys : ((entries cells).map fun item => item.view.key).Nodup
  len : t.len = (entries cells).length
  tombstones : t.tombstones = tombs cells
  timed : t.timed = (entries cells).countP fun item => item.view.expiry.isSome
  growth : t.growthLeft + t.len + t.tombstones = cells.length * loadNum / loadDen

/-- An arena, with the entries in it. -/
structure Stored (arena : Arena) (items : List Item) (F : List Arena.Cell) (lost : Nat) : Prop where
  holds : Arena.Holds arena (items.map Item.block) F lost
  short : ∀ item ∈ items, Entry.Short item.view

/-! ## Reading an entry -/

section reads
variable {arena : Arena} {items : List Item} {F : List Arena.Cell} {lost : Nat} {item : Item}

theorem Stored.perm {items' : List Item} (h : Stored arena items F lost) (hp : items.Perm items') :
    Stored arena items' F lost where
  holds := h.holds.perm (hp.map _)
  short := fun item hi => h.short item (hp.mem_iff.mpr hi)

/-- These entries can be read, which takes no more than their blocks. -/
structure Legible (arena : Arena) (items : List Item) : Prop where
  short : ∀ item ∈ items, Entry.Short item.view
  get : ∀ item ∈ items, arena.get item.ref (Entry.encode item.view).length = .ok (Entry.encode item.view)
  peek : ∀ item ∈ items, ∃ rest, arena.peek item.ref maxHeader =
    .ok ((Entry.encode item.view ++ rest).take maxHeader)

theorem legible (h : Arena.Serves arena (items.map Item.block) lost)
    (hshort : ∀ item ∈ items, Entry.Short item.view) : Legible arena items where
  short := hshort
  get := fun _ hi => h.get_ok (List.mem_map_of_mem hi)
  peek := fun _ hi => h.peek_ok (List.mem_map_of_mem (f := Item.block) hi) maxHeader

theorem Stored.legible (h : Stored arena items F lost) : Legible arena items :=
  Table.legible h.holds.serves h.short

theorem Legible.head_size (h : Legible arena items) (hi : item ∈ items) :
    item.view.head.size = (Entry.encode item.view).length := by
  rw [Entry.View.head_size (h.short item hi), Entry.encode_length (h.short item hi)]

theorem Legible.get_ok (h : Legible arena items) (hi : item ∈ items) :
    arena.get item.ref item.view.head.size = .ok (Entry.encode item.view) := by
  rw [h.head_size hi]
  exact h.get item hi

theorem Stored.head_size (h : Stored arena items F lost) (hi : item ∈ items) :
    item.view.head.size = (Entry.encode item.view).length := h.legible.head_size hi

theorem Stored.get_ok (h : Stored arena items F lost) (hi : item ∈ items) :
    arena.get item.ref item.view.head.size = .ok (Entry.encode item.view) := h.legible.get_ok hi

variable {t : Table}

theorem Legible.headAt_ok (h : Legible t.arena items) (hi : item ∈ items) :
    t.headAt item.ref = .ok item.view.head := by
  obtain ⟨rest, hpeek⟩ := h.peek item hi
  rw [headAt, hpeek, ok_bind]
  exact Entry.head_encode (h.short item hi) (Nat.le_refl 11) rest

theorem Legible.entryAt_ok (h : Legible t.arena items) (hi : item ∈ items) :
    t.entryAt item.ref = .ok (item.view.head, Entry.encode item.view) := by
  rw [entryAt, h.headAt_ok hi, ok_bind, h.get_ok hi]
  rfl

theorem Stored.headAt_ok (h : Stored t.arena items F lost) (hi : item ∈ items) :
    t.headAt item.ref = .ok item.view.head := h.legible.headAt_ok hi

theorem Stored.entryAt_ok (h : Stored t.arena items F lost) (hi : item ∈ items) :
    t.entryAt item.ref = .ok (item.view.head, Entry.encode item.view) := h.legible.entryAt_ok hi

theorem Legible.expiryOf_ok (h : Legible t.arena items) (hi : item ∈ items) :
    t.expiryOf item.ref item.view.head = .ok item.view.expiry := by
  have hexpiry := Entry.expiry_encode item.view
  rw [expiryOf]
  split
  · next hno =>
    rw [Entry.Head.expiry, if_pos hno] at hexpiry
    exact hexpiry
  · rw [h.get_ok hi, ok_bind]
    exact hexpiry

theorem Stored.expiryOf_ok (h : Stored t.arena items F lost) (hi : item ∈ items) :
    t.expiryOf item.ref item.view.head = .ok item.view.expiry := h.legible.expiryOf_ok hi

end reads

/-! ## Reading the lanes -/

theorem isFull_byteOf (seed : UInt64) (l : Lane Item) :
    Ctrl.isFull (byteOf seed l) = true ↔ ∃ item, l = .full item := by
  cases l with
  | empty => simp [byteOf, Ctrl.isFull_empty]
  | tomb => simp [byteOf, Ctrl.isFull_deleted]
  | full item => simp [byteOf, Ctrl.isFull_tagOf]

theorem byteOf_eq_empty (seed : UInt64) (l : Lane Item) : byteOf seed l = Ctrl.empty ↔ l = .empty := by
  cases l with
  | empty => simp [byteOf]
  | tomb => simp [byteOf, Ctrl.deleted, Ctrl.empty]
  | full item =>
    have hfull := Ctrl.isFull_tagOf (Hash.hash item.view.key seed)
    simp only [byteOf, reduceCtorEq, iff_false]
    intro heq
    rw [heq, Ctrl.isFull_empty] at hfull
    cases hfull

theorem byteOf_eq_deleted (seed : UInt64) (l : Lane Item) : byteOf seed l = Ctrl.deleted ↔ l = .tomb := by
  cases l with
  | empty => simp [byteOf, Ctrl.deleted, Ctrl.empty]
  | tomb => simp [byteOf]
  | full item =>
    have hfull := Ctrl.isFull_tagOf (Hash.hash item.view.key seed)
    simp only [byteOf, reduceCtorEq, iff_false]
    intro heq
    rw [heq, Ctrl.isFull_deleted] at hfull
    cases hfull

theorem valid_byteOf (seed : UInt64) (l : Lane Item) : Ctrl.Valid (byteOf seed l) := by
  cases l with
  | empty => exact .inl rfl
  | tomb => exact .inr (.inl rfl)
  | full item => exact .inr (.inr (Ctrl.isFull_tagOf _))

theorem width_pos (imp : Imp) : 0 < imp.width := by
  cases imp <;> decide

section probes
variable {imp : Imp} {seed : UInt64} {cells : List (Lane Item)} {k : Nat}

theorem home_lt (k : Nat) (hash : UInt64) : groupOf hash (2 ^ k - 1) < 2 ^ k := by
  rw [groupOf, Nat.and_two_pow_sub_one_eq_mod]
  exact Nat.mod_lt _ (Nat.two_pow_pos k)

/-- The control bytes of a group. -/
theorem slice_group (hlen : cells.length = 2 ^ k * imp.width) {g : Nat} (hg : g < 2 ^ k) :
    slice (cells.map (byteOf seed)) (g * imp.width) (g * imp.width + imp.width) =
      .ok ((group imp.width cells g).map (byteOf seed)) := by
  have hle : (g + 1) * imp.width ≤ 2 ^ k * imp.width := Nat.mul_le_mul_right imp.width hg
  rw [Nat.add_mul, Nat.one_mul] at hle
  rw [slice_ok (Nat.le_add_right _ _) (by rw [List.length_map]; omega), Nat.add_sub_cancel_left, group,
    List.map_take, List.map_drop]

theorem any_matchEmpty_group (hlen : cells.length = 2 ^ k * imp.width) {g : Nat} (hg : g < 2 ^ k) :
    Imp.any (imp.matchEmpty ((group imp.width cells g).map (byteOf seed))) = true ↔
      Lane.empty ∈ group imp.width cells g := by
  rw [Imp.any_matchEmpty (by rw [List.length_map]; exact group_length hlen hg), List.mem_map]
  · constructor
    · intro ⟨l, hl, heq⟩
      rw [(byteOf_eq_empty seed l).mp heq] at hl
      exact hl
    · intro h
      exact ⟨.empty, h, rfl⟩
  · intro b hb
    obtain ⟨l, -, rfl⟩ := List.mem_map.mp hb
    exact valid_byteOf seed l

/-- A lane of a group is a slot of the table. -/
theorem lane_slot {g lane : Nat} {l : Lane Item} (h : (group imp.width cells g)[lane]? = some l) :
    (g * imp.width + lane) / imp.width = g ∧ cells[g * imp.width + lane]? = some l := by
  have hlt : lane < imp.width := by
    have := (List.getElem?_eq_some_iff.mp h).1
    rw [group, List.length_take] at this
    omega
  rw [group_getElem? hlt] at h
  refine ⟨?_, h⟩
  rw [Nat.mul_comm, Nat.mul_add_div (width_pos imp), Nat.div_eq_of_lt hlt, Nat.add_zero]

/-- A walk stops at the first group with a lane that is picked: it lands on one,
and passed no empty lane. -/
theorem walkTo_ok (hlen : cells.length = 2 ^ k * imp.width) {pick : List UInt8 → BitMask}
    (Free : Lane Item → Prop) (hfree : Free .empty)
    (hpick : ∀ g < 2 ^ k, match imp.lowest (pick ((group imp.width cells g).map (byteOf seed))) with
      | none => ∀ l ∈ group imp.width cells g, ¬ Free l
      | some lane => ∃ l, (group imp.width cells g)[lane]? = some l ∧ Free l)
    (hempty : Lane.empty ∈ cells) {g : Nat} (hg : g < 2 ^ k) :
    ∃ i l n, walkTo imp pick (cells.map (byteOf seed)) (2 ^ k - 1) (2 ^ k) g 1 = .ok i ∧
      cells[i]? = some l ∧ Free l ∧ n < 2 ^ k ∧ walk (2 ^ k - 1) g n = i / imp.width ∧
      Passes imp.width k cells g n := by
  -- at position `n` of the walk the groups before it are passed
  apply walk_rule (I := Passes imp.width k cells g) (Q := fun fuel place step => ∃ i l n,
    walkTo imp pick (cells.map (byteOf seed)) (2 ^ k - 1) fuel place step = .ok i ∧
      cells[i]? = some l ∧ Free l ∧ n < 2 ^ k ∧ walk (2 ^ k - 1) g n = i / imp.width ∧
      Passes imp.width k cells g n)
  · exact passes_zero imp.width k cells g
  · exact Passes.not_round (width_pos imp) hlen hempty hg
  · intro fuel n hn hpass hrest
    have hlt := walk_lt hg n
    rw [walkTo, slice_group hlen hlt, ok_bind]
    have hat := hpick _ hlt
    cases hlow : imp.lowest (pick ((group imp.width cells (walk (2 ^ k - 1) g n)).map (byteOf seed))) with
    | none =>
      rw [hlow] at hat
      exact hrest (hpass.succ fun hmem => hat _ hmem hfree)
    | some lane =>
      rw [hlow] at hat
      obtain ⟨l, hl, hf⟩ := hat
      obtain ⟨hdiv, hslot⟩ := lane_slot hl
      exact ⟨_, l, n, rfl, hslot, hf, hn, hdiv.symm, hpass⟩

end probes

/-! ## Finding a key -/

/-- A table in good order. -/
structure Sound (imp : Imp) (t : Table) (cells : List (Lane Item)) (F : List Arena.Cell) (lost : Nat) :
    Prop where
  indexed : Indexed imp t cells
  stored : Stored t.arena (entries cells) F lost

/-- The answer of a search: a slot whose entry has the key, or none has. -/
def Found (cells : List (Lane Item)) (key : List UInt8) : Option (Nat × Entry.Head) → Prop
  | none => ∀ item ∈ entries cells, item.view.key ≠ key
  | some (at_, head) => ∃ item, cells[at_]? = some (.full item) ∧ item.view.key = key ∧
      head = item.view.head

section find
variable {imp : Imp} {t : Table} {cells : List (Lane Item)} {F : List Arena.Cell} {lost k : Nat}

theorem Indexed.slot (h : Indexed imp t cells) {at_ : Nat} {item : Item}
    (hi : cells[at_]? = some (.full item)) : index t.slots at_ = .ok item.ref.bits := by
  apply index_of_getElem?
  rw [h.slots, List.getElem?_map, hi]
  rfl

theorem Indexed.length (h : Indexed imp t cells) : t.slots.length = cells.length := by
  rw [h.slots, List.length_map]

/-- A table that has slots has one that is empty, and an eighth of them are. -/
theorem Indexed.empties (h : Indexed imp t cells) : cells.length ≤ 8 * empties cells := by
  have hlen := length_eq cells
  have hgrowth := h.growth
  have hload : cells.length * loadNum / loadDen = cells.length * 7 / 8 := rfl
  rw [h.len, h.tombstones, hload] at hgrowth
  omega

theorem Indexed.empty_mem (h : Indexed imp t cells) (hne : cells ≠ []) : Lane.empty ∈ cells := by
  have hpos := List.length_pos_iff.mpr hne
  have hempties := h.empties
  have hcount : 0 < cells.countP Lane.isEmpty := by
    rw [Probing.empties] at hempties
    omega
  obtain ⟨l, hl, hempty⟩ := List.countP_pos_iff.mp hcount
  rw [Lane.isEmpty_iff.mp hempty] at hl
  exact hl

theorem Indexed.groups (h : Indexed imp t cells) (hlen : cells.length = 2 ^ k * imp.width) :
    t.groups imp = 2 ^ k := by
  rw [Table.groups, h.length, hlen, Nat.mul_div_cancel _ (width_pos imp)]

/-- The entries in these lanes, key by key. -/
theorem Indexed.matchKey_ok (h : Indexed imp t cells) (hl : Legible t.arena (entries cells))
    (key : List UInt8) {base : Nat} {lanes : List Nat}
    (hfull : ∀ lane ∈ lanes, ∃ item, cells[base + lane]? = some (.full item)) :
    ∃ r, t.matchKey key base lanes = .ok r ∧ match r with
      | none => ∀ lane ∈ lanes, ∀ item, cells[base + lane]? = some (.full item) → item.view.key ≠ key
      | some (at_, head) => ∃ item, cells[at_]? = some (.full item) ∧ item.view.key = key ∧
          head = item.view.head := by
  induction lanes with
  | nil => exact ⟨none, rfl, by simp⟩
  | cons lane lanes ih =>
    obtain ⟨item, hitem⟩ := hfull lane List.mem_cons_self
    have hmem := mem_entries.mpr ⟨_, hitem⟩
    have hentry : t.entryAt ⟨item.ref.bits⟩ = _ := hl.entryAt_ok hmem
    rw [matchKey, h.slot hitem, ok_bind, hentry]
    simp only [ok_bind, Entry.key_encode]
    by_cases hkey : item.view.key = key
    · exact ⟨some (base + lane, item.view.head), by rw [if_pos hkey]; rfl, item, hitem, hkey, rfl⟩
    · obtain ⟨r, hr, hspec⟩ := ih fun lane hl => hfull lane (List.mem_cons_of_mem _ hl)
      rw [if_neg hkey]
      refine ⟨r, hr, ?_⟩
      cases r with
      | some hit => exact hspec
      | none =>
        intro lane' hl item' hitem'
        obtain heq | hl := List.mem_cons.mp hl
        · rw [heq, hitem] at hitem'
          cases hitem'
          exact hkey
        · exact hspec lane' hl item' hitem'

/-- A lane with the key has its tag. -/
theorem mem_lanes_of_key (hlen : cells.length = 2 ^ k * imp.width) {g : Nat} (hg : g < 2 ^ k)
    (seed : UInt64) {item : Item} {lane : Nat} (hl : (group imp.width cells g)[lane]? = some (.full item)) :
    lane ∈ imp.lanes (imp.matchByte ((group imp.width cells g).map (byteOf seed))
      (Ctrl.tagOf (Hash.hash item.view.key seed))) := by
  have hwidth : ((group imp.width cells g).map (byteOf seed)).length = imp.width := by
    rw [List.length_map]
    exact group_length hlen hg
  apply (Imp.mem_lanes_matchByte hwidth (Ctrl.isFull_tagOf _) lane).1
  rw [List.getElem?_map, hl]
  rfl

/-- A lane whose tag matches holds an entry. -/
theorem full_of_mem_lanes (hlen : cells.length = 2 ^ k * imp.width) {g : Nat} (hg : g < 2 ^ k)
    {seed hash : UInt64} {lane : Nat}
    (hl : lane ∈ imp.lanes (imp.matchByte ((group imp.width cells g).map (byteOf seed)) (Ctrl.tagOf hash))) :
    ∃ item, cells[g * imp.width + lane]? = some (.full item) := by
  have hwidth : ((group imp.width cells g).map (byteOf seed)).length = imp.width := by
    rw [List.length_map]
    exact group_length hlen hg
  obtain ⟨b, hb, hfull⟩ := (Imp.mem_lanes_matchByte hwidth (Ctrl.isFull_tagOf hash) lane).2 hl
  rw [List.getElem?_map] at hb
  obtain ⟨l, hlane, rfl⟩ := Option.map_eq_some_iff.mp hb
  obtain ⟨item, rfl⟩ := (isFull_byteOf seed l).mp hfull
  exact ⟨item, (lane_slot hlane).2⟩

theorem Indexed.findLoop_ok (h : Indexed imp t cells) (hleg : Legible t.arena (entries cells)) (key : List UInt8)
    (hne : cells ≠ []) (hplaced : Placed imp.width k (homeOf t.seed (2 ^ k - 1)) cells) :
    ∃ r, t.findLoop imp key (Ctrl.tagOf (Hash.hash key t.seed)) (2 ^ k - 1) (2 ^ k)
      (groupOf (Hash.hash key t.seed) (2 ^ k - 1)) 1 = .ok r ∧ Found cells key r := by
  have hlen := hplaced.length
  have hg := home_lt k (Hash.hash key t.seed)
  generalize hhome : groupOf (Hash.hash key t.seed) (2 ^ k - 1) = g at hg
  -- at position `n` of the walk no group before it has an empty lane, or the key
  apply walk_rule (I := fun n => Passes imp.width k cells g n ∧
      ∀ m < n, ∀ item, Lane.full item ∈ group imp.width cells (walk (2 ^ k - 1) g m) → item.view.key ≠ key)
    (Q := fun fuel place step => ∃ r, t.findLoop imp key (Ctrl.tagOf (Hash.hash key t.seed)) (2 ^ k - 1) fuel
      place step = .ok r ∧ Found cells key r)
  · exact ⟨passes_zero imp.width k cells g, fun m hm => absurd hm (Nat.not_lt_zero m)⟩
  · intro hround
    exact Passes.not_round (width_pos imp) hlen (h.empty_mem hne) hg hround.1
  · intro fuel n hn ⟨hpass, hseen⟩ hrest
    have hlt := walk_lt hg n
    have hgroup : t.groupAt imp (walk (2 ^ k - 1) g n * imp.width) =
        .ok ((group imp.width cells (walk (2 ^ k - 1) g n)).map (byteOf t.seed)) := by
      rw [groupAt, h.ctrl]
      exact slice_group hlen hlt
    obtain ⟨r, hr, hspec⟩ := h.matchKey_ok hleg key fun lane hl => full_of_mem_lanes hlen hlt hl
    rw [findLoop, hgroup, ok_bind, hr, ok_bind]
    cases r with
    | some hit => exact ⟨some hit, rfl, hspec⟩
    | none =>
      have hhere : ∀ item, Lane.full item ∈ group imp.width cells (walk (2 ^ k - 1) g n) →
          item.view.key ≠ key := by
        intro item hmem heq
        obtain ⟨lane, hlane⟩ := List.mem_iff_getElem?.mp hmem
        have hin := mem_lanes_of_key hlen hlt t.seed hlane
        rw [heq] at hin
        exact hspec lane hin item (lane_slot hlane).2 heq
      have hupto : ∀ m ≤ n, ∀ item, Lane.full item ∈ group imp.width cells (walk (2 ^ k - 1) g m) →
          item.view.key ≠ key := by
        intro m hm
        obtain rfl | hlt' := Nat.eq_or_lt_of_le hm
        · exact hhere
        · exact hseen m hlt'
      simp only
      by_cases hempty : Lane.empty ∈ group imp.width cells (walk (2 ^ k - 1) g n)
      · rw [if_pos ((any_matchEmpty_group hlen hlt).mpr hempty)]
        refine ⟨none, rfl, hplaced.absent (width_pos imp) ?_ hempty hupto⟩
        intro item hkey
        rw [homeOf, hkey]
        exact hhome
      · rw [if_neg ((any_matchEmpty_group hlen hlt).not.mpr hempty)]
        exact hrest ⟨hpass.succ hempty, fun m hm => hupto m (Nat.le_of_lt_succ hm)⟩

/-- A search finds the entry with the key, or there is none. -/
theorem Indexed.find_ok (h : Indexed imp t cells) (hl : Legible t.arena (entries cells)) (key : List UInt8) :
    ∃ r, t.find imp key (Hash.hash key t.seed) = .ok r ∧ Found cells key r := by
  rw [find]
  obtain hnil | ⟨hmin, k, hplaced⟩ := h.laid
  · have hslots : t.slots.isEmpty = true := by rw [h.slots, hnil]; rfl
    rw [if_pos hslots]
    refine ⟨none, rfl, ?_⟩
    rw [hnil]
    intro item hi
    cases hi
  · have hne : cells ≠ [] := by
      intro hnil
      rw [hnil] at hmin
      exact absurd hmin (by decide)
    have hslots : ¬ t.slots.isEmpty = true := by
      rw [h.slots, List.isEmpty_iff, List.map_eq_nil_iff]
      exact hne
    rw [if_neg hslots, h.groups hplaced.length, minus_ok (Nat.one_le_two_pow), ok_bind]
    exact h.findLoop_ok hl key hne hplaced

theorem Sound.find_ok (h : Sound imp t cells F lost) (key : List UInt8) :
    ∃ r, t.find imp key (Hash.hash key t.seed) = .ok r ∧ Found cells key r :=
  h.indexed.find_ok h.stored.legible key

end find
end Table
end Rugo
