import Rugo.Expired

/- The representation invariant of a table, as one statement about its index, its
   arena and the counters.

     1. `represents_unmarked`: it holds in every state reached, as long as no entry has
        the reference that reads as none.
     2. `marked_run`: such an entry comes with 2^31 oversized ones. -/
namespace Rugo
open Exec Runs Probing

theorem Arena.Serves.refs_nodup {a : Arena} {L : List Block} {lost : Nat} (h : Serves a L lost) :
    (L.map Block.ref).Nodup := by
  obtain ⟨F, hpartition⟩ := h.partition
  have hsmall := (List.pairwise_append.mp hpartition.apart).1
  have hlarge := (List.nodup_append.mp h.blocks.slots).1
  rw [List.pairwise_filterMap] at hsmall
  rw [List.Nodup, List.pairwise_map, List.pairwise_filter] at hlarge
  rw [List.Nodup, List.pairwise_map]
  refine (hsmall.and hlarge).imp_of_mem ?_
  intro b c hb hc ⟨hapart, hindex⟩ heq
  have href := h.ref_isLarge hb
  rw [heq, h.ref_isLarge hc] at href
  cases hkind : b.isLarge with
  | true => exact hindex hkind (href.trans hkind) (by rw [heq])
  | false =>
    obtain ⟨cls, -, hx⟩ := Block.small_cls hkind
    obtain ⟨cls', -, hy⟩ := Block.small_cls (href.trans hkind)
    rw [heq] at hx
    have hdisjoint := hapart _ hx _ hy
    simp only [Extent.Apart] at hdisjoint
    omega

namespace Table

def charges (t : Table) : List UInt8 → List UInt32 → Exec Nat
  | byte :: ctrl, slot :: slots => do
    let rest ← t.charges ctrl slots
    if Ctrl.isFull byte then do
      let head ← t.headAt ⟨slot⟩
      pure (Arena.charge head.size + rest)
    else pure rest
  | _, _ => pure 0

def stored (imp : Imp) (t : Table) (key : List UInt8) : Exec (Option Kept) := do
  let found ← t.find imp key (Hash.hash key t.seed)
  match found with
  | none => pure none
  | some (at_, head) => do
    let slot ← index t.slots at_
    let bytes ← t.arena.get ⟨slot⟩ head.size
    let view ← head.view bytes
    pure (some view.kept)

/-- The representation invariant: the slots, the control bytes and the counters say the
same, every entry can be read and is where a search for its key comes to, no two entries
have a key or a reference in common, and the arena charges for the entries, and for
`lost` bytes more. -/
structure Represents (imp : Imp) (t : Table) (lost : Nat) : Prop where
  cells : ∃ cells, Indexed imp t cells ∧ Legible t.arena (entries cells) ∧
    ((entries cells).map Item.ref).Nodup
  live : ∃ charged, t.charges t.ctrl t.slots = .ok charged ∧ t.liveBytes = charged + lost

variable {imp : Imp} {t : Table} {cells : List (Lane Item)} {F : List Arena.Cell} {lost : Nat} {m : Cache}

def charged (items : List Item) : Nat := (items.map fun item => Arena.charge (Entry.encode item.view).length).sum

theorem Legible.charges_ok (h : Legible t.arena (entries cells)) :
    t.charges (cells.map (byteOf t.seed)) (cells.map bitsOf) = .ok (charged (entries cells)) := by
  induction cells with
  | nil => rfl
  | cons l cells ih =>
    have hmore : Legible t.arena (entries cells) := by
      rw [entries_cons] at h
      exact ⟨fun item hi => h.short item (List.mem_append_right _ hi),
        fun item hi => h.get item (List.mem_append_right _ hi),
        fun item hi => h.peek item (List.mem_append_right _ hi)⟩
    rw [List.map_cons, List.map_cons, charges, ih hmore, ok_bind]
    cases l with
    | empty =>
      rw [show byteOf t.seed .empty = Ctrl.empty from rfl, Ctrl.isFull_empty, if_neg Bool.false_ne_true]
      rfl
    | tomb =>
      rw [show byteOf t.seed .tomb = Ctrl.deleted from rfl, Ctrl.isFull_deleted, if_neg Bool.false_ne_true]
      rfl
    | full item =>
      have hmem : item ∈ entries (.full item :: cells) := by
        rw [entries_cons]
        exact List.mem_cons_self
      have hhead : t.headAt ⟨bitsOf (.full item)⟩ = _ := h.headAt_ok hmem
      have hfull : Ctrl.isFull (byteOf t.seed (.full item)) = true := (isFull_byteOf _ _).mpr ⟨item, rfl⟩
      rw [if_pos hfull, hhead, ok_bind, h.head_size hmem]
      rfl

theorem Indexed.represents (h : Indexed imp t cells)
    (hserves : Arena.Serves t.arena ((entries cells).map Item.block) lost)
    (hshort : ∀ item ∈ entries cells, Entry.Short item.view) : Represents imp t lost where
  cells := by
    have hrefs := hserves.refs_nodup
    rw [List.map_map] at hrefs
    exact ⟨cells, h, legible hserves hshort, hrefs⟩
  live := by
    refine ⟨charged (entries cells), ?_, ?_⟩
    · rw [h.ctrl, h.slots]
      exact (legible hserves hshort).charges_ok
    · have hlive := hserves.live
      rw [List.map_map] at hlive
      exact hlive

theorem Sound.represents (h : Sound imp t cells F lost) : Represents imp t lost :=
  h.indexed.represents h.stored.holds.serves h.stored.short

theorem Indexed.stored_ok (h : Indexed imp t cells) (hl : Legible t.arena (entries cells))
    (hm : Shows (entries cells) m) (key : List UInt8) : t.stored imp key = .ok (m key) := by
  obtain ⟨found, hfind, hspec⟩ := h.find_ok hl key
  rw [stored, hfind, ok_bind]
  cases found with
  | none =>
    rw [hm.none hspec]
    rfl
  | some hit =>
    obtain ⟨i, head⟩ := hit
    obtain ⟨item, hi, hkey, rfl⟩ := hspec
    have hmem := mem_entries.mpr ⟨i, hi⟩
    have hget : t.arena.get ⟨item.ref.bits⟩ item.view.head.size = _ := hl.get_ok hmem
    have hkept := hm.get hmem
    rw [hkey] at hkept
    simp only [h.slot hi, ok_bind, hget, Entry.view_encode, hkept]
    rfl

/-! ## Runs -/

variable {p : Platform} {items : List Item} {t' : Table}

/-- No entry's reference reads as the absence of one. -/
def Unmarked (t : Table) : Prop :=
  ∀ (i : Nat) (b : UInt8), t.ctrl[i]? = some b → Ctrl.isFull b = true → t.slots[i]? ≠ some Ref.NONE.bits

theorem Has.unmarked (h : Has imp t items lost) (hun : Unmarked t) {item : Item} (hi : item ∈ items) :
    item.ref ≠ Ref.NONE := by
  obtain ⟨cells, F, hsound, hperm⟩ := h
  obtain ⟨i, hi⟩ := mem_entries.mp (hperm.mem_iff.mpr hi)
  intro hnone
  apply hun i _ (index_eq_ok.mp (hsound.indexed.byte hi)) ((isFull_byteOf _ _).mpr ⟨item, rfl⟩)
  rw [index_eq_ok.mp (hsound.indexed.slot hi), hnone]

theorem leaked_eq_zero {item : Item} (h : item.ref ≠ Ref.NONE) : leaked item = 0 := if_neg h

theorem Sought.unleaked {key : List UInt8} {now : UInt32} {r : Option Entry.View}
    (hs : Sought imp t items 0 key now r t') (h : Has imp t items 0) (hno : ∀ item ∈ items, item.ref ≠ Ref.NONE) :
    ∃ items', Has imp t' items' 0 := by
  cases hs with
  | absent _ => exact ⟨items, h⟩
  | live _ _ _ => exact ⟨items, h⟩
  | @expired item rest t' hrest _ _ _ hhas =>
    rw [leaked_eq_zero (hno item (hrest.mem_iff.mpr List.mem_cons_self))] at hhas
    exact ⟨rest, hhas⟩

/-- An operation that is answered loses nothing, where no reference reads as none. -/
theorem Has.unleaked (h : Has imp t items 0) (hun : Unmarked t) {op : Op} {a : Answer}
    (hop : t.perform imp p op = .ok (.ok a, t')) : ∃ items', Has imp t' items' 0 := by
  have hno : ∀ item ∈ items, item.ref ≠ Ref.NONE := fun item hi => h.unmarked hun hi
  cases op with
  | set key value expiry userFlags granted =>
    rw [perform] at hop
    obtain ⟨⟨r, t₁⟩, hset, hop⟩ := bind_ok_iff.mp hop
    by_cases hshort : Entry.Short ⟨key, value, expiry, userFlags⟩
    · obtain ⟨r', t₂, hset', hput⟩ := h.set_ok p granted hshort
      rw [show t.set imp p granted key value _ expiry userFlags = _ from hset'] at hset
      cases hset
      cases hput with
      | inserted _ _ hhas =>
        cases hop
        exact ⟨_, hhas⟩
      | @replaced t' item rest ref lost' hrest _ _ hlost hhas =>
        cases hop
        -- the entry it takes the place of is not marked, and nothing is lost with it
        have hzero := leaked_eq_zero (hno item (hrest.mem_iff.mpr List.mem_cons_self))
        obtain rfl : lost' = 0 := by omega
        exact ⟨_, hhas⟩
      | refused _ _ => cases hop
    · obtain hpanic | ⟨full, arena, t₂, -, hset', -⟩ := h.set_long p granted hshort
      · rw [show t.set imp p granted key value _ expiry userFlags = _ from hpanic] at hset
        cases hset
      · rw [show t.set imp p granted key value _ expiry userFlags = _ from hset'] at hset
        cases hset
        cases hop
  | get key now =>
    obtain ⟨r, t₁, hsought, hget, -⟩ := h.reads_ok key now
    rw [perform, hget] at hop
    cases hop
    exact hsought.unleaked h hno
  | view key now =>
    obtain ⟨r, t₁, hsought, -, hview, -⟩ := h.reads_ok key now
    rw [perform, hview] at hop
    cases hop
    exact hsought.unleaked h hno
  | contains key now =>
    obtain ⟨r, t₁, hsought, -, -, hcontains⟩ := h.reads_ok key now
    rw [perform, hcontains] at hop
    cases hop
    exact hsought.unleaked h hno
  | remove key =>
    obtain ⟨hremove, -⟩ | ⟨t₁, item, rest, hremove, hrest, -, -, hhas⟩ := h.remove_ok key
    · rw [perform, hremove] at hop
      cases hop
      exact ⟨items, h⟩
    · rw [perform, hremove] at hop
      cases hop
      rw [leaked_eq_zero (hno item (hrest.mem_iff.mpr List.mem_cons_self))] at hhas
      exact ⟨rest, hhas⟩
  | expire key expiry now granted =>
    obtain ⟨r, t₁, hexpire, hdated⟩ := h.expire_ok p granted key expiry now
    rw [perform, hexpire] at hop
    cases hdated with
    | missing hsought =>
      cases hop
      exact hsought.unleaked h hno
    | @changed t' item rest ref lost' hrest _ _ _ hlost hhas =>
      cases hop
      have hzero := leaked_eq_zero (hno item (hrest.mem_iff.mpr List.mem_cons_self))
      obtain rfl : lost' = 0 := by omega
      exact ⟨_, hhas⟩
    | refused _ _ _ _ _ => cases hop
  | shrink =>
    obtain ⟨cells, F, hsound, hperm⟩ := h
    obtain ⟨b, t₁, cells', hshrink, hsound', -⟩ := hsound.shrink_ok
    rw [perform, hshrink] at hop
    cases hop
    exact ⟨_, hsound'.has⟩
  | clear =>
    obtain ⟨t₁, hclear, -, hhas⟩ := h.clear_ok
    rw [perform, hclear] at hop
    cases hop
    rw [leak_eq_zero hno] at hhas
    exact ⟨[], hhas⟩
  | sweep from_ budget now =>
    obtain ⟨at_, gone, rest, t₁, hsweep, -, hsplit, -, hhas⟩ := h.sweep_ok from_ budget now
    rw [perform, hsweep] at hop
    cases hop
    rw [leak_eq_zero fun item hi => hno item (hsplit.mem_iff.mpr (List.mem_append_left _ hi))] at hhas
    exact ⟨rest, hhas⟩
  | evict roll spare =>
    obtain ⟨cells, F, hsound, hperm⟩ := h
    obtain ⟨hevict, -⟩ | ⟨t₁, i, item, rest, hevict, -, hi, -, hrest, hhas⟩ := hsound.evictOne_ok roll spare
    · rw [perform, hevict] at hop
      cases hop
      exact ⟨_, hsound.has⟩
    · rw [perform, hevict] at hop
      cases hop
      rw [leaked_eq_zero (hno item (hperm.mem_iff.mp (mem_entries.mpr ⟨i, hi⟩)))] at hhas
      exact ⟨rest, hhas⟩

/-- In a run that is refused nothing, and in which no entry ever has the reference that
reads as none, the representation invariant holds and no counter can underflow. -/
theorem represents_unmarked (imp : Imp) (p : Platform) (seed : UInt64)
    {tr : List (Table × (Op × Except Full Answer) × Table)} {t : Table}
    (h : Run (Returns imp p) (Table.new seed) tr t)
    (hsteps : ∀ x ∈ tr, (∃ a, x.2.1.2 = .ok a) ∧ Unmarked x.1) :
    Represents imp t 0 ∧ ∀ op, t.perform imp p op ≠ .error .underflow := by
  have hstep : ∀ (t : Table) (x : Op × Except Full Answer) (t' : Table), (∃ items, Has imp t items 0) →
      ((∃ a, x.2 = .ok a) ∧ Unmarked t) → Returns imp p t x t' → ∃ items, Has imp t' items 0 := by
    rintro t ⟨op, r⟩ t' ⟨items, hhas⟩ ⟨⟨a, rfl⟩, hun⟩ hmoves
    exact hhas.unleaked hun hmoves
  obtain ⟨⟨items, hhas⟩, -⟩ := h.invariant (C := fun t x => (∃ a, x.2 = .ok a) ∧ Unmarked t)
    ⟨_, (sound_new imp seed).has⟩ hstep hsteps
  refine ⟨?_, ?_⟩
  · obtain ⟨cells, F, hsound, -⟩ := hhas
    exact hsound.represents
  · intro op hunder
    obtain ⟨m, his⟩ := reached_is h fun x hx => .inl (hsteps x hx).1
    by_cases hshort : op.Short
    · obtain ⟨r, t', hop, -⟩ := his.answers p _ hshort
      rw [hop] at hunder
      cases hunder
    · -- what no header can describe is written past the end of its block
      cases op with
      | set key value expiry userFlags granted =>
        obtain hpanic | ⟨full, t', hset, -⟩ := his.set_long p granted
          (show ¬ Fits key ⟨value, expiry, userFlags⟩ from hshort)
        · rw [perform, hpanic] at hunder
          cases hunder
        · rw [perform, hset] at hunder
          cases hunder
      | _ => exact hshort trivial

theorem represents_busy : ∃ tr t, Run (Returns .word .boxed) (Table.new 0) tr t ∧ tr.map (fun x => x.2.1.1) = busy ∧
    Represents .word t 0 ∧ ∀ op, t.perform .word .boxed op ≠ .error .underflow := by
  obtain ⟨tr, t, hrun, hops, -, hall⟩ := busy_run
  refine ⟨tr, t, hrun, hops, represents_unmarked .word .boxed 0 hrun ?_⟩
  intro x hx
  obtain ⟨hok, -, hmarks⟩ := hall x hx
  refine ⟨hok, ?_⟩
  intro i b hb hfull hslot
  refine hmarks (b, Ref.NONE.bits) (List.mem_iff_getElem?.mpr ⟨i, ?_⟩) hfull rfl
  rw [List.getElem?_zip_eq_some]
  exact ⟨hb, hslot⟩

end Table

/-! ## The reference that reads as none -/

namespace Arena
variable {a a' : Arena} {L : List Block} {F : List Cell} {lost len : Nat}

/-- An oversized block is to be had until there are 2^31 slots, and takes one at most. -/
theorem Holds.alloc_large (h : Holds a L F lost) (p : Platform) (granted : Bool) (hlen : classOf len = none)
    (hroom : a.large.length < 2 ^ 31) :
    ∃ r a', a.alloc p granted len = .ok (.ok r, a') ∧ a'.large.length ≤ a.large.length + 1 := by
  rw [alloc, hlen]
  simp only
  rw [allocLarge, largeSlot]
  cases hfree : a.largeFree with
  | cons hole rest =>
    have hhole := (h.blocks.holes hole (by rw [hfree]; exact List.mem_cons_self)).1
    simp only [update_ok hhole, ok_bind]
    exact ⟨_, _, rfl, by rw [List.length_set]; omega⟩
  | nil =>
    have hn : (narrow a.large.length).toNat = a.large.length := by
      rw [narrow, UInt32.toNat_ofNat']
      omega
    have hand : narrow a.large.length &&& LARGE = 0 := (and_LARGE _).mpr (by omega)
    have hmax : ¬ a.large.length > u32Max.toNat := by
      have hu32 : u32Max.toNat = 2 ^ 32 - 1 := rfl
      omega
    have hlt : (narrow a.large.length).toNat < (a.large ++ [[]]).length := by
      rw [hn, List.length_append]
      exact Nat.lt_succ_self _
    simp only [if_neg hmax, hand, ne_eq, not_true_eq_false, if_false, update_ok hlt, ok_bind]
    exact ⟨_, _, rfl, by rw [List.length_set, List.length_append]; exact Nat.le_refl _⟩

end Arena

namespace Table
variable {imp : Imp} {p : Platform} {granted : Bool} {t t' : Table} {cells : List (Lane Item)}
  {F : List Arena.Cell} {lost : Nat} {items : List Item}

theorem occupy_arena {i : Nat} (h : t.occupy i = .ok t') : t'.arena = t.arena := by
  rw [occupy] at h
  obtain ⟨byte, -, h⟩ := bind_ok_iff.mp h
  split at h
  · obtain ⟨tombstones, -, h⟩ := bind_ok_iff.mp h
    cases h
    rfl
  · obtain ⟨growthLeft, -, h⟩ := bind_ok_iff.mp h
    cases h
    rfl

/-- A new key whose entry the arena has a block for is stored, and all that is done to the arena besides
is that the entry is written. -/
theorem Has.set_new (h : Has imp t items lost) {view : Entry.View} (hshort : Entry.Short view) {new : Ref}
    {given : Arena} (halloc : t.arena.alloc p granted view.size = .ok (.ok new, given))
    (habsent : ∀ item ∈ items, item.view.key ≠ view.key) :
    ∃ ref t', t.perform imp p (.set view.key view.value view.expiry view.userFlags granted) =
        .ok (.ok (.wrote .inserted), t') ∧
      Has imp t' (⟨ref, view⟩ :: items) lost ∧ t'.seed = t.seed ∧
      given.getMut new view.size (fun into => Entry.write into view.key view.value view.expiry view.userFlags) =
        .ok t'.arena := by
  obtain ⟨r, t', hset, hput⟩ := h.set_ok p granted hshort
  obtain ⟨cells, F, hsound, hperm⟩ := h
  obtain ⟨found, hfind, hspec⟩ := hsound.find_ok view.key
  have hnone : found = none := by
    cases found with
    | none => rfl
    | some hit =>
      obtain ⟨item, hi, hkey, -⟩ := hspec
      exact absurd hkey (habsent item (hperm.mem_iff.mp (mem_entries.mpr ⟨_, hi⟩)))
  obtain ⟨t₁, cells₁, hensure, h₁, -, -, harena, -⟩ := hsound.ensure_ok
  -- what the insertion does, up to the arena that it leaves
  have hinv := hset
  rw [Table.set, hfind, hnone, ok_bind] at hinv
  simp only at hinv
  rw [insert, hensure, ok_bind] at hinv
  obtain ⟨⟨res, t₂⟩, hstore, hinv⟩ := bind_ok_iff.mp hinv
  rw [Entry.View.size] at halloc
  rw [store, harena, halloc, ok_bind] at hstore
  obtain ⟨arena, hmut, hpure⟩ := bind_ok_iff.mp hstore
  cases hpure
  obtain ⟨i, -, hinv⟩ := bind_ok_iff.mp hinv
  obtain ⟨t₃, hoccupy, hinv⟩ := bind_ok_iff.mp hinv
  obtain ⟨ctrl, -, hinv⟩ := bind_ok_iff.mp hinv
  obtain ⟨slots, -, hinv⟩ := bind_ok_iff.mp hinv
  obtain ⟨t₄, hretime, hpure⟩ := bind_ok_iff.mp hinv
  cases hpure
  cases hput with
  | inserted _ hseed hhas =>
    refine ⟨_, t', ?_, hhas, hseed, ?_⟩
    · rw [perform, show t.set imp p granted view.key view.value _ view.expiry view.userFlags = _ from hset]
      rfl
    · have harena₃ := occupy_arena hoccupy
      have harena₄ := retime_arena hretime
      simp only at harena₃ harena₄
      rw [harena₄, harena₃]
      exact hmut

theorem Has.set_large (h : Has imp t items lost) (p : Platform) (granted : Bool) {view : Entry.View}
    (hshort : Entry.Short view) (hlarge : Arena.classOf view.size = none) (hroom : t.arena.large.length < 2 ^ 31)
    (habsent : ∀ item ∈ items, item.view.key ≠ view.key) :
    ∃ ref t', t.perform imp p (.set view.key view.value view.expiry view.userFlags granted) =
        .ok (.ok (.wrote .inserted), t') ∧
      Has imp t' (⟨ref, view⟩ :: items) lost ∧ t'.arena.large.length ≤ t.arena.large.length + 1 := by
  have hgiven : ∃ new given, t.arena.alloc p granted view.size = .ok (.ok new, given) ∧
      given.large.length ≤ t.arena.large.length + 1 := by
    obtain ⟨cells, F, hsound, -⟩ := h
    exact hsound.stored.holds.alloc_large p granted hlarge hroom
  obtain ⟨new, given, halloc, hle⟩ := hgiven
  obtain ⟨ref, t', hperform, hhas, -, hmut⟩ := h.set_new hshort halloc habsent
  exact ⟨ref, t', hperform, hhas, by rw [Arena.getMut_large hmut]; exact hle⟩

theorem mem_of_nodup {l : List Nat} {n k : Nat} (hnodup : l.Nodup) (hlt : ∀ i ∈ l, i < n) (hlen : l.length = n)
    (hk : k < n) : k ∈ l := by
  have hsub : l ⊆ List.range n := fun i hi => List.mem_range.mpr (hlt i hi)
  have hperm := (List.subperm_of_subset hnodup hsub).perm_of_length_le (by rw [List.length_range, hlen])
  exact hperm.mem_iff.mpr (List.mem_range.mpr hk)

/-- Oversized entries, as many as there are references for: one of them has the
reference that reads as none. -/
theorem Has.marked (h : Has imp t items lost) (hlarge : ∀ item ∈ items, item.block.isLarge = true)
    (hroom : t.arena.large.length ≤ 2 ^ 31) (hlen : items.length = 2 ^ 31) : ∃ item ∈ items, item.ref = Ref.NONE := by
  obtain ⟨cells, F, hsound, hperm⟩ := h
  have hblocks := (hsound.stored.perm hperm).holds.blocks
  have hplace : ∀ item ∈ items, item.ref.isLarge = true ∧ item.ref.index < t.arena.large.length := by
    intro item hi
    obtain ⟨href, hget⟩ := hblocks.large item.block (List.mem_map_of_mem hi) (hlarge item hi)
    exact ⟨href, (List.getElem?_eq_some_iff.mp hget).1⟩
  have hnodup : (items.map fun item => item.ref.index).Nodup := by
    have hslots := (List.nodup_append.mp hblocks.slots).1
    have hall : (items.map Item.block).filter Arena.Block.isLarge = items.map Item.block := by
      apply List.filter_eq_self.mpr
      intro b hb
      obtain ⟨item, hi, rfl⟩ := List.mem_map.mp hb
      exact hlarge item hi
    rw [hall, List.map_map] at hslots
    exact hslots
  have hmem : 2 ^ 31 - 1 ∈ items.map fun item => item.ref.index := by
    apply mem_of_nodup hnodup (n := 2 ^ 31)
    · intro i hi
      obtain ⟨item, hitem, rfl⟩ := List.mem_map.mp hi
      exact Nat.lt_of_lt_of_le (hplace item hitem).2 hroom
    · rw [List.length_map, hlen]
    · decide
  obtain ⟨item, hi, hindex⟩ := List.mem_map.mp hmem
  refine ⟨item, hi, ?_⟩
  have hbig := (Ref.isLarge_iff _).mp (hplace item hi).1
  have hlt := item.ref.bits.toNat_lt
  rw [Ref.index_eq] at hindex
  have hnone : Ref.NONE.bits.toNat = 2 ^ 32 - 1 := rfl
  apply congrArg Ref.mk (UInt32.toNat_inj.mp _ : item.ref.bits = Ref.NONE.bits)
  omega

/-! ## A run to that reference -/

/-- An oversized entry, under a key of four bytes. -/
def bulky (n : Nat) : Entry.View := ⟨Words.leBytes 4 n, List.replicate smallMax 0, none, none⟩

theorem bulky_short (n : Nat) : Entry.Short (bulky n) := by
  have hkey : (bulky n).key.length = 4 := Words.leBytes_length 4 n
  have hvalue : (bulky n).value.length = 2048 := List.length_replicate
  exact ⟨by omega, by omega⟩

theorem bulky_inj {n k : Nat} (hn : n < 2 ^ 31) (hk : k < 2 ^ 31) (h : (bulky n).key = (bulky k).key) : n = k := by
  have hvalue := congrArg Words.leValue h
  rw [bulky, bulky, Words.leValue_leBytes, Words.leValue_leBytes] at hvalue
  omega

theorem bulky_large (n : Nat) : Arena.classOf (bulky n).size = none := by
  have hvalue : (bulky n).value.length = smallMax := List.length_replicate
  have hmore : (bulky n).size > smallMax := by
    rw [Entry.View.size, Entry.sizeOfEntry, hvalue]
    omega
  rw [Arena.classOf, if_pos (.inr hmore)]

/-- So many of them, one after another. -/
theorem bulkies (n : Nat) (hn : n ≤ 2 ^ 31) : ∃ tr t items, Run (Returns .word .boxed) (Table.new 0) tr t ∧
    (∀ x ∈ tr, ∃ a, x.2.1.2 = .ok a) ∧ Has .word t items 0 ∧ t.arena.large.length ≤ n ∧ items.length = n ∧
    ∀ item ∈ items, ∃ i < n, item.view = bulky i := by
  induction n with
  | zero => exact ⟨[], _, [], .nil, by simp, (sound_new .word 0).has, Nat.le_refl _, rfl, by simp⟩
  | succ n ih =>
    obtain ⟨tr, t, items, hrun, hall, hhas, hroom, hlen, hviews⟩ := ih (by omega)
    have habsent : ∀ item ∈ items, item.view.key ≠ (bulky n).key := by
      intro item hi hkey
      obtain ⟨i, hlt, hview⟩ := hviews item hi
      rw [hview] at hkey
      exact absurd (bulky_inj (by omega) (by omega) hkey) (Nat.ne_of_lt hlt)
    obtain ⟨ref, t', hperform, hhas', hroom'⟩ := hhas.set_large .boxed true (bulky_short n) (bulky_large n)
      (by omega) habsent
    have hmoves : Returns .word .boxed t
        (.set (bulky n).key (bulky n).value none none true, .ok (.wrote .inserted)) t' :=
      hperform
    refine ⟨_, t', _, hrun.snoc hmoves, ?_, hhas', by omega, by rw [List.length_cons, hlen], ?_⟩
    · intro x hx
      obtain hx | hx := List.mem_append.mp hx
      · exact hall x hx
      · rw [List.mem_singleton.mp hx]
        exact ⟨_, rfl⟩
    · intro item hi
      obtain rfl | hi := List.mem_cons.mp hi
      · exact ⟨n, Nat.lt_succ_self n, rfl⟩
      · obtain ⟨i, hlt, hview⟩ := hviews item hi
        exact ⟨i, Nat.lt_succ_of_lt hlt, hview⟩

/-- After 2^31 oversized entries one has the reference that reads as none. Removing it
gives nothing back, and the arena goes on charging for it. -/
theorem marked_run : ∃ tr t, Run (Returns .word .boxed) (Table.new 0) tr t ∧ (∀ x ∈ tr, ∃ a, x.2.1.2 = .ok a) ∧
    ¬ Represents .word t 0 := by
  obtain ⟨tr, t, items, hrun, hall, hhas, hroom, hlen, hviews⟩ := bulkies (2 ^ 31) (Nat.le_refl _)
  have hlarge : ∀ item ∈ items, item.block.isLarge = true := by
    intro item hi
    obtain ⟨i, -, hview⟩ := hviews item hi
    have hblock : item.block.data.length = (bulky i).size := by
      show (Entry.encode item.view).length = _
      rw [hview, Entry.encode_length (bulky_short i)]
    rw [Arena.Block.isLarge_iff, hblock, bulky_large]
  obtain ⟨item, hi, hnone⟩ := hhas.marked hlarge hroom hlen
  obtain ⟨-, habsent⟩ | ⟨t', item', rest, hremove, hrest, hkey, -, hhas'⟩ := hhas.remove_ok item.view.key
  · exact absurd rfl (habsent item hi)
  · have hsame : item' = item :=
      List.inj_on_of_nodup_map hhas.keys (hrest.mem_iff.mpr List.mem_cons_self) hi hkey
    have hleaked : 0 < leaked item' := by
      obtain ⟨i, -, hview⟩ := hviews item hi
      rw [hsame, leaked, if_pos hnone, hview, Entry.encode_length (bulky_short i), Entry.View.size, Entry.sizeOfEntry]
      omega
    have hmoves : Returns .word .boxed t (.remove item.view.key, .ok (.flag true)) t' := by
      rw [Returns, perform, hremove]
      rfl
    refine ⟨_, t', hrun.snoc hmoves, ?_, ?_⟩
    · intro x hx
      obtain hx | hx := List.mem_append.mp hx
      · exact hall x hx
      · rw [List.mem_singleton.mp hx]
        exact ⟨_, rfl⟩
    · intro hrep
      obtain ⟨cells, F, hsound, -⟩ := hhas'
      obtain ⟨charged, hcharged, hlive⟩ := hsound.represents.live
      obtain ⟨charged', hcharged', hlive'⟩ := hrep.live
      rw [hcharged, Except.ok.injEq] at hcharged'
      omega

end Table
end Rugo
