import Rugo.Expired

/- How large the index grows. The bound needs no more of a table than its control
   bytes and its counters, so it holds of every run that does not panic, whatever
   became of the arena: `Tallied` is what the counters say of the bytes, and every
   operation keeps it.

     1. `capacity_le`: no run with at most `n` entries stored at once has more than
        `max(16, 32n/7)` slots, and a rebuild leaves room that the insert which asked
        for it finds. -/
namespace Rugo.Table
open Exec Runs Probing Triangular

def held (t : Table) : Nat := t.ctrl.countP Ctrl.isFull

/-- What the counters say of the control bytes. -/
structure Tallied (t : Table) : Prop where
  slots : t.slots.length = t.ctrl.length
  valid : ∀ b ∈ t.ctrl, Ctrl.Valid b
  len : t.len = t.held
  tombstones : t.tombstones = t.ctrl.count Ctrl.deleted
  growth : t.growthLeft + t.len + t.tombstones = t.ctrl.length * loadNum / loadDen
  size : t.ctrl.length = 0 ∨ minCapacity ≤ t.ctrl.length ∧ ∃ m, t.ctrl.length = 2 ^ m

variable {imp : Imp} {p : Platform} {granted : Bool} {t t' : Table}

/-! ## Probes -/

theorem slice_byte {ctrl probe : List UInt8} {base width lane : Nat} {b : UInt8}
    (h : slice ctrl base (base + width) = .ok probe) (hb : probe[lane]? = some b) :
    ctrl[base + lane]? = some b := by
  obtain ⟨-, rfl⟩ := slice_eq_ok.mp h
  have hlt := (List.getElem?_eq_some_iff.mp hb).1
  rw [List.length_take] at hlt
  rw [List.getElem?_take_of_lt (by omega), List.getElem?_drop] at hb
  exact hb

theorem slice_width {ctrl probe : List UInt8} {base width : Nat}
    (h : slice ctrl base (base + width) = .ok probe) : probe.length = width := by
  rw [slice_length h]
  omega

theorem walkTo_picked {pick : List UInt8 → BitMask} {ctrl : List UInt8} {mask fuel g step i : Nat} (P : UInt8 → Prop)
    (hpick : ∀ probe lane, probe.length = imp.width → (∀ b ∈ probe, b ∈ ctrl) →
      imp.lowest (pick probe) = some lane → ∃ b, probe[lane]? = some b ∧ P b)
    (h : walkTo imp pick ctrl mask fuel g step = .ok i) : ∃ b, ctrl[i]? = some b ∧ P b := by
  induction fuel generalizing g step with
  | zero => cases h
  | succ fuel ih =>
    rw [walkTo, bind_ok_iff] at h
    obtain ⟨probe, hprobe, h⟩ := h
    have hsub : ∀ b ∈ probe, b ∈ ctrl := by
      intro b hb
      obtain ⟨lane, hlane⟩ := List.mem_iff_getElem?.mp hb
      exact List.mem_of_getElem? (slice_byte hprobe hlane)
    cases hlow : imp.lowest (pick probe) with
    | none =>
      rw [hlow] at h
      exact ih h
    | some lane =>
      rw [hlow] at h
      cases h
      obtain ⟨b, hb, hP⟩ := hpick probe lane (slice_width hprobe) hsub hlow
      exact ⟨b, slice_byte hprobe hb, hP⟩

theorem freeSlot_free {hash : UInt64} {i : Nat} (h : t.freeSlot imp hash = .ok i) :
    ∃ b, t.ctrl[i]? = some b ∧ Ctrl.isFull b = false := by
  rw [freeSlot, bind_ok_iff] at h
  obtain ⟨mask, -, h⟩ := h
  refine walkTo_picked (fun b => Ctrl.isFull b = false) ?_ h
  intro probe lane hwidth _ hlow
  have hfree := Imp.lowest_matchFree hwidth
  rw [hlow] at hfree
  exact hfree

theorem walkTo_empty {ctrl : List UInt8} {mask fuel g step i : Nat} (hvalid : ∀ b ∈ ctrl, Ctrl.Valid b)
    (h : walkTo imp imp.matchEmpty ctrl mask fuel g step = .ok i) : ctrl[i]? = some Ctrl.empty := by
  obtain ⟨b, hb, rfl⟩ := walkTo_picked (fun b => b = Ctrl.empty) (by
    intro probe lane hwidth hsub hlow
    have hlowest := Imp.lowest_matchEmpty hwidth fun b hb => hvalid b (hsub b hb)
    rw [hlow] at hlowest
    exact ⟨_, hlowest, rfl⟩) h
  exact hb

theorem matchKey_lane {key : List UInt8} {base i : Nat} {head : Entry.Head} {lanes : List Nat}
    (h : t.matchKey key base lanes = .ok (some (i, head))) : ∃ lane ∈ lanes, i = base + lane := by
  induction lanes with
  | nil => cases h
  | cons lane lanes ih =>
    rw [matchKey, bind_ok_iff] at h
    obtain ⟨slot, -, h⟩ := h
    rw [bind_ok_iff] at h
    obtain ⟨⟨head', bytes⟩, -, h⟩ := h
    rw [bind_ok_iff] at h
    obtain ⟨keyHeld, -, h⟩ := h
    split at h
    · cases h
      exact ⟨lane, List.mem_cons_self, rfl⟩
    · obtain ⟨lane', hmem, heq⟩ := ih h
      exact ⟨lane', List.mem_cons_of_mem _ hmem, heq⟩

theorem findLoop_full {key : List UInt8} {tag : UInt8} {mask fuel g step i : Nat} {head : Entry.Head}
    (htag : Ctrl.isFull tag = true) (h : t.findLoop imp key tag mask fuel g step = .ok (some (i, head))) :
    ∃ b, t.ctrl[i]? = some b ∧ Ctrl.isFull b = true := by
  induction fuel generalizing g step with
  | zero => cases h
  | succ fuel ih =>
    rw [findLoop, bind_ok_iff] at h
    obtain ⟨probe, hprobe, h⟩ := h
    rw [bind_ok_iff] at h
    obtain ⟨found, hfound, h⟩ := h
    cases found with
    | some hit =>
      cases h
      obtain ⟨lane, hlane, rfl⟩ := matchKey_lane hfound
      obtain ⟨b, hb, hfull⟩ := (Imp.mem_lanes_matchByte (slice_width hprobe) htag lane).2 hlane
      exact ⟨b, slice_byte hprobe hb, hfull⟩
    | none =>
      simp only at h
      split at h
      · cases h
      · exact ih h

theorem find_full {key : List UInt8} {hash : UInt64} {i : Nat} {head : Entry.Head}
    (h : t.find imp key hash = .ok (some (i, head))) : ∃ b, t.ctrl[i]? = some b ∧ Ctrl.isFull b = true := by
  rw [find] at h
  split at h
  · cases h
  · rw [bind_ok_iff] at h
    obtain ⟨mask, -, h⟩ := h
    exact findLoop_full (Ctrl.isFull_tagOf hash) h

/-! ## What leaves the index alone -/

structure SameIndex (t t' : Table) : Prop where
  ctrl : t'.ctrl = t.ctrl
  slots : t'.slots.length = t.slots.length
  len : t'.len = t.len
  tombstones : t'.tombstones = t.tombstones
  growth : t'.growthLeft = t.growthLeft

namespace SameIndex
variable {t'' : Table}

theorem refl (t : Table) : SameIndex t t := ⟨rfl, rfl, rfl, rfl, rfl⟩

theorem trans (h : SameIndex t t') (h' : SameIndex t' t'') : SameIndex t t'' :=
  ⟨h'.ctrl.trans h.ctrl, h'.slots.trans h.slots, h'.len.trans h.len, h'.tombstones.trans h.tombstones,
    h'.growth.trans h.growth⟩

theorem held (h : SameIndex t t') : t'.held = t.held := by rw [Table.held, h.ctrl, Table.held]

theorem tallied (h : SameIndex t t') (ht : Tallied t) : Tallied t' where
  slots := by rw [h.slots, h.ctrl, ht.slots]
  valid := by rw [h.ctrl]; exact ht.valid
  len := by rw [h.len, h.held, ht.len]
  tombstones := by rw [h.tombstones, h.ctrl, ht.tombstones]
  growth := by rw [h.growth, h.len, h.tombstones, h.ctrl, ht.growth]
  size := by rw [h.ctrl]; exact ht.size

end SameIndex

theorem beside (t : Table) (arena : Arena) (timed : Nat) {slots : List UInt32} (h : slots.length = t.slots.length) :
    SameIndex t { t with arena, timed, slots } := ⟨rfl, h, rfl, rfl, rfl⟩

theorem retime_same {was now : Bool} (h : t.retime was now = .ok t') : SameIndex t t' := by
  rw [retime] at h
  split at h
  · obtain ⟨timed, -, h⟩ := bind_ok_iff.mp h
    cases h
    exact beside t t.arena timed rfl
  · split at h
    · cases h
      exact beside t t.arena (t.timed + 1) rfl
    · cases h
      exact .refl t

theorem store_same {size : Nat} {key value : List UInt8} {expiry userFlags : Option UInt32} {r : Except Full Ref}
    (h : t.store p granted size key value expiry userFlags = .ok (r, t')) : SameIndex t t' := by
  rw [store] at h
  obtain ⟨⟨res, arena⟩, -, h⟩ := bind_ok_iff.mp h
  cases res with
  | error full =>
    cases h
    exact beside t arena t.timed rfl
  | ok new =>
    obtain ⟨arena', -, h⟩ := bind_ok_iff.mp h
    cases h
    exact beside t arena' t.timed rfl

theorem swap_same {at_ size : Nat} {old new : Ref} {was now : Bool}
    (h : t.swap at_ old new size was now = .ok t') : SameIndex t t' := by
  rw [swap] at h
  obtain ⟨arena, -, h⟩ := bind_ok_iff.mp h
  obtain ⟨slots, hslots, h⟩ := bind_ok_iff.mp h
  obtain ⟨-, rfl⟩ := update_eq_ok.mp hslots
  have hretime := retime_same h
  exact (beside t arena t.timed List.length_set).trans hretime

theorem replace_same {at_ size : Nat} {head : Entry.Head} {key value : List UInt8}
    {expiry userFlags : Option UInt32} {r : Except Full Wrote}
    (h : t.replace p granted at_ head size key value expiry userFlags = .ok (r, t')) : SameIndex t t' := by
  rw [replace] at h
  obtain ⟨slot, -, h⟩ := bind_ok_iff.mp h
  split at h
  · obtain ⟨arena, -, h⟩ := bind_ok_iff.mp h
    obtain ⟨t₁, hretime, h⟩ := bind_ok_iff.mp h
    cases h
    have hsame := retime_same hretime
    exact (beside t arena t.timed rfl).trans hsame
  · obtain ⟨⟨res, t₁⟩, hstore, h⟩ := bind_ok_iff.mp h
    cases res with
    | error full =>
      cases h
      exact store_same hstore
    | ok new =>
      obtain ⟨t₂, hswap, h⟩ := bind_ok_iff.mp h
      cases h
      exact (store_same hstore).trans (swap_same hswap)

theorem rewrite_same {at_ : Nat} {entry : Ref} {head : Entry.Head} {expiry : Option UInt32} {r : Except Full Bool}
    (h : t.rewrite p granted at_ entry head expiry = .ok (r, t')) : SameIndex t t' := by
  rw [rewrite] at h
  obtain ⟨bytes, -, h⟩ := bind_ok_iff.mp h
  obtain ⟨decoded, -, h⟩ := bind_ok_iff.mp h
  obtain ⟨userFlags, -, h⟩ := bind_ok_iff.mp h
  obtain ⟨key, -, h⟩ := bind_ok_iff.mp h
  obtain ⟨value, -, h⟩ := bind_ok_iff.mp h
  obtain ⟨⟨res, t₁⟩, hstore, h⟩ := bind_ok_iff.mp h
  cases res with
  | error full =>
    cases h
    exact store_same hstore
  | ok new =>
    obtain ⟨t₂, hswap, h⟩ := bind_ok_iff.mp h
    cases h
    exact (store_same hstore).trans (swap_same hswap)

/-! ## Erasing -/

/-- The slots are as many as they were, and no more of them hold an entry. -/
structure Lessened (t t' : Table) : Prop where
  tallied : Tallied t'
  slots : t'.slots.length = t.slots.length
  held : t'.held ≤ t.held

theorem Lessened.refl (h : Tallied t) : Lessened t t := ⟨h, rfl, Nat.le_refl _⟩

theorem Lessened.trans {t'' : Table} (h : Lessened t t') (h' : Lessened t' t'') : Lessened t t'' :=
  ⟨h'.tallied, h'.slots.trans h.slots, Nat.le_trans h'.held h.held⟩

theorem SameIndex.lessened (h : SameIndex t t') (ht : Tallied t) : Lessened t t' :=
  ⟨h.tallied ht, h.slots, Nat.le_of_eq h.held⟩

theorem Tallied.set (h : Tallied t) {i : Nat} {old : UInt8} (hold : t.ctrl[i]? = some old) {new : UInt8}
    (hnew : Ctrl.Valid new) :
    (t.ctrl.set i new).length = t.ctrl.length ∧ (∀ b ∈ t.ctrl.set i new, Ctrl.Valid b) ∧
    (t.ctrl.set i new).countP Ctrl.isFull + (if Ctrl.isFull old then 1 else 0) =
      t.held + (if Ctrl.isFull new then 1 else 0) ∧
    (t.ctrl.set i new).count Ctrl.deleted + (if old = Ctrl.deleted then 1 else 0) =
      t.tombstones + (if new = Ctrl.deleted then 1 else 0) := by
  refine ⟨List.length_set, ?_, countP_set _ hold new, ?_⟩
  · intro b hb
    obtain hmem | rfl := List.mem_or_eq_of_mem_set hb
    · exact h.valid b hmem
    · exact hnew
  · have hcount := countP_set (· == Ctrl.deleted) hold new
    simp only [beq_iff_eq] at hcount
    rw [h.tombstones]
    exact hcount

theorem vacate_byte {i : Nat} (h : t.vacate imp i = .ok t') : ∃ byte, (byte = Ctrl.empty ∨ byte = Ctrl.deleted) ∧
    t'.ctrl = t.ctrl.set i byte ∧ t'.slots = t.slots ∧ t'.len = t.len ∧
    t'.tombstones = t.tombstones + (if byte = Ctrl.deleted then 1 else 0) ∧
    t'.growthLeft + t'.tombstones = t.growthLeft + t.tombstones + 1 := by
  rw [vacate] at h
  obtain ⟨probe, -, h⟩ := bind_ok_iff.mp h
  split at h
  · obtain ⟨ctrl, hctrl, h⟩ := bind_ok_iff.mp h
    obtain ⟨-, rfl⟩ := update_eq_ok.mp hctrl
    cases h
    refine ⟨Ctrl.empty, .inl rfl, rfl, rfl, rfl, rfl, ?_⟩
    simp only
    omega
  · obtain ⟨ctrl, hctrl, h⟩ := bind_ok_iff.mp h
    obtain ⟨-, rfl⟩ := update_eq_ok.mp hctrl
    cases h
    exact ⟨Ctrl.deleted, .inr rfl, rfl, rfl, rfl, rfl, rfl⟩

theorem Tallied.erase (h : Tallied t) {i : Nat} {b : UInt8} (hb : t.ctrl[i]? = some b)
    (hfull : Ctrl.isFull b = true) (herase : t.erase imp i = .ok t') : Lessened t t' := by
  rw [Table.erase] at herase
  obtain ⟨slot, -, herase⟩ := bind_ok_iff.mp herase
  obtain ⟨head, -, herase⟩ := bind_ok_iff.mp herase
  obtain ⟨t₁, hvacate, herase⟩ := bind_ok_iff.mp herase
  obtain ⟨slots, hslots, herase⟩ := bind_ok_iff.mp herase
  obtain ⟨arena, -, herase⟩ := bind_ok_iff.mp herase
  obtain ⟨len, hlen, herase⟩ := bind_ok_iff.mp herase
  obtain ⟨-, rfl⟩ := update_eq_ok.mp hslots
  obtain ⟨hpos, rfl⟩ := minus_eq_ok.mp hlen
  obtain ⟨byte, hbyte, hctrl, hslots', hlen', htombs, hgrowth⟩ := vacate_byte hvacate
  -- the lane is left empty or a tombstone
  have hnew : Ctrl.Valid byte ∧ Ctrl.isFull byte = false := by
    obtain rfl | rfl := hbyte
    · exact ⟨.inl rfl, rfl⟩
    · exact ⟨.inr (.inl rfl), rfl⟩
  have hold : b ≠ Ctrl.deleted := by
    rintro rfl
    cases hfull
  obtain ⟨hlength, hvalid, hheld, hcount⟩ := h.set hb hnew.1
  rw [if_pos hfull, hnew.2, if_neg Bool.false_ne_true] at hheld
  rw [if_neg hold, Nat.add_zero] at hcount
  have hlen := h.len
  have hgrow := h.growth
  have herased : Lessened t { t₁ with slots := t₁.slots.set i Ref.NONE.bits, arena, len := t₁.len - 1 } := by
    refine ⟨⟨?_, ?_, ?_, ?_, ?_, ?_⟩, ?_, ?_⟩
    · rw [List.length_set, hslots', hctrl, hlength, h.slots]
    · rw [hctrl]
      exact hvalid
    · show t₁.len - 1 = t₁.ctrl.countP Ctrl.isFull
      rw [hctrl]
      omega
    · rw [htombs, hctrl, hcount]
    · rw [hctrl, hlength]
      simp only
      omega
    · rw [hctrl, hlength]
      exact h.size
    · rw [List.length_set, hslots']
    · show t₁.ctrl.countP Ctrl.isFull ≤ _
      rw [hctrl]
      omega
  exact herased.trans ((retime_same herase).lessened herased.tallied)

/-! ## Rebuilding -/

/-- The arrays being built, with the first `n` slots placed. -/
structure Placing (old : List UInt8) (capacity n : Nat) (new : Arrays) : Prop where
  ctrl : new.ctrl.length = capacity
  slots : new.slots.length = capacity
  valid : ∀ b ∈ new.ctrl, b = Ctrl.empty ∨ Ctrl.isFull b = true
  held : new.ctrl.countP Ctrl.isFull = (old.take n).countP Ctrl.isFull

theorem Placing.control {old : List UInt8} {capacity n : Nat} {new : Arrays} (h : Placing old capacity n new) :
    ∀ b ∈ new.ctrl, Ctrl.Valid b := by
  intro b hb
  obtain heq | hfull := h.valid b hb
  · exact .inl heq
  · exact .inr (.inr hfull)

theorem Placing.place {capacity n mask : Nat} {new new' : Arrays} (h : Placing t.ctrl capacity n new)
    (hplace : t.place imp mask n new = .ok new') : Placing t.ctrl capacity (n + 1) new' := by
  rw [Table.place] at hplace
  obtain ⟨byte, hbyte, hplace⟩ := bind_ok_iff.mp hplace
  have hat := index_eq_ok.mp hbyte
  have htake : t.ctrl.take (n + 1) = t.ctrl.take n ++ [byte] := by
    obtain ⟨hlt, rfl⟩ := List.getElem?_eq_some_iff.mp hat
    rw [List.take_append_getElem hlt]
  split at hplace
  · next hno =>
    cases hplace
    refine ⟨h.ctrl, h.slots, h.valid, ?_⟩
    have hnot : Ctrl.isFull byte = false := by simpa using hno
    rw [h.held, htake, List.countP_append, List.countP_singleton, hnot]
    rfl
  · next hfull =>
    have hyes : Ctrl.isFull byte = true := by simpa using hfull
    obtain ⟨slot, -, hplace⟩ := bind_ok_iff.mp hplace
    obtain ⟨⟨head, bytes⟩, -, hplace⟩ := bind_ok_iff.mp hplace
    obtain ⟨key, -, hplace⟩ := bind_ok_iff.mp hplace
    obtain ⟨put, hput, hplace⟩ := bind_ok_iff.mp hplace
    obtain ⟨ctrl, hctrl, hplace⟩ := bind_ok_iff.mp hplace
    obtain ⟨slots, hslots, hplace⟩ := bind_ok_iff.mp hplace
    obtain ⟨-, rfl⟩ := update_eq_ok.mp hctrl
    obtain ⟨-, rfl⟩ := update_eq_ok.mp hslots
    cases hplace
    -- the walk through the new lanes ends at an empty one
    have hb := walkTo_empty h.control hput
    have htag := Ctrl.isFull_tagOf (Hash.hash key t.seed)
    have hcount := countP_set Ctrl.isFull hb (Ctrl.tagOf (Hash.hash key t.seed))
    rw [Ctrl.isFull_empty, if_neg Bool.false_ne_true, if_pos htag, Nat.add_zero] at hcount
    refine ⟨List.length_set.trans h.ctrl, List.length_set.trans h.slots, ?_, ?_⟩
    · intro b hb
      obtain hmem | rfl := List.mem_or_eq_of_mem_set hb
      · exact h.valid b hmem
      · exact .inr htag
    · rw [hcount, h.held, htake, List.countP_append, List.countP_singleton, if_pos hyes]

theorem Placing.start (old : List UInt8) (capacity : Nat) : Placing old capacity 0
    ⟨List.replicate capacity Ctrl.empty, List.replicate capacity Ref.NONE.bits⟩ where
  ctrl := List.length_replicate
  slots := List.length_replicate
  valid := fun b hb => .inl (List.eq_of_mem_replicate hb)
  held := by
    rw [List.take_zero, List.countP_nil, List.countP_eq_zero]
    intro b hb
    rw [List.eq_of_mem_replicate hb, Ctrl.isFull_empty]
    exact Bool.false_ne_true

/-- What a rebuild comes to: the same entries, no tombstone, and the room the size leaves. -/
structure Rebuilt (t : Table) (capacity : Nat) (t' : Table) : Prop where
  tallied : Tallied t'
  slots : t'.slots.length = capacity
  held : t'.held = t.held
  growth : t'.growthLeft = capacity * loadNum / loadDen - t.len

theorem Tallied.rehash (h : Tallied t) {capacity : Nat} (hmin : minCapacity ≤ capacity) (hpow : ∃ m, capacity = 2 ^ m)
    (hrehash : t.rehash imp capacity = .ok t') : Rebuilt t capacity t' := by
  rw [Table.rehash] at hrehash
  obtain ⟨mask, -, hrehash⟩ := bind_ok_iff.mp hrehash
  obtain ⟨new, hloop, hrehash⟩ := bind_ok_iff.mp hrehash
  obtain ⟨growthLeft, hgrowth, hrehash⟩ := bind_ok_iff.mp hrehash
  obtain ⟨hle, rfl⟩ := minus_eq_ok.mp hgrowth
  cases hrehash
  have hplaced : Placing t.ctrl capacity t.slots.length new :=
    forRange_ok (Placing.start t.ctrl capacity) (fun _ _ _ _ hi => hi.place) hloop
  have hheld : new.ctrl.countP Ctrl.isFull = t.held := by
    rw [hplaced.held, h.slots, List.take_length, Table.held]
  refine ⟨⟨hplaced.slots.trans hplaced.ctrl.symm, hplaced.control, h.len.trans hheld.symm, ?_, ?_, ?_⟩,
    hplaced.slots, hheld, rfl⟩
  · symm
    rw [List.count_eq_zero]
    intro hmem
    obtain heq | hfull := hplaced.valid _ hmem
    · cases heq
    · cases hfull
  · rw [hplaced.ctrl]
    simp only
    omega
  · rw [hplaced.ctrl]
    exact .inr ⟨hmin, hpow⟩

/-- The sizes that `reserve` and `shrink` rebuild at. -/
inductive Rebuilds (t : Table) : Nat → Prop where
  | first : t.slots.isEmpty = true → Rebuilds t minCapacity
  | same : ¬ t.slots.isEmpty = true → t.tombstones ≥ t.len → Rebuilds t t.slots.length
  | double : ¬ t.slots.isEmpty = true → ¬ t.tombstones ≥ t.len → Rebuilds t (t.slots.length * 2)
  | less : ¬ t.slots.length ≤ minCapacity → ¬ max (nextPowerOfTwo (t.len * 2)) minCapacity ≥ t.slots.length →
      Rebuilds t (max (nextPowerOfTwo (t.len * 2)) minCapacity)

theorem reserve_rebuilds (imp : Imp) (t : Table) :
    ∃ capacity, Rebuilds t capacity ∧ t.reserve imp = t.rehash imp capacity := by
  rw [reserve]
  split
  · next hnil => exact ⟨_, .first hnil, rfl⟩
  · next hsome =>
    split
    · next hmany => exact ⟨_, .same hsome hmany, rfl⟩
    · next hfew => exact ⟨_, .double hsome hfew, rfl⟩

/-- Each of them is a power of two, with room for more than the table holds. -/
theorem Rebuilds.size {capacity : Nat} (hr : Rebuilds t capacity) (h : Tallied t) :
    minCapacity ≤ capacity ∧ (∃ m, capacity = 2 ^ m) ∧ t.len < capacity * loadNum / loadDen := by
  have hgrow := h.growth
  have hload : ∀ n, n * loadNum / loadDen = n * 7 / 8 := fun _ => rfl
  have hmin : minCapacity = 16 := rfl
  rw [hload] at hgrow ⊢
  have hsize : ¬ t.slots.isEmpty = true → minCapacity ≤ t.ctrl.length ∧ ∃ m, t.ctrl.length = 2 ^ m := by
    intro hsome
    rw [List.isEmpty_iff_length_eq_zero, h.slots] at hsome
    exact h.size.resolve_left hsome
  cases hr with
  | first hnil =>
    rw [List.isEmpty_iff_length_eq_zero, h.slots] at hnil
    exact ⟨Nat.le_refl _, ⟨4, rfl⟩, by omega⟩
  | same hsome hmany =>
    obtain ⟨hlarge, hpow⟩ := hsize hsome
    rw [h.slots]
    exact ⟨hlarge, hpow, by omega⟩
  | double hsome _ =>
    obtain ⟨hlarge, m, hm⟩ := hsize hsome
    rw [h.slots]
    exact ⟨by omega, ⟨m + 1, by rw [hm, Nat.pow_succ]⟩, by omega⟩
  | less _ _ =>
    obtain ⟨m, hm, hle⟩ := nextPowerOfTwo_eq (t.len * 2)
    refine ⟨Nat.le_max_right _ _, ?_, by omega⟩
    rw [hm]
    obtain heq | heq := max_choice (2 ^ m) minCapacity
    · exact ⟨m, heq⟩
    · exact ⟨4, heq⟩

/-- Room is made, and no more of it than twice what the entries need. -/
structure Roomed (t t' : Table) : Prop where
  tallied : Tallied t'
  held : t'.held = t.held
  room : 0 < t'.growthLeft
  slots : t'.slots.length ≤ t.slots.length ∨ t'.slots.length = minCapacity ∨ 7 * t'.slots.length < 32 * t.held

theorem Tallied.reserve (h : Tallied t) (hfull : t.growthLeft = 0) (hreserve : t.reserve imp = .ok t') :
    Roomed t t' := by
  obtain ⟨capacity, hr, heq⟩ := reserve_rebuilds imp t
  rw [heq] at hreserve
  obtain ⟨hmin, hpow, hroom⟩ := hr.size h
  have hnew := h.rehash hmin hpow hreserve
  refine ⟨hnew.tallied, hnew.held, ?_, ?_⟩
  · rw [hnew.growth]
    exact Nat.sub_pos_of_lt hroom
  · rw [hnew.slots]
    cases hr with
    | first _ => exact .inr (.inl rfl)
    | same _ _ => exact .inl (Nat.le_refl _)
    | double _ hfew =>
      -- nothing is left, and more than half of what is counted is entries
      have hload : t.ctrl.length * loadNum / loadDen = t.ctrl.length * 7 / 8 := rfl
      have hgrow := h.growth
      have hslots := h.slots
      have hlen := h.len
      omega
    | less _ hless => exact .inl (Nat.le_of_not_ge hless)

theorem Tallied.ensure (h : Tallied t) (hensure : t.ensure imp = .ok t') : Roomed t t' := by
  rw [Table.ensure] at hensure
  split at hensure
  · next hfull => exact h.reserve hfull hensure
  · next hroom =>
    cases hensure
    exact ⟨h, rfl, Nat.pos_of_ne_zero hroom, .inl (Nat.le_refl _)⟩

/-- A table that gives slots back keeps room. -/
theorem Tallied.shrink (h : Tallied t) {b : Bool} (hshrink : t.shrink imp = .ok (b, t')) :
    Tallied t' ∧ t'.held = t.held ∧ t'.slots.length ≤ t.slots.length ∧ (b = true → 0 < t'.growthLeft) := by
  have hsame : Tallied t ∧ t.held = t.held ∧ t.slots.length ≤ t.slots.length ∧ (false = true → 0 < t.growthLeft) :=
    ⟨h, rfl, Nat.le_refl _, fun hno => absurd hno Bool.false_ne_true⟩
  rw [Table.shrink] at hshrink
  split at hshrink
  · cases hshrink
    exact hsame
  · next hlarge =>
    simp only at hshrink
    split at hshrink
    · cases hshrink
      exact hsame
    · next hless =>
      obtain ⟨t₁, hrehash, hshrink⟩ := bind_ok_iff.mp hshrink
      cases hshrink
      obtain ⟨hmin, hpow, hroom⟩ := (Rebuilds.less hlarge hless).size h
      have hnew := h.rehash hmin hpow hrehash
      refine ⟨hnew.tallied, hnew.held, ?_, fun _ => ?_⟩
      · rw [hnew.slots]
        exact Nat.le_of_not_ge hless
      · rw [hnew.growth]
        exact Nat.sub_pos_of_lt hroom

/-! ## One operation -/

/-- How many slots a table has after an operation. -/
structure Bounded (t t' : Table) : Prop where
  tallied : Tallied t'
  slots : t'.slots.length ≤ t.slots.length ∨ t'.slots.length = minCapacity ∨ 7 * t'.slots.length < 32 * t.held

theorem Lessened.bounded (h : Lessened t t') : Bounded t t' := ⟨h.tallied, .inl (Nat.le_of_eq h.slots)⟩

theorem SameIndex.bounded (h : SameIndex t t') (ht : Tallied t) : Bounded t t' := (h.lessened ht).bounded

theorem Bounded.same {t'' : Table} (h : Bounded t t') (h' : SameIndex t' t'') : Bounded t t'' :=
  ⟨h'.tallied h.tallied, by rw [h'.slots]; exact h.slots⟩

theorem occupy_byte {i : Nat} {b : UInt8} (hb : t.ctrl[i]? = some b) (h : t.occupy i = .ok t') :
    t'.ctrl = t.ctrl ∧ t'.slots = t.slots ∧ t'.len = t.len ∧
    t'.tombstones + (if b = Ctrl.deleted then 1 else 0) = t.tombstones ∧
    t'.growthLeft + t'.tombstones + 1 = t.growthLeft + t.tombstones := by
  rw [occupy] at h
  obtain ⟨byte, hbyte, h⟩ := bind_ok_iff.mp h
  obtain rfl : b = byte := Option.some.inj (hb.symm.trans (index_eq_ok.mp hbyte))
  split at h
  · next hdel =>
    obtain ⟨tombstones, htombs, h⟩ := bind_ok_iff.mp h
    obtain ⟨hpos, rfl⟩ := minus_eq_ok.mp htombs
    cases h
    rw [if_pos hdel]
    refine ⟨rfl, rfl, rfl, ?_, ?_⟩ <;> simp only <;> omega
  · next hdel =>
    obtain ⟨growthLeft, hgrowth, h⟩ := bind_ok_iff.mp h
    obtain ⟨hpos, rfl⟩ := minus_eq_ok.mp hgrowth
    cases h
    rw [if_neg hdel]
    refine ⟨rfl, rfl, rfl, rfl, ?_⟩
    simp only
    omega

theorem Tallied.insert (h : Tallied t) {hash : UInt64} {size : Nat} {key value : List UInt8}
    {expiry userFlags : Option UInt32} {r : Except Full Wrote}
    (hinsert : t.insert imp p granted hash size key value expiry userFlags = .ok (r, t')) : Bounded t t' := by
  rw [Table.insert] at hinsert
  obtain ⟨t₁, hensure, hinsert⟩ := bind_ok_iff.mp hinsert
  obtain ⟨⟨res, t₂⟩, hstore, hinsert⟩ := bind_ok_iff.mp hinsert
  have hroomed := h.ensure hensure
  have hsame := store_same hstore
  have hbounded : Bounded t t₂ := Bounded.same ⟨hroomed.tallied, hroomed.slots⟩ hsame
  have ht₂ := hbounded.tallied
  cases res with
  | error full =>
    cases hinsert
    exact hbounded
  | ok new =>
    obtain ⟨i, hfree, hinsert⟩ := bind_ok_iff.mp hinsert
    obtain ⟨t₃, hoccupy, hinsert⟩ := bind_ok_iff.mp hinsert
    obtain ⟨ctrl, hctrl, hinsert⟩ := bind_ok_iff.mp hinsert
    obtain ⟨slots, hslots, hinsert⟩ := bind_ok_iff.mp hinsert
    obtain ⟨t₄, hretime, hpure⟩ := bind_ok_iff.mp hinsert
    obtain ⟨-, rfl⟩ := update_eq_ok.mp hctrl
    obtain ⟨-, rfl⟩ := update_eq_ok.mp hslots
    cases hpure
    obtain ⟨b, hb, hnot⟩ := freeSlot_free hfree
    obtain ⟨hctrl₃, hslots₃, hlen₃, htombs, hgrowth⟩ := occupy_byte hb hoccupy
    have htag := Ctrl.isFull_tagOf hash
    have htagged : Ctrl.tagOf hash ≠ Ctrl.deleted := by
      intro heq
      rw [heq] at htag
      cases htag
    -- one lane more is held, and it was empty or a tombstone
    obtain ⟨hlength, hvalid, hheld, hcount⟩ := ht₂.set hb (.inr (.inr htag) : Ctrl.Valid (Ctrl.tagOf hash))
    rw [hnot, if_neg Bool.false_ne_true, if_pos htag, Nat.add_zero] at hheld
    rw [if_neg htagged, Nat.add_zero] at hcount
    have hlen := ht₂.len
    have hgrow := ht₂.growth
    have htaken : Bounded t { t₃ with
        ctrl := t₃.ctrl.set i (Ctrl.tagOf hash), slots := t₃.slots.set i new.bits, len := t₃.len + 1 } := by
      rw [hctrl₃, hslots₃]
      refine ⟨⟨?_, hvalid, ?_, ?_, ?_, ?_⟩, ?_⟩
      · rw [List.length_set, hlength, ht₂.slots]
      · show t₃.len + 1 = (t₂.ctrl.set i (Ctrl.tagOf hash)).countP Ctrl.isFull
        omega
      · simp only
        omega
      · simp only
        rw [hlength]
        omega
      · simp only
        rw [hlength]
        exact ht₂.size
      · rw [List.length_set]
        exact hbounded.slots
    exact htaken.same (retime_same hretime)

theorem Tallied.put (h : Tallied t) {hash : UInt64} {key value : List UInt8} {expiry userFlags : Option UInt32}
    {r : Except Full Wrote} (hset : t.set imp p granted key value hash expiry userFlags = .ok (r, t')) :
    Bounded t t' := by
  rw [Table.set] at hset
  obtain ⟨found, -, hset⟩ := bind_ok_iff.mp hset
  cases found with
  | some hit => exact (replace_same hset).bounded h
  | none => exact h.insert hset

theorem Tallied.lookup (h : Tallied t) {key : List UInt8} {hash : UInt64} {now : UInt32}
    {r : Option (Nat × Ref × Entry.Head)} (hlookup : t.lookup imp key hash now = .ok (r, t')) : Lessened t t' := by
  rw [Table.lookup] at hlookup
  obtain ⟨found, hfound, hlookup⟩ := bind_ok_iff.mp hlookup
  cases found with
  | none =>
    cases hlookup
    exact .refl h
  | some hit =>
    obtain ⟨i, head⟩ := hit
    obtain ⟨slot, -, hlookup⟩ := bind_ok_iff.mp hlookup
    obtain ⟨expiry, -, hlookup⟩ := bind_ok_iff.mp hlookup
    obtain ⟨b, hb, hfull⟩ := find_full hfound
    split at hlookup
    · obtain ⟨t₁, herase, hlookup⟩ := bind_ok_iff.mp hlookup
      cases hlookup
      exact h.erase hb hfull herase
    · cases hlookup
      exact .refl h

theorem Tallied.read (h : Tallied t) {key : List UInt8} {hash : UInt64} {now : UInt32} :
    (∀ {r}, t.get imp key hash now = .ok (r, t') → Lessened t t') ∧
    (∀ {r}, t.view imp key hash now = .ok (r, t') → Lessened t t') ∧
    (∀ {r}, t.contains imp key hash now = .ok (r, t') → Lessened t t') := by
  refine ⟨?_, ?_, ?_⟩
  · intro r hget
    rw [Table.get] at hget
    obtain ⟨⟨found, t₁⟩, hlookup, hget⟩ := bind_ok_iff.mp hget
    cases found with
    | none =>
      cases hget
      exact h.lookup hlookup
    | some hit =>
      obtain ⟨bytes, -, hget⟩ := bind_ok_iff.mp hget
      obtain ⟨value, -, hget⟩ := bind_ok_iff.mp hget
      cases hget
      exact h.lookup hlookup
  · intro r hview
    rw [Table.view] at hview
    obtain ⟨⟨found, t₁⟩, hlookup, hview⟩ := bind_ok_iff.mp hview
    cases found with
    | none =>
      cases hview
      exact h.lookup hlookup
    | some hit =>
      obtain ⟨bytes, -, hview⟩ := bind_ok_iff.mp hview
      obtain ⟨view, -, hview⟩ := bind_ok_iff.mp hview
      cases hview
      exact h.lookup hlookup
  · intro r hcontains
    rw [Table.contains] at hcontains
    obtain ⟨⟨found, t₁⟩, hlookup, hcontains⟩ := bind_ok_iff.mp hcontains
    cases hcontains
    exact h.lookup hlookup

theorem Tallied.remove (h : Tallied t) {key : List UInt8} {hash : UInt64} {b : Bool}
    (hremove : t.remove imp key hash = .ok (b, t')) : Lessened t t' := by
  rw [Table.remove] at hremove
  obtain ⟨found, hfound, hremove⟩ := bind_ok_iff.mp hremove
  cases found with
  | none =>
    cases hremove
    exact .refl h
  | some hit =>
    obtain ⟨i, head⟩ := hit
    obtain ⟨t₁, herase, hremove⟩ := bind_ok_iff.mp hremove
    cases hremove
    obtain ⟨byte, hbyte, hfull⟩ := find_full hfound
    exact h.erase hbyte hfull herase

theorem Tallied.expire (h : Tallied t) {key : List UInt8} {hash : UInt64} {expiry : Option UInt32} {now : UInt32}
    {r : Except Full Bool} (hexpire : t.expire imp p granted key hash expiry now = .ok (r, t')) :
    Lessened t t' := by
  obtain ⟨found, t₁, hlookup, hdid⟩ := expire_eq_ok hexpire
  have hless := h.lookup hlookup
  cases found with
  | none =>
    obtain ⟨-, rfl⟩ := hdid
    exact hless
  | some hit =>
    obtain ⟨i, entry, head⟩ := hit
    obtain ⟨arena, -, rfl⟩ | ⟨-, rfl⟩ | hrewrite := hdid
    · exact hless.trans ((beside t₁ arena t₁.timed rfl).lessened hless.tallied)
    · exact hless
    · exact hless.trans ((rewrite_same hrewrite).lessened hless.tallied)

/-! ## The whole table -/

theorem Lessened.sweepSlot {now : UInt32} {capacity : Nat} {s s' : Sweep} (hs : Lessened t s.table)
    (hslot : sweepSlot imp now capacity s = .ok s') : Lessened t s'.table := by
  rw [Table.sweepSlot] at hslot
  obtain ⟨gone, hdue, hslot⟩ := bind_ok_iff.mp hslot
  cases gone with
  | false =>
    cases hslot
    exact hs
  | true =>
    rw [due] at hdue
    obtain ⟨byte, hbyte, hdue⟩ := bind_ok_iff.mp hdue
    split at hdue
    · next hfull =>
      rw [if_pos rfl] at hslot
      obtain ⟨t₁, herase, hslot⟩ := bind_ok_iff.mp hslot
      cases hslot
      exact hs.trans (hs.tallied.erase (index_eq_ok.mp hbyte) hfull herase)
    · cases hdue

theorem Tallied.sweep (h : Tallied t) {from_ budget : Nat} {now : UInt32} {r : Nat × Nat}
    (hsweep : t.sweep imp from_ budget now = .ok (r, t')) : Lessened t t' := by
  rw [Table.sweep] at hsweep
  split at hsweep
  · cases hsweep
    exact .refl h
  · split at hsweep
    · cases hsweep
      exact .refl h
    · obtain ⟨s, hloop, hsweep⟩ := bind_ok_iff.mp hsweep
      cases hsweep
      exact forRange_ok (I := fun _ s => Lessened t s.table) (.refl h) (fun _ _ _ _ hs => hs.sweepSlot) hloop

theorem firstFull_full {spare : Option Nat} {l : List Nat} {i : Nat} (h : t.firstFull spare l = .ok (some i)) :
    ∃ b, t.ctrl[i]? = some b ∧ Ctrl.isFull b = true := by
  induction l with
  | nil => cases h
  | cons at_ l ih =>
    rw [firstFull] at h
    obtain ⟨byte, hbyte, h⟩ := bind_ok_iff.mp h
    split at h
    · next hhit =>
      cases h
      exact ⟨byte, index_eq_ok.mp hbyte, hhit.1⟩
    · exact ih h

theorem Tallied.evictOne (h : Tallied t) {roll : UInt64} {spare : Option Nat} {b : Bool}
    (hevict : t.evictOne imp roll spare = .ok (b, t')) : Lessened t t' := by
  rw [Table.evictOne] at hevict
  split at hevict
  · cases hevict
    exact .refl h
  · obtain ⟨first, hfirst, hevict⟩ := bind_ok_iff.mp hevict
    obtain ⟨second, hsecond, hevict⟩ := bind_ok_iff.mp hevict
    cases first with
    | none =>
      cases hevict
      exact .refl h
    | some first =>
      cases second with
      | none =>
        cases hevict
        exact .refl h
      | some second =>
        obtain ⟨d₁, -, hevict⟩ := bind_ok_iff.mp hevict
        obtain ⟨d₂, -, hevict⟩ := bind_ok_iff.mp hevict
        obtain ⟨t₁, herase, hevict⟩ := bind_ok_iff.mp hevict
        cases hevict
        obtain ⟨b₁, hb₁, hfull₁⟩ := firstFull_full hfirst
        obtain ⟨b₂, hb₂, hfull₂⟩ := firstFull_full hsecond
        split at herase
        · exact h.erase hb₁ hfull₁ herase
        · exact h.erase hb₂ hfull₂ herase

structure Clearing (t : Table) (n : Nat) (t' : Table) : Prop where
  ctrl : t'.ctrl = List.replicate n Ctrl.empty ++ t.ctrl.drop n
  slots : t'.slots.length = t.slots.length

theorem Clearing.slot {n : Nat} {t₁ : Table} (h : Clearing t n t₁) (hn : n < t.ctrl.length)
    (hclear : clearSlot n t₁ = .ok t') : Clearing t (n + 1) t' := by
  rw [clearSlot] at hclear
  obtain ⟨arena, -, hclear⟩ := bind_ok_iff.mp hclear
  obtain ⟨ctrl, hctrl, hclear⟩ := bind_ok_iff.mp hclear
  obtain ⟨slots, hslots, hpure⟩ := bind_ok_iff.mp hclear
  obtain ⟨-, rfl⟩ := update_eq_ok.mp hctrl
  obtain ⟨-, rfl⟩ := update_eq_ok.mp hslots
  cases hpure
  refine ⟨?_, List.length_set.trans h.slots⟩
  show t₁.ctrl.set n Ctrl.empty = _
  rw [h.ctrl, List.drop_eq_getElem_cons hn, List.set_append_right _ _ (by rw [List.length_replicate]),
    List.length_replicate, Nat.sub_self, List.set_cons_zero, List.replicate_succ', List.append_assoc]
  rfl

theorem Tallied.clear (h : Tallied t) (hclear : t.clear = .ok t') : Lessened t t' := by
  rw [Table.clear] at hclear
  obtain ⟨t₁, hloop, hclear⟩ := bind_ok_iff.mp hclear
  cases hclear
  have hcleared : Clearing t t.slots.length t₁ :=
    forRange_ok (I := Clearing t) ⟨rfl, rfl⟩ (fun n hn _ _ hs => hs.slot (h.slots ▸ hn)) hloop
  have hctrl : t₁.ctrl = List.replicate t.ctrl.length Ctrl.empty := by
    rw [hcleared.ctrl, h.slots, List.drop_length, List.append_nil]
  have hzero : (List.replicate t.ctrl.length Ctrl.empty).countP Ctrl.isFull = 0 := by
    rw [List.countP_eq_zero]
    intro b hb
    rw [List.eq_of_mem_replicate hb, Ctrl.isFull_empty]
    exact Bool.false_ne_true
  refine ⟨⟨?_, ?_, ?_, ?_, ?_, ?_⟩, hcleared.slots, ?_⟩
  · rw [hctrl, List.length_replicate]
    exact hcleared.slots.trans h.slots
  · rw [hctrl]
    intro b hb
    exact .inl (List.eq_of_mem_replicate hb)
  · rw [Table.held, hctrl, hzero]
  · rw [hctrl, List.count_replicate]
    rfl
  · show t₁.slots.length * loadNum / loadDen + 0 + 0 = _
    rw [hctrl, List.length_replicate, hcleared.slots, h.slots, Nat.add_zero]
  · rw [hctrl, List.length_replicate]
    exact h.size
  · rw [Table.held, hctrl, hzero]
    exact Nat.zero_le _

/-! ## Runs -/

theorem tallied_new (seed : UInt64) : Tallied (Table.new seed) where
  slots := rfl
  valid := by simp [Table.new]
  len := rfl
  tombstones := rfl
  growth := show 0 + 0 + 0 = 0 * 7 / 8 from rfl
  size := .inl rfl

/-- Every operation that returns keeps the counters right, and grows the table only
where more than half of what it may hold is entries. -/
theorem Tallied.moves (h : Tallied t) {x : Op × Except Full Answer} (hx : Returns imp p t x t') : Bounded t t' := by
  obtain ⟨op, a⟩ := x
  rw [Returns, perform.eq_def] at hx
  cases op with
  | set key value expiry userFlags granted =>
    obtain ⟨⟨r, t₁⟩, hset, hx⟩ := bind_ok_iff.mp hx
    cases hx
    exact h.put hset
  | get key now =>
    obtain ⟨⟨r, t₁⟩, hget, hx⟩ := bind_ok_iff.mp hx
    cases hx
    exact (h.read.1 hget).bounded
  | view key now =>
    obtain ⟨⟨r, t₁⟩, hview, hx⟩ := bind_ok_iff.mp hx
    cases hx
    exact (h.read.2.1 hview).bounded
  | contains key now =>
    obtain ⟨⟨r, t₁⟩, hcontains, hx⟩ := bind_ok_iff.mp hx
    cases hx
    exact (h.read.2.2 hcontains).bounded
  | remove key =>
    obtain ⟨⟨r, t₁⟩, hremove, hx⟩ := bind_ok_iff.mp hx
    cases hx
    exact (h.remove hremove).bounded
  | expire key expiry now granted =>
    obtain ⟨⟨r, t₁⟩, hexpire, hx⟩ := bind_ok_iff.mp hx
    cases hx
    exact (h.expire hexpire).bounded
  | shrink =>
    obtain ⟨⟨r, t₁⟩, hshrink, hx⟩ := bind_ok_iff.mp hx
    cases hx
    obtain ⟨htallied, -, hslots, -⟩ := h.shrink hshrink
    exact ⟨htallied, .inl hslots⟩
  | clear =>
    obtain ⟨t₁, hclear, hx⟩ := bind_ok_iff.mp hx
    cases hx
    exact (h.clear hclear).bounded
  | sweep from_ budget now =>
    obtain ⟨⟨r, t₁⟩, hsweep, hx⟩ := bind_ok_iff.mp hx
    cases hx
    exact (h.sweep hsweep).bounded
  | evict roll spare =>
    obtain ⟨⟨r, t₁⟩, hevict, hx⟩ := bind_ok_iff.mp hx
    cases hx
    exact (h.evictOne hevict).bounded

/-! ## Room -/

theorem Tallied.empty_mem (h : Tallied t) (hpos : 0 < t.ctrl.length) : Ctrl.empty ∈ t.ctrl := by
  by_contra hno
  -- every byte is then an entry or a tombstone, and all of them are counted
  have hall : t.ctrl.countP Ctrl.isFull + t.ctrl.count Ctrl.deleted = t.ctrl.length := by
    have hnot : t.ctrl.countP (fun b => !Ctrl.isFull b) = t.ctrl.count Ctrl.deleted := by
      apply List.countP_congr
      intro b hb
      obtain rfl | rfl | hfull := h.valid b hb
      · exact absurd hb hno
      · decide
      · have hne : b ≠ Ctrl.deleted := by
          rintro rfl
          cases hfull
        simp [hfull, hne]
    rw [← hnot, List.length_eq_countP_add_countP Ctrl.isFull]
    simp
  have hlen := h.len
  have hgrow := h.growth
  have htombs := h.tombstones
  have hload : t.ctrl.length * loadNum / loadDen = t.ctrl.length * 7 / 8 := rfl
  rw [Table.held] at hlen
  omega

theorem Tallied.groups_pow (h : Tallied t) (hpos : 0 < t.ctrl.length) :
    ∃ k, t.ctrl.length = 2 ^ k * imp.width ∧ t.groups imp = 2 ^ k := by
  obtain hzero | ⟨hmin, m, hm⟩ := h.size
  · omega
  · obtain ⟨k, hk⟩ := groups_of_pow imp (hm ▸ hmin)
    have hlen : t.ctrl.length = 2 ^ k * imp.width := hm.trans hk
    refine ⟨k, hlen, ?_⟩
    rw [Table.groups, h.slots, hlen, Nat.mul_div_cancel _ (width_pos imp)]

section walks
variable {ctrl : List UInt8} {k g : Nat}

theorem slice_nth (hlen : ctrl.length = 2 ^ k * imp.width) {n : Nat} (hn : n < 2 ^ k) :
    slice ctrl (n * imp.width) (n * imp.width + imp.width) = .ok (imp.nth ctrl n) := by
  have hend : (n + 1) * imp.width ≤ 2 ^ k * imp.width := Nat.mul_le_mul_right imp.width hn
  rw [Nat.add_mul, Nat.one_mul] at hend
  rw [slice_ok (Nat.le_add_right _ _) (by rw [hlen]; exact hend), Nat.add_sub_cancel_left, Imp.nth]

/-- A walk comes to a group with an empty byte, where there is one. -/
theorem walk_comes (hlen : ctrl.length = 2 ^ k * imp.width) (hempty : Ctrl.empty ∈ ctrl) (hg : g < 2 ^ k) :
    ∃ n < 2 ^ k, Ctrl.empty ∈ imp.nth ctrl (walk (2 ^ k - 1) g n) := by
  obtain ⟨i, hi⟩ := List.mem_iff_getElem?.mp hempty
  have hlt : i / imp.width < 2 ^ k := by
    rw [Nat.div_lt_iff_lt_mul (width_pos imp), ← hlen]
    exact (List.getElem?_eq_some_iff.mp hi).1
  obtain ⟨n, hn, hwalk⟩ := walk_covers hg hlt
  refine ⟨n, hn, List.mem_iff_getElem?.mpr ⟨i % imp.width, ?_⟩⟩
  rw [hwalk, Imp.nth_getElem? (Nat.mod_lt _ (width_pos imp)), Nat.div_add_mod']
  exact hi

/-- The rule of a loop over the groups of a row with an empty byte, which goes on only past
a group that has none. -/
theorem walk_bytes {Q : Nat → Nat → Nat → Prop} (hlen : ctrl.length = 2 ^ k * imp.width) (hempty : Ctrl.empty ∈ ctrl)
    (hg : g < 2 ^ k)
    (hstep : ∀ fuel n step, n < 2 ^ k →
      (Ctrl.empty ∉ imp.nth ctrl n → Q fuel ((n + step) &&& (2 ^ k - 1)) (step + 1)) → Q (fuel + 1) n step) :
    Q (2 ^ k) g 1 := by
  apply walk_rule (I := fun n => ∀ m < n, Ctrl.empty ∉ imp.nth ctrl (walk (2 ^ k - 1) g m)) (Q := Q)
  · intro m hm
    exact absurd hm (Nat.not_lt_zero m)
  · intro hround
    obtain ⟨n, hn, hmem⟩ := walk_comes hlen hempty hg
    exact hround n hn hmem
  · intro fuel n _ hpassed hrest
    apply hstep fuel (walk (2 ^ k - 1) g n) (n + 1) (walk_lt hg n)
    intro hno
    exact hrest (Nat.forall_lt_succ_right.mpr ⟨hpassed, hno⟩)

/-- A walk stops within one round, where what it is for is not missed in a group with an
empty byte. -/
theorem walkTo_stops (hlen : ctrl.length = 2 ^ k * imp.width) (hempty : Ctrl.empty ∈ ctrl) (hg : g < 2 ^ k)
    {pick : List UInt8 → BitMask}
    (hpick : ∀ n < 2 ^ k, Ctrl.empty ∈ imp.nth ctrl n → imp.lowest (pick (imp.nth ctrl n)) ≠ none) :
    ∃ i, walkTo imp pick ctrl (2 ^ k - 1) (2 ^ k) g 1 = .ok i := by
  apply walk_bytes (Q := fun fuel g step => ∃ i, walkTo imp pick ctrl (2 ^ k - 1) fuel g step = .ok i) hlen hempty hg
  intro fuel n step hn hrest
  rw [walkTo, slice_nth hlen hn, ok_bind]
  cases hlow : imp.lowest (pick (imp.nth ctrl n)) with
  | some lane => exact ⟨_, rfl⟩
  | none => exact hrest fun hmem => hpick n hn hmem hlow

end walks

/-- The walk of an insert comes to a slot, where there is room. -/
theorem Tallied.freeSlot_ok (h : Tallied t) (hroom : 0 < t.growthLeft) (hash : UInt64) :
    ∃ i b, t.freeSlot imp hash = .ok i ∧ t.ctrl[i]? = some b ∧ Ctrl.isFull b = false := by
  have hgrow := h.growth
  have hload : t.ctrl.length * loadNum / loadDen = t.ctrl.length * 7 / 8 := rfl
  have hpos : 0 < t.ctrl.length := by omega
  obtain ⟨k, hlen, hgroups⟩ := h.groups_pow hpos
  obtain ⟨i, hi⟩ := walkTo_stops hlen (h.empty_mem hpos) (home_lt k hash) (by
    intro n hn hmem hlow
    have hfull := Imp.lowest_matchFree (slice_width (slice_nth hlen hn))
    rw [hlow] at hfull
    have := hfull _ hmem
    rw [Ctrl.isFull_empty] at this
    cases this)
  have hfree : t.freeSlot imp hash = .ok i := by
    rw [freeSlot, hgroups, minus_ok Nat.one_le_two_pow, ok_bind]
    exact hi
  obtain ⟨b, hb, hnot⟩ := freeSlot_free hfree
  exact ⟨i, b, hfree, hb, hnot⟩

/-- What a rebuild leaves: room, and a slot for whatever is stored next. -/
def Ready (imp : Imp) (p : Platform) (t : Table) : Prop :=
  0 < t.growthLeft ∧ ∀ granted size key value expiry userFlags r t',
    t.store p granted size key value expiry userFlags = .ok (r, t') →
    ∀ hash, ∃ i b, t'.freeSlot imp hash = .ok i ∧ t'.ctrl[i]? = some b ∧ Ctrl.isFull b = false

theorem Tallied.ready (h : Tallied t) (hroom : 0 < t.growthLeft) : Ready imp p t := by
  refine ⟨hroom, ?_⟩
  intro granted size key value expiry userFlags r t' hstore hash
  have hsame := store_same hstore
  exact (hsame.tallied h).freeSlot_ok (by rw [hsame.growth]; exact hroom) hash

/-- However long a table is used, and whatever it is refused: it has no more than
`max(16, 32n/7)` slots, where it never holds more than `n` entries at once, and it is
rebuilt with room for the insert that asked. -/
theorem capacity_le (imp : Imp) (p : Platform) (seed : UInt64) {n : Nat}
    {tr : List (Table × (Op × Except Full Answer) × Table)} {t : Table}
    (h : Run (Returns imp p) (Table.new seed) tr t) (hn : ∀ x ∈ tr, x.1.held ≤ n ∧ x.2.2.held ≤ n) :
    t.slots.length ≤ max minCapacity (32 * n / 7) ∧
    (∀ x ∈ tr, x.2.2.slots.length ≤ max minCapacity (32 * n / 7)) ∧
    (∀ t', t.growthLeft = 0 → t.reserve imp = .ok t' → Ready imp p t') ∧
    ∀ t', t.shrink imp = .ok (true, t') → Ready imp p t' := by
  have hstep : ∀ (t : Table) (x : Op × Except Full Answer) (t' : Table),
      (Tallied t ∧ t.slots.length ≤ max minCapacity (32 * n / 7)) → t.held ≤ n → Returns imp p t x t' →
      Tallied t' ∧ t'.slots.length ≤ max minCapacity (32 * n / 7) := by
    intro t x t' ⟨htallied, hle⟩ hheld hmoves
    obtain ⟨htallied', hslots⟩ := htallied.moves hmoves
    refine ⟨htallied', ?_⟩
    omega
  obtain ⟨⟨htallied, hle⟩, hall⟩ := h.invariant (C := fun t _ => t.held ≤ n)
    ⟨tallied_new seed, Nat.zero_le _⟩ hstep (fun x hx => (hn x hx).1)
  refine ⟨hle, fun x hx => (hall x hx).2.2, ?_, ?_⟩
  · intro t' hfull hreserve
    have hroomed := htallied.reserve hfull hreserve
    exact hroomed.tallied.ready hroomed.room
  · intro t' hshrink
    obtain ⟨htallied', -, -, hroom⟩ := htallied.shrink hshrink
    exact htallied'.ready (hroom rfl)

/-- Fifteen entries at once, and 32 slots. -/
theorem capacity_le_busy : ∃ tr t, Run (Returns .word .boxed) (Table.new 0) tr t ∧ tr.map (fun x => x.2.1.1) = busy ∧
    t.slots.length = 32 ∧ t.slots.length ≤ max minCapacity (32 * 15 / 7) ∧
    ∀ x ∈ tr, x.2.2.slots.length ≤ max minCapacity (32 * 15 / 7) := by
  obtain ⟨tr, t, hrun, hops, hslots, hall⟩ := busy_run
  obtain ⟨hle, hsteps, -⟩ := capacity_le .word .boxed 0 (n := 15) hrun fun x hx => (hall x hx).2.1
  exact ⟨tr, t, hrun, hops, hslots, hle, hsteps⟩

end Rugo.Table
