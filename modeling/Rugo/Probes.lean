import Rugo.Churn

/- That every probe ends. Three loops walk the groups: a search, the walk of an insert,
   the placing of a rebuild. Each is over within one round where some byte was never
   used, and the counters leave one: in the table itself, in the table an insert has made
   room in, and in the half-built arrays before each entry that is moved. Nothing else
   goes round, so with these no operation does (`Halts`).

     1. `probes_end`: this is so of every table that is reached, whatever it was refused
        and whatever became of its arena, for `Tallied` is all that is asked. -/
namespace Rugo
open Exec Runs Probing Triangular

/-! ## What does not probe -/

namespace Entry
variable (h : Head) (bytes : List UInt8)

theorem halts_getVarintLoop (bytes : List UInt8) (value shift at_ : Nat) :
    Halts (getVarintLoop bytes value shift at_) := by
  induction bytes generalizing value shift at_ with
  | nil => simp [getVarintLoop, Halts]
  | cons byte rest ih => simp [getVarintLoop, ih]

@[simp] theorem halts_getVarint : Halts (getVarint bytes) := halts_getVarintLoop bytes 0 0 0

@[simp] theorem halts_head : Halts (head bytes) := by simp [head, klenOf]

@[simp] theorem halts_word (at_ : Nat) : Halts (word bytes at_) := by simp [word]

@[simp] theorem Head.halts_key : Halts (h.key bytes) := by simp [Head.key]

@[simp] theorem Head.halts_value : Halts (h.value bytes) := by simp [Head.value]

@[simp] theorem Head.halts_expiry : Halts (h.expiry bytes) := by simp [Head.expiry]

@[simp] theorem Head.halts_userFlags : Halts (h.userFlags bytes) := by simp [Head.userFlags]

@[simp] theorem Head.halts_view : Halts (h.view bytes) := by simp [Head.view]

@[simp] theorem halts_put (cursor : List UInt8 × Nat) (bs : List UInt8) : Halts (put cursor bs) := by simp [put]

@[simp] theorem halts_putWord (cursor : List UInt8 × Nat) (w : Option UInt32) : Halts (putWord cursor w) := by
  cases w <;> simp [putWord]

@[simp] theorem halts_write (into key value : List UInt8) (expiry userFlags : Option UInt32) :
    Halts (write into key value expiry userFlags) := by simp [write, putKlen]

end Entry

namespace Arena
variable (a : Arena) (at_ : Ref) (len : Nat)

@[simp] theorem halts_get : Halts (a.get at_ len) := by simp [get]

@[simp] theorem halts_peek : Halts (a.peek at_ len) := by simp [peek]

@[simp] theorem halts_getMut {edit : List UInt8 → Exec (List UInt8)} (hedit : ∀ into, Halts (edit into)) :
    Halts (a.getMut at_ len edit) := by simp [getMut, hedit]

@[simp] theorem halts_pushFree : Halts (a.pushFree at_ len) := by simp [pushFree, setNextFree]

@[simp] theorem halts_free : Halts (a.free at_ len) := by
  cases hcls : classOf len <;> simp [free, hcls]

@[simp] theorem halts_room : Halts a.room := by
  cases hseg : a.segment a.seg.toNat <;> simp [room, hseg]

@[simp] theorem halts_alloc (p : Platform) (granted : Bool) : Halts (a.alloc p granted len) := by
  cases hcls : classOf len with
  | none => cases hslot : a.largeSlot <;> simp [alloc, hcls, allocLarge, hslot]
  | some cls => simp [alloc, hcls, takeFree, nextFree, cut, abandon]

end Arena

namespace Table

section unprobed
variable (t : Table) (at_ : Nat)

@[simp] theorem halts_headAt (at_ : Ref) : Halts (t.headAt at_) := by simp [headAt]

@[simp] theorem halts_entryAt (at_ : Ref) : Halts (t.entryAt at_) := by simp [entryAt]

@[simp] theorem halts_expiryOf (at_ : Ref) (head : Entry.Head) : Halts (t.expiryOf at_ head) := by simp [expiryOf]

@[simp] theorem halts_retime (was now : Bool) : Halts (t.retime was now) := by simp [retime]

theorem halts_matchKey (key : List UInt8) (base : Nat) (lanes : List Nat) : Halts (t.matchKey key base lanes) := by
  induction lanes with
  | nil => simp [matchKey]
  | cons lane lanes ih => simp [matchKey, ih]

@[simp] theorem halts_erase (imp : Imp) : Halts (t.erase imp at_) := by simp [erase, vacate, groupAt]

@[simp] theorem halts_isExpired (now : UInt32) : Halts (t.isExpired at_ now) := by simp [isExpired]

@[simp] theorem halts_due (now : UInt32) : Halts (t.due at_ now) := by simp [due]

@[simp] theorem halts_deadline : Halts (t.deadline at_) := by simp [deadline]

theorem halts_firstFull (spare : Option Nat) (l : List Nat) : Halts (t.firstFull spare l) := by
  induction l with
  | nil => simp [firstFull]
  | cons at_ l ih => simp [firstFull, ih]

theorem halts_evictOne (imp : Imp) (roll : UInt64) (spare : Option Nat) : Halts (t.evictOne imp roll spare) := by
  simp only [evictOne, nearestFull, Halts.ite_iff, Halts.bind_iff, halts_firstFull, true_and]
  refine ⟨fun _ => Halts.ok _, ?_⟩
  intro _ first _ second _
  cases first with
  | none => exact Halts.ok _
  | some first =>
    cases second with
    | none => exact Halts.ok _
    | some second => simp

@[simp] theorem halts_swap (old new : Ref) (size : Nat) (was now : Bool) : Halts (t.swap at_ old new size was now) := by
  simp [swap]

@[simp] theorem halts_occupy : Halts (t.occupy at_) := by simp [occupy]

theorem halts_release : Halts (t.release at_) := by simp [release]

theorem halts_clear : Halts t.clear := by
  simp only [clear, Halts.bind_iff]
  refine ⟨Halts.forRange (I := fun _ _ => True) trivial ?_, fun _ _ => Halts.ok _⟩
  intro i _ s _
  simp [clearSlot, halts_release]

theorem halts_sweep (imp : Imp) (from_ budget : Nat) (now : UInt32) : Halts (t.sweep imp from_ budget now) := by
  simp only [sweep, Halts.ite_iff, Halts.bind_iff]
  refine ⟨fun _ => Halts.ok _, fun _ => ⟨fun _ => Halts.ok _, fun _ => ⟨?_, fun _ _ => Halts.ok _⟩⟩⟩
  apply Halts.forRange (I := fun _ _ => True) trivial
  intro i _ s _
  simp [sweepSlot]

section writes
variable (p : Platform) (granted : Bool) (size : Nat) (key value : List UInt8) (expiry userFlags : Option UInt32)

@[simp] theorem halts_store : Halts (t.store p granted size key value expiry userFlags) := by
  rw [store, Halts.bind_iff]
  refine ⟨Arena.halts_alloc t.arena size p granted, ?_⟩
  intro stored _
  obtain ⟨r, arena⟩ := stored
  cases r with
  | error full => exact Halts.ok _
  | ok new => simp

theorem halts_replace (head : Entry.Head) :
    Halts (t.replace p granted at_ head size key value expiry userFlags) := by
  simp only [replace, Halts.bind_iff, Halts.ite_iff, Halts.index, true_and]
  intro slot _
  constructor
  · intro _
    simp
  · intro _
    refine ⟨t.halts_store p granted size key value expiry userFlags, ?_⟩
    intro stored _
    obtain ⟨r, t₁⟩ := stored
    cases r with
    | error full => exact Halts.ok _
    | ok new => simp

theorem halts_rewrite (entry : Ref) (head : Entry.Head) :
    Halts (t.rewrite p granted at_ entry head expiry) := by
  simp only [rewrite, Halts.bind_iff, Arena.halts_get, Entry.halts_head, Entry.Head.halts_userFlags,
    Entry.Head.halts_key, Entry.Head.halts_value, halts_store, true_and]
  intro bytes _ decoded _ userFlags _ key _ value _ stored _
  obtain ⟨r, t₁⟩ := stored
  cases r with
  | error full => exact Halts.ok _
  | ok new => simp

end writes
end unprobed

variable {imp : Imp} {p : Platform} {t t' : Table}

/-! ## Searching -/

/-- What stops a search is what stops the comparison of its key with those of some group. -/
theorem Tallied.find_stopped (h : Tallied t) {key : List UInt8} {hash : UInt64} {e : Panic}
    (hfind : t.find imp key hash = .error e) : ∃ n < t.groups imp, t.matchKey key (n * imp.width)
      (imp.lanes (imp.matchByte (imp.nth t.ctrl n) (Ctrl.tagOf hash))) = .error e := by
  rw [find] at hfind
  split at hfind
  · cases hfind
  · next hsome =>
    have hpos : 0 < t.ctrl.length := by
      rw [← h.slots, List.length_pos_iff]
      simpa using hsome
    obtain ⟨k, hlen, hgroups⟩ := h.groups_pow hpos
    rw [hgroups, minus_ok Nat.one_le_two_pow, ok_bind] at hfind
    rw [hgroups]
    revert hfind
    -- the walk ends at the group that has an empty lane, or stops before it
    apply walk_bytes (Q := fun fuel g step => t.findLoop imp key (Ctrl.tagOf hash) (2 ^ k - 1) fuel g step = .error e →
      ∃ n < 2 ^ k, t.matchKey key (n * imp.width)
        (imp.lanes (imp.matchByte (imp.nth t.ctrl n) (Ctrl.tagOf hash))) = .error e)
      hlen (h.empty_mem hpos) (home_lt k hash)
    intro fuel n step hn hrest hloop
    have hnth := slice_nth hlen hn
    rw [findLoop, groupAt, hnth, ok_bind] at hloop
    cases hmatch : t.matchKey key (n * imp.width) (imp.lanes (imp.matchByte (imp.nth t.ctrl n) (Ctrl.tagOf hash))) with
    | error e' =>
      rw [hmatch] at hloop
      cases hloop
      exact ⟨n, hn, hmatch⟩
    | ok found =>
      rw [hmatch, ok_bind] at hloop
      cases found with
      | some hit => cases hloop
      | none =>
        simp only at hloop
        split at hloop
        · cases hloop
        · next hany =>
          rw [Imp.any_matchEmpty (slice_width hnth) (Imp.nth_valid h.valid n)] at hany
          exact hrest hany hloop

theorem Tallied.halts_find (h : Tallied t) (key : List UInt8) (hash : UInt64) : Halts (t.find imp key hash) := by
  intro hspin
  obtain ⟨n, -, hstuck⟩ := h.find_stopped hspin
  exact t.halts_matchKey key _ _ hstuck

/-- Where every entry can be read, nothing stops a search. -/
theorem Tallied.find_answers (h : Tallied t) {items : List Item} {lost : Nat} (hhas : Has imp t items lost)
    (key : List UInt8) (hash : UInt64) : ∃ r, t.find imp key hash = .ok r := by
  cases hfind : t.find imp key hash with
  | ok r => exact ⟨r, rfl⟩
  | error e =>
    exfalso
    obtain ⟨n, hn, hstuck⟩ := h.find_stopped hfind
    obtain ⟨cells, F, hsound, -⟩ := hhas
    have hindexed := hsound.indexed
    obtain hnil | ⟨-, k, hplaced⟩ := hindexed.laid
    · rw [groups, hindexed.length, hnil] at hn
      simp at hn
    · have hlen := hplaced.length
      rw [hindexed.groups hlen] at hn
      have hgroup : imp.nth t.ctrl n = (group imp.width cells n).map (byteOf t.seed) := by
        rw [Imp.nth, hindexed.ctrl, group, List.map_take, List.map_drop]
      rw [hgroup] at hstuck
      obtain ⟨r, hr, -⟩ := hindexed.matchKey_ok hsound.stored.legible key
        fun lane hlane => full_of_mem_lanes hlen hn hlane
      rw [hstuck] at hr
      cases hr

/-! ## Rebuilding -/

/-- Whichever entry a rebuild comes to, the walk for it in the arrays as they stand lands on
an empty byte. -/
def Places (imp : Imp) (t : Table) (capacity : Nat) : Prop :=
  ∀ mask n b new, minus (capacity / imp.width) 1 = .ok mask → t.ctrl[n]? = some b → Ctrl.isFull b = true →
    forRange n (t.place imp mask)
      { ctrl := List.replicate capacity Ctrl.empty, slots := List.replicate capacity Ref.NONE.bits } = .ok new →
    ∀ hash, ∃ put, walkTo imp imp.matchEmpty new.ctrl mask (mask + 1) (groupOf hash mask) 1 = .ok put ∧
      new.ctrl[put]? = some Ctrl.empty

/-- Before an entry is placed there is room for it. -/
theorem Placing.empty_mem {old : List UInt8} {capacity n : Nat} {new : Arrays} (h : Placing old capacity n new)
    {b : UInt8} (hb : old[n]? = some b) (hfull : Ctrl.isFull b = true) (hle : old.countP Ctrl.isFull ≤ capacity) :
    Ctrl.empty ∈ new.ctrl := by
  by_contra hno
  have hall : new.ctrl.countP Ctrl.isFull = new.ctrl.length := by
    rw [List.countP_eq_length]
    intro b hb
    obtain rfl | hfull := h.valid b hb
    · exact absurd hb hno
    · exact hfull
  have hmore : (old.take n).countP Ctrl.isFull < old.countP Ctrl.isFull := by
    obtain ⟨hlt, rfl⟩ := List.getElem?_eq_some_iff.mp hb
    have hsub : (old.take (n + 1)).countP Ctrl.isFull ≤ old.countP Ctrl.isFull :=
      (List.take_sublist (n + 1) old).countP_le
    rw [List.take_succ_eq_append_getElem hlt, List.countP_append, List.countP_singleton, if_pos hfull] at hsub
    exact hsub
  have hheld := h.held
  have hctrl := h.ctrl
  omega

/-- The walk of a rebuild, once so many slots are placed. -/
theorem Tallied.put_ok (h : Tallied t) {capacity n mask : Nat} (hr : Rebuilds t capacity)
    (hmask : minus (capacity / imp.width) 1 = .ok mask) {new : Arrays} (hplacing : Placing t.ctrl capacity n new)
    {b : UInt8} (hb : t.ctrl[n]? = some b) (hfull : Ctrl.isFull b = true) (hash : UInt64) :
    ∃ put, walkTo imp imp.matchEmpty new.ctrl mask (mask + 1) (groupOf hash mask) 1 = .ok put ∧
      new.ctrl[put]? = some Ctrl.empty := by
  obtain ⟨hmin, ⟨m, rfl⟩, hroom⟩ := hr.size h
  have hempty : Ctrl.empty ∈ new.ctrl := by
    apply hplacing.empty_mem hb hfull
    calc t.ctrl.countP Ctrl.isFull = t.len := h.len.symm
      _ ≤ 2 ^ m * 7 / 8 := Nat.le_of_lt hroom
      _ ≤ 2 ^ m := by omega
  obtain ⟨k, hk⟩ := groups_of_pow imp hmin
  obtain ⟨-, rfl⟩ := minus_eq_ok.mp hmask
  have hgroups : 2 ^ m / imp.width = 2 ^ k := by rw [hk, Nat.mul_div_cancel _ (width_pos imp)]
  rw [hgroups, Nat.sub_add_cancel Nat.one_le_two_pow]
  have hlen : new.ctrl.length = 2 ^ k * imp.width := hplacing.ctrl.trans hk
  obtain ⟨put, hput⟩ : ∃ put, walkTo imp imp.matchEmpty new.ctrl (2 ^ k - 1) (2 ^ k) (groupOf hash (2 ^ k - 1)) 1 =
      .ok put := by
    apply walkTo_stops hlen hempty (home_lt k hash)
    intro g hg hmem hlow
    have hlowest := Imp.lowest_matchEmpty (slice_width (slice_nth hlen hg)) (Imp.nth_valid hplacing.control g)
    rw [hlow] at hlowest
    exact hlowest hmem
  exact ⟨put, hput, walkTo_empty hplacing.control hput⟩

theorem Tallied.places (h : Tallied t) {capacity : Nat} (hr : Rebuilds t capacity) : Places imp t capacity := by
  intro mask n b new hmask hb hfull hloop
  have hplacing : Placing t.ctrl capacity n new :=
    forRange_ok (Placing.start t.ctrl capacity) (fun _ _ _ _ hi => hi.place) hloop
  exact h.put_ok hr hmask hplacing hb hfull

theorem Tallied.halts_rehash (h : Tallied t) {capacity : Nat} (hr : Rebuilds t capacity) :
    Halts (t.rehash imp capacity) := by
  simp only [Table.rehash, Halts.bind_iff, Halts.minus, true_and]
  intro mask hmask
  refine ⟨?_, fun _ _ _ _ => Halts.ok _⟩
  apply Halts.forRange (I := Placing t.ctrl capacity) (Placing.start t.ctrl capacity)
  intro n _ new hplacing
  refine ⟨?_, fun _ hplace => hplacing.place hplace⟩
  simp only [place, Halts.bind_iff, Halts.ite_iff, Halts.index, halts_entryAt, Entry.Head.halts_key, Halts.update,
    true_and]
  intro b hb
  refine ⟨fun _ => Halts.ok _, ?_⟩
  intro hfull slot _ entry _ key _
  obtain ⟨put, hput, -⟩ := h.put_ok hr hmask hplacing (index_eq_ok.mp hb) (by simpa using hfull) (Hash.hash key t.seed)
  rw [hput]
  simp

/-! ## One operation -/

theorem Tallied.halts_lookup (h : Tallied t) (key : List UInt8) (hash : UInt64) (now : UInt32) :
    Halts (t.lookup imp key hash now) := by
  rw [Table.lookup, Halts.bind_iff]
  refine ⟨h.halts_find key hash, ?_⟩
  intro found _
  cases found with
  | none => exact Halts.ok _
  | some hit => simp

theorem Tallied.halts_get (h : Tallied t) (key : List UInt8) (hash : UInt64) (now : UInt32) :
    Halts (t.get imp key hash now) := by
  rw [Table.get, Halts.bind_iff]
  refine ⟨h.halts_lookup key hash now, ?_⟩
  intro looked _
  obtain ⟨found, t₁⟩ := looked
  cases found with
  | none => exact Halts.ok _
  | some hit => simp

theorem Tallied.halts_view (h : Tallied t) (key : List UInt8) (hash : UInt64) (now : UInt32) :
    Halts (t.view imp key hash now) := by
  rw [view, Halts.bind_iff]
  refine ⟨h.halts_lookup key hash now, ?_⟩
  intro looked _
  obtain ⟨found, t₁⟩ := looked
  cases found with
  | none => exact Halts.ok _
  | some hit => simp

theorem Tallied.halts_remove (h : Tallied t) (key : List UInt8) (hash : UInt64) : Halts (t.remove imp key hash) := by
  rw [Table.remove, Halts.bind_iff]
  refine ⟨h.halts_find key hash, ?_⟩
  intro found _
  cases found with
  | none => exact Halts.ok _
  | some hit => simp

theorem Tallied.halts_expire (h : Tallied t) (granted : Bool) (key : List UInt8) (hash : UInt64)
    (expiry : Option UInt32) (now : UInt32) : Halts (t.expire imp p granted key hash expiry now) := by
  rw [Table.expire, Halts.bind_iff]
  refine ⟨h.halts_lookup key hash now, ?_⟩
  intro looked _
  obtain ⟨found, t₁⟩ := looked
  cases found with
  | none => exact Halts.ok _
  | some hit =>
    obtain ⟨at_, entry, head⟩ := hit
    -- rewritten where the trailer changes width, and overwritten where it stays
    have hrewrite := t₁.halts_rewrite at_ p granted expiry entry head
    cases htimed : head.timed with
    | false =>
      cases expiry with
      | none =>
        simp only [htimed]
        exact Halts.ok _
      | some when =>
        simp only [htimed]
        exact hrewrite
    | true =>
      cases expiry with
      | none =>
        simp only [htimed]
        exact hrewrite
      | some when =>
        simp only [htimed]
        rw [Halts.bind_iff]
        exact ⟨Arena.halts_getMut _ _ _ fun _ => Halts.splice _ _ _, fun _ _ => Halts.ok _⟩

theorem Tallied.halts_ensure (h : Tallied t) : Halts (t.ensure imp) := by
  rw [Table.ensure, Halts.ite_iff]
  refine ⟨fun _ => ?_, fun _ => Halts.ok t⟩
  obtain ⟨capacity, hr, heq⟩ := reserve_rebuilds imp t
  rw [heq]
  exact h.halts_rehash hr

theorem Tallied.halts_shrink (h : Tallied t) : Halts (t.shrink imp) := by
  simp only [Table.shrink, Halts.ite_iff, Halts.bind_iff]
  refine ⟨fun _ => Halts.ok _, fun hmin => ⟨fun _ => Halts.ok _, fun hless => ⟨?_, fun _ _ => Halts.ok _⟩⟩⟩
  exact h.halts_rehash (.less hmin hless)

/-- The walk of an insert, for a table that made room and has stored the entry. -/
theorem Tallied.insert_ok (h : Tallied t) {granted : Bool} {size : Nat} {key value : List UInt8}
    {expiry userFlags : Option UInt32} {r : Except Full Ref} {t₁ t₂ : Table} (hensure : t.ensure imp = .ok t₁)
    (hstore : t₁.store p granted size key value expiry userFlags = .ok (r, t₂)) (hash : UInt64) :
    ∃ i b, t₂.freeSlot imp hash = .ok i ∧ t₂.ctrl[i]? = some b ∧ Ctrl.isFull b = false := by
  have hroomed := h.ensure hensure
  exact (hroomed.tallied.ready (p := p) hroomed.room).2 _ _ _ _ _ _ _ _ hstore hash

theorem Tallied.halts_set (h : Tallied t) (granted : Bool) (key value : List UInt8) (hash : UInt64)
    (expiry userFlags : Option UInt32) : Halts (t.set imp p granted key value hash expiry userFlags) := by
  simp only [Table.set, Halts.bind_iff, h.halts_find, true_and]
  intro found _
  cases found with
  | none =>
    simp only [Table.insert, Halts.bind_iff, h.halts_ensure, halts_store, true_and]
    intro t₁ hensure stored hstore
    obtain ⟨r, t₂⟩ := stored
    cases r with
    | error full => exact Halts.ok _
    | ok new =>
      obtain ⟨i, b, hfree, -⟩ := h.insert_ok hensure hstore hash
      simp only [hfree]
      simp
  | some hit => exact t.halts_replace hit.1 p granted _ key value expiry userFlags hit.2

theorem Tallied.halts_perform (h : Tallied t) (p : Platform) (op : Op) : Halts (t.perform imp p op) := by
  cases op with
  | set key value expiry userFlags granted => simp [perform, h.halts_set]
  | get key now => simp [perform, h.halts_get]
  | view key now => simp [perform, h.halts_view]
  | contains key now => simp [perform, contains, h.halts_lookup]
  | remove key => simp [perform, h.halts_remove]
  | expire key expiry now granted => simp [perform, h.halts_expire]
  | shrink => simp [perform, h.halts_shrink]
  | clear => simp [perform, halts_clear]
  | sweep from_ budget now => simp [perform, halts_sweep]
  | evict roll spare => simp [perform, halts_evictOne]

/-! ## Runs -/

/-- What the probes of a table come to. -/
structure ProbesEnd (imp : Imp) (p : Platform) (t : Table) : Prop where
  groups : t.groups imp = 0 ∨ ∃ k, t.groups imp = 2 ^ k
  find : ∀ key hash, Halts (t.find imp key hash)
  freeSlot : ∀ granted size key value expiry userFlags t₁ r t₂, t.ensure imp = .ok t₁ →
    t₁.store p granted size key value expiry userFlags = .ok (r, t₂) →
    ∀ hash, ∃ i b, t₂.freeSlot imp hash = .ok i ∧ t₂.ctrl[i]? = some b ∧ Ctrl.isFull b = false
  rehash : ∀ capacity, Rebuilds t capacity → Places imp t capacity
  perform : ∀ op, Halts (t.perform imp p op)

theorem Tallied.probesEnd (h : Tallied t) (imp : Imp) (p : Platform) : ProbesEnd imp p t where
  groups := by
    by_cases hpos : 0 < t.ctrl.length
    · obtain ⟨k, -, hgroups⟩ := h.groups_pow hpos
      exact .inr ⟨k, hgroups⟩
    · left
      rw [Table.groups, h.slots, Nat.eq_zero_of_not_pos hpos, Nat.zero_div]
  find := h.halts_find
  freeSlot := fun _ _ _ _ _ _ _ _ _ => h.insert_ok
  rehash := fun _ => h.places
  perform := h.halts_perform p

/-- A walk over a power of two of groups is in each of them once in a round. In every table
that is reached, whatever it was refused on the way, a search is over within a round, an
insert finds a slot, a rebuild places what it moves, and so no operation goes round for
ever; and a search answers, where no refusal stranded a tail. -/
theorem probes_end (imp : Imp) (p : Platform) (seed : UInt64)
    {tr : List (Table × (Op × Except Full Answer) × Table)} {t : Table}
    (h : Run (Returns imp p) (Table.new seed) tr t) :
    (∀ k g, g < 2 ^ k → ∀ place < 2 ^ k, ∃! n, n < 2 ^ k ∧ walk (2 ^ k - 1) g n = place) ∧
    ProbesEnd imp p t ∧
    ((∀ x ∈ tr, Unstranded p x.1 x.2.1) → ∀ key hash, ∃ r, t.find imp key hash = .ok r) := by
  obtain ⟨htallied, -⟩ := h.steps (tallied_new seed) fun _ _ _ htallied hmoves => (htallied.moves hmoves).tallied
  refine ⟨fun k g hg place hplace => walk_once hg hplace, htallied.probesEnd imp p, ?_⟩
  intro hkeeps key hash
  obtain ⟨m, items, lost, hhas, -⟩ := reached_is h hkeeps
  exact htallied.find_answers hhas key hash

theorem probes_end_busy : ∃ tr t, Run (Returns .word .boxed) (Table.new 0) tr t ∧ tr.map (fun x => x.2.1.1) = busy ∧
    t.slots.length = 32 ∧ (∀ op, Halts (t.perform .word .boxed op)) ∧
    ∀ key hash, ∃ r, t.find .word key hash = .ok r := by
  obtain ⟨tr, t, hrun, hops, hslots, hall⟩ := busy_run
  obtain ⟨-, hends, hanswers⟩ := probes_end .word .boxed 0 hrun
  exact ⟨tr, t, hrun, hops, hslots, hends.perform, hanswers fun x hx => .inl (hall x hx).1⟩

end Table
end Rugo
