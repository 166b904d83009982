import Rugo.Represents

/- Writes that the arena refuses. A refusal may come after the index was rebuilt, and
   it may leave a tail of the arena on a free list; it touches no live block, so what
   is stored is what was.

     1. `refused_unchanged`: a refused `set` or `expire` changes nothing that is stored,
        and no count. -/
namespace Rugo.Table
open Exec Runs Probing

variable {imp : Imp} {p : Platform} {granted : Bool} {t t' : Table} {cells : List (Lane Item)}
  {F : List Arena.Cell} {lost : Nat} {m : Cache}

/-- A table with the entries of another, rebuilt or not, in an arena in which they stand. -/
structure Refused (imp : Imp) (t : Table) (cells : List (Lane Item)) (lost : Nat) (t' : Table) : Prop where
  cells : ∃ cells', Indexed imp t' cells' ∧ (entries cells').Perm (entries cells) ∧
    Arena.Serves t'.arena ((entries cells').map Item.block) lost
  len : t'.len = t.len
  timed : t'.timed = t.timed

theorem Stored.store_refused {items : List Item} (h : Stored t.arena items F lost) {size : Nat} {key value : List UInt8}
    {expiry userFlags : Option UInt32} {full : Full}
    (hstore : t.store p granted size key value expiry userFlags = .ok (.error full, t')) :
    ∃ arena, t' = { t with arena } ∧ Arena.Serves arena (items.map Item.block) lost := by
  rw [store] at hstore
  obtain ⟨⟨res, arena⟩, halloc, hstore⟩ := bind_ok_iff.mp hstore
  cases res with
  | ok new =>
    obtain ⟨arena', -, hstore⟩ := bind_ok_iff.mp hstore
    cases hstore
  | error full' =>
    cases hstore
    refine ⟨arena, rfl, ?_⟩
    obtain ⟨-, new, arena', data, F', halloc', -⟩ | ⟨-, full', arena', halloc', hholds⟩ |
      ⟨-, full', arena', halloc', -, -, hserves⟩ := Arena.alloc_cases h.holds p granted size
    · rw [halloc] at halloc'
      cases halloc'
    · rw [halloc] at halloc'
      cases halloc'
      exact hholds.serves
    · rw [halloc] at halloc'
      cases halloc'
      exact hserves

/-- A refusal that comes after the index was rebuilt, or was not. -/
theorem Sound.store_refused (h : Sound imp t cells F lost) {t₁ : Table} {cells₁ : List (Lane Item)}
    (h₁ : Sound imp t₁ cells₁ F lost) (hperm : (entries cells₁).Perm (entries cells)) {size : Nat}
    {key value : List UInt8} {expiry userFlags : Option UInt32} {full : Full}
    (hstore : t₁.store p granted size key value expiry userFlags = .ok (.error full, t')) :
    Refused imp t cells lost t' := by
  obtain ⟨arena, rfl, hserves⟩ := h₁.stored.store_refused hstore
  refine ⟨⟨cells₁, h₁.indexed.arena arena, hperm, hserves⟩, ?_, ?_⟩
  · show t₁.len = t.len
    rw [h₁.indexed.len, h.indexed.len, hperm.length_eq]
  · show t₁.timed = t.timed
    rw [h₁.indexed.timed, h.indexed.timed, hperm.countP_eq]

theorem Sound.set_refused (h : Sound imp t cells F lost) {key value : List UInt8} {expiry userFlags : Option UInt32}
    {full : Full} (hset : t.set imp p granted key value (Hash.hash key t.seed) expiry userFlags =
      .ok (.error full, t')) :
    Refused imp t cells lost t' := by
  rw [Table.set] at hset
  obtain ⟨found, -, hset⟩ := bind_ok_iff.mp hset
  cases found with
  | some hit =>
    -- in place there is nothing to be refused
    obtain ⟨i, head⟩ := hit
    simp only at hset
    rw [replace] at hset
    obtain ⟨slot, -, hset⟩ := bind_ok_iff.mp hset
    split at hset
    · obtain ⟨arena, -, hset⟩ := bind_ok_iff.mp hset
      obtain ⟨t₁, -, hset⟩ := bind_ok_iff.mp hset
      cases hset
    · obtain ⟨⟨res, t₁⟩, hstore, hset⟩ := bind_ok_iff.mp hset
      cases res with
      | error full' =>
        cases hset
        exact h.store_refused h (List.Perm.refl _) hstore
      | ok new =>
        obtain ⟨t₂, -, hset⟩ := bind_ok_iff.mp hset
        cases hset
  | none =>
    obtain ⟨t₁, cells₁, hensure, h₁, hperm, -⟩ := h.ensure_ok
    simp only at hset
    rw [insert, hensure, ok_bind] at hset
    obtain ⟨⟨res, t₂⟩, hstore, hset⟩ := bind_ok_iff.mp hset
    cases res with
    | error full' =>
      cases hset
      exact h.store_refused h₁ hperm hstore
    | ok new =>
      obtain ⟨i, -, hset⟩ := bind_ok_iff.mp hset
      obtain ⟨t₃, -, hset⟩ := bind_ok_iff.mp hset
      obtain ⟨ctrl, -, hset⟩ := bind_ok_iff.mp hset
      obtain ⟨slots, -, hset⟩ := bind_ok_iff.mp hset
      obtain ⟨t₄, -, hset⟩ := bind_ok_iff.mp hset
      cases hset

theorem Sound.expire_refused (h : Sound imp t cells F lost) {key : List UInt8} {expiry : Option UInt32} {now : UInt32}
    {full : Full} (hexpire : t.expire imp p granted key (Hash.hash key t.seed) expiry now = .ok (.error full, t')) :
    Refused imp t cells lost t' := by
  obtain ⟨found, t₁, hlookup, hlooked⟩ := h.lookup_ok key now
  obtain ⟨found', t₂, hlookup', hdid⟩ := expire_eq_ok hexpire
  rw [hlookup] at hlookup'
  cases hlookup'
  cases hlooked with
  | absent _ => cases hdid.1
  | expired _ _ _ _ _ _ => cases hdid.1
  | @live i item hi hkey hlive =>
    obtain ⟨arena, hr, -⟩ | ⟨hr, -⟩ | hexpire := hdid
    · cases hr
    · cases hr
    · rw [Table.rewrite] at hexpire
      obtain ⟨bytes, -, hexpire⟩ := bind_ok_iff.mp hexpire
      obtain ⟨decoded, -, hexpire⟩ := bind_ok_iff.mp hexpire
      obtain ⟨userFlags, -, hexpire⟩ := bind_ok_iff.mp hexpire
      obtain ⟨key', -, hexpire⟩ := bind_ok_iff.mp hexpire
      obtain ⟨value, -, hexpire⟩ := bind_ok_iff.mp hexpire
      obtain ⟨⟨res, t₂⟩, hstore, hexpire⟩ := bind_ok_iff.mp hexpire
      cases res with
      | error full' =>
        cases hexpire
        exact h.store_refused h (List.Perm.refl _) hstore
      | ok new =>
        obtain ⟨t₃, -, hexpire⟩ := bind_ok_iff.mp hexpire
        cases hexpire

theorem Sound.refused (h : Sound imp t cells F lost) {op : Op} {full : Full}
    (hop : t.perform imp p op = .ok (.error full, t')) : Refused imp t cells lost t' := by
  cases op with
  | set key value expiry userFlags granted =>
    rw [perform] at hop
    obtain ⟨⟨r, t₁⟩, hset, hop⟩ := bind_ok_iff.mp hop
    cases r with
    | ok wrote => cases hop
    | error full' =>
      cases hop
      exact h.set_refused hset
  | expire key expiry now granted =>
    rw [perform] at hop
    obtain ⟨⟨r, t₁⟩, hexpire, hop⟩ := bind_ok_iff.mp hop
    cases r with
    | ok flag => cases hop
    | error full' =>
      cases hop
      exact h.expire_refused hexpire
  | _ =>
    rw [perform] at hop
    obtain ⟨_, -, hop⟩ := bind_ok_iff.mp hop
    cases hop

/-! ## What is left -/

theorem Refused.represents (h : Refused imp t cells lost t') (hshort : ∀ item ∈ entries cells, Entry.Short item.view) :
    Represents imp t' lost := by
  obtain ⟨cells', hindexed, hperm, hserves⟩ := h.cells
  exact hindexed.represents hserves fun item hi => hshort item (hperm.mem_iff.mp hi)

theorem Refused.stored_ok (h : Refused imp t cells lost t') (hshort : ∀ item ∈ entries cells, Entry.Short item.view)
    (hm : Shows (entries cells) m) (key : List UInt8) : t'.stored imp key = .ok (m key) := by
  obtain ⟨cells', hindexed, hperm, hserves⟩ := h.cells
  exact hindexed.stored_ok (legible hserves fun item hi => hshort item (hperm.mem_iff.mp hi)) (hm.perm hperm.symm) key

/-- A write that is refused leaves the table as it was: every key, the one written
included, is found with what it held, no count has moved, and the representation is
what it was, whether or not the index was rebuilt first. -/
theorem refused_unchanged (imp : Imp) (p : Platform) (seed : UInt64)
    {tr : List (Table × (Op × Except Full Answer) × Table)} {t t' : Table} {op : Op} {full : Full}
    (h : Run (Returns imp p) (Table.new seed) tr t) (hgranted : ∀ x ∈ tr, ∃ a, x.2.1.2 = .ok a)
    (hop : t.perform imp p op = .ok (.error full, t')) :
    (∀ key, ∃ held, t.stored imp key = .ok held ∧ t'.stored imp key = .ok held) ∧
    t'.len = t.len ∧ t'.timed = t.timed ∧ t'.liveBytes = t.liveBytes ∧
    (∃ lost, Represents imp t lost) ∧ ∀ lost, Represents imp t lost → Represents imp t' lost := by
  obtain ⟨m, items, lost, ⟨cells, F, hsound, hperm⟩, hm⟩ := reached_is h fun x hx => .inl (hgranted x hx)
  have hm' := hm.perm hperm.symm
  have hshort := hsound.stored.short
  have hrefused := hsound.refused hop
  have hbefore := hsound.represents
  have hafter := hrefused.represents hshort
  refine ⟨?_, hrefused.len, hrefused.timed, ?_, ⟨lost, hbefore⟩, ?_⟩
  · intro key
    exact ⟨m key, hsound.indexed.stored_ok hsound.stored.legible hm' key, hrefused.stored_ok hshort hm' key⟩
  · obtain ⟨cells', -, hperm', hserves⟩ := hrefused.cells
    have hlive := hserves.live
    rw [(hperm'.map Item.block).map _ |>.sum_eq, ← hsound.stored.holds.serves.live] at hlive
    exact hlive
  · intro lost' hbefore'
    obtain ⟨charged, hcharged, hlive⟩ := hbefore.live
    obtain ⟨charged', hcharged', hlive'⟩ := hbefore'.live
    rw [hcharged, Except.ok.injEq] at hcharged'
    obtain rfl : lost = lost' := by omega
    exact hafter

/-- Fourteen entries too long for a block fill an index of sixteen slots, and no segment is made for them. -/
def bulk : List Op :=
  (List.range 14).map fun i => .set [UInt8.ofNat i] (List.replicate 2048 1) none none true

/-- A fifteenth, short, is refused its segment once the index has been rebuilt. -/
theorem refused_unchanged_rebuilt : ∃ tr t t', Run (Returns .word Arena.pages) (Table.new 0) tr t ∧
    tr.map (fun x => x.2.1.1) = bulk ∧
    t.perform .word Arena.pages (.set [14] [1] none none false) = .ok (.error .memory, t') ∧
    t.slots.length = 16 ∧ t'.slots.length = 32 ∧ t'.len = 14 ∧
    (∀ key, ∃ held, t.stored .word key = .ok held ∧ t'.stored .word key = .ok held) ∧
    ∃ lost, Represents .word t lost ∧ Represents .word t' lost := by
  let op := Op.set [14] [1] none none false
  have hplayed : (play (fun t op => Table.perform .word Arena.pages t op) bulk (Table.new 0) >>= fun x =>
      Table.perform .word Arena.pages x.2 op >>= fun y => pure (x.1.all fun z => Except.isOk z.2.1.2, y.1,
        x.2.slots.length, y.2.slots.length, x.2.len)) = .ok (true, .error .memory, 16, 32, 14) := by
    decide +kernel
  obtain ⟨⟨tr, t⟩, hplay, hplayed⟩ := bind_ok_iff.mp hplayed
  obtain ⟨⟨r, t'⟩, hperform, hplayed⟩ := bind_ok_iff.mp hplayed
  obtain ⟨hall, rfl, hslots, hslots', hlen⟩ := by simpa only [pure_ok, Except.ok.injEq, Prod.mk.injEq] using hplayed
  have hrun : Run (Returns .word Arena.pages) (Table.new 0) tr t := play_run (fun _ _ _ _ h => h) hplay
  have hgranted : ∀ x ∈ tr, ∃ a, x.2.1.2 = .ok a := by
    intro x hx
    exact isOk_iff.mp (List.all_eq_true.mp hall x hx)
  obtain ⟨hkeys, hlen', -, -, ⟨lost, hbefore⟩, hafter⟩ := refused_unchanged .word Arena.pages 0 hrun hgranted hperform
  exact ⟨tr, t, t', hrun, play_inputs hplay, hperform, hslots, hslots', hlen'.trans hlen, hkeys, lost, hbefore,
    hafter lost hbefore⟩

end Rugo.Table
