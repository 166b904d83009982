import Rugo.Stranded

/- What a write evicts. The slot that is spared is found once, and no erasure moves an
   entry, so what `evictToFit` carries from one eviction to the next is that this slot
   still holds the entry just written.

     1. `evictions_exact`: what one eviction takes, and what all those after a write do. -/
namespace Rugo.Table
open Exec Runs Probing

variable {imp : Imp} {p : Platform} {t t' : Table} {cells : List (Lane Item)} {F : List Arena.Cell} {lost : Nat}
  {m : Cache}

/-- The table stores what the cache keeps. -/
def Stores (imp : Imp) (t : Table) (m : Cache) : Prop := ∀ key, t.stored imp key = .ok (m key)

theorem Sound.stores (h : Sound imp t cells F lost) (hm : Shows (entries cells) m) : Stores imp t m :=
  h.indexed.stored_ok h.stored.legible hm

theorem IsCache.stores (h : IsCache imp t m) : Stores imp t m := by
  obtain ⟨items, lost, ⟨cells, F, hsound, hperm⟩, hm⟩ := h
  exact hsound.stores (hm.perm hperm.symm)

/-! ## One slot for each key -/

theorem Indexed.slot_unique (h : Indexed imp t cells) {i j : Nat} {item other : Item}
    (hi : cells[i]? = some (.full item)) (hj : cells[j]? = some (.full other)) (hkey : item.view.key = other.view.key) :
    i = j := by
  by_contra hne
  have hkeys := ((entries_full hi .tomb rfl).map fun item => item.view.key).nodup_iff.mp h.keys
  rw [List.map_cons, List.nodup_cons] at hkeys
  apply hkeys.1
  rw [hkey]
  apply List.mem_map_of_mem (f := fun item : Item => item.view.key)
  exact mem_entries.mpr ⟨j, by rw [List.getElem?_set_ne hne]; exact hj⟩

theorem Sound.slotOf_ok (h : Sound imp t cells F lost) {i : Nat} {item : Item} (hi : cells[i]? = some (.full item)) :
    t.slotOf imp item.view.key (Hash.hash item.view.key t.seed) = .ok (some i) := by
  obtain ⟨found, hfind, hspec⟩ := h.find_ok item.view.key
  rw [slotOf, hfind]
  cases found with
  | none => exact absurd rfl (hspec item (mem_entries.mpr ⟨i, hi⟩))
  | some hit =>
    obtain ⟨j, head⟩ := hit
    obtain ⟨other, hj, hkey, -⟩ := hspec
    rw [h.indexed.slot_unique hi hj hkey.symm]
    rfl

theorem Sound.slot_of_slotOf (h : Sound imp t cells F lost) {key : List UInt8} {i : Nat}
    (hslot : t.slotOf imp key (Hash.hash key t.seed) = .ok (some i)) :
    ∃ item, cells[i]? = some (.full item) ∧ item.view.key = key := by
  obtain ⟨found, hfind, hspec⟩ := h.find_ok key
  rw [slotOf, hfind] at hslot
  cases found with
  | none => cases hslot
  | some hit =>
    cases hslot
    obtain ⟨item, hi, hkey, -⟩ := hspec
    exact ⟨item, hi, hkey⟩

/-! ## One eviction -/

inductive Evicts (imp : Imp) (t : Table) (m : Cache) (roll : UInt64) (spare : Option Nat) : Bool → Table → Prop
  | took {t' key kept i other kept' j} :
      t.slotOf imp key (Hash.hash key t.seed) = .ok (some i) → some i ≠ spare → m key = some kept →
      t.slotOf imp other (Hash.hash other t.seed) = .ok (some j) → m other = some kept' →
      (t.Sampled roll spare i j ∨ t.Sampled roll spare j i) →
      kept.expiry.getD u32Max ≤ kept'.expiry.getD u32Max →
      Stores imp t' (Function.update m key none) → t'.len + 1 = t.len → Evicts imp t m roll spare true t'
  /-- There is nothing else. -/
  | spared : (∀ key i, t.slotOf imp key (Hash.hash key t.seed) = .ok (some i) → some i = spare) →
      Evicts imp t m roll spare false t

theorem Takes.shows {roll : UInt64} {spare : Option Nat} {i : Nat} {item : Item} {lane : Lane Item}
    (h : Takes imp t cells lost roll spare i item t') (hfree : lane.item? = none)
    (hkeys : ((entries cells).map fun item => item.view.key).Nodup) (hm : Shows (entries cells) m) :
    Shows (entries (cells.set i lane)) (Function.update m item.view.key none) := by
  have hrest := entries_full h.at_ lane hfree
  exact (hm.perm hrest).drop ((hrest.map _).nodup_iff.mp hkeys)

theorem Sound.evicts (h : Sound imp t cells F lost) (hm : Shows (entries cells) m) (roll : UInt64)
    (spare : Option Nat) : ∃ b t', t.evictOne imp roll spare = .ok (b, t') ∧ Evicts imp t m roll spare b t' := by
  obtain ⟨hevict, hnone⟩ | ⟨t', i, item, hevict, htakes⟩ := h.evictOne_takes roll spare
  · refine ⟨false, t, hevict, .spared ?_⟩
    intro key i hslot
    obtain ⟨item, hi, -⟩ := h.slot_of_slotOf hslot
    exact hnone i item hi
  · obtain ⟨lane, F', hfree, hsound⟩ := htakes.rest
    obtain ⟨j, other, hj, hsampled, hle⟩ := htakes.sooner
    refine ⟨true, t', hevict, .took (h.slotOf_ok htakes.at_) htakes.unspared (hm.get (mem_entries.mpr ⟨i, htakes.at_⟩))
      (h.slotOf_ok hj) (hm.get (mem_entries.mpr ⟨j, hj⟩)) hsampled hle
      (hsound.stores (htakes.shows hfree h.indexed.keys hm)) ?_⟩
    rw [hsound.indexed.len, h.indexed.len, (entries_full htakes.at_ lane hfree).length_eq]
    rfl

/-! ## The evictions after a write -/

/-- How far the evictions have come: what is gone, and the entry they spare where it was. -/
structure Evicting (imp : Imp) (t : Table) (items : List Item) (spare : Nat) (item : Item) (gone : List Item)
    (t' : Table) (cells' : List (Lane Item)) : Prop where
  sound : ∃ F lost, Sound imp t' cells' F lost
  split : items.Perm (gone ++ entries cells')
  at_ : cells'[spare]? = some (.full item)
  seed : t'.seed = t.seed
  length : cells'.length = t.slots.length

/-- Nothing but what is spared. -/
def Alone (cells : List (Lane Item)) (spare : Nat) : Prop := ∀ i item, cells[i]? = some (.full item) → i = spare

theorem evictLoop_ok {items : List Item} {spare : Nat} {item : Item} (budget : Nat) (fuel : Nat) :
    ∀ (roll : UInt64) (went : Nat) (gone : List Item) (t₁ : Table) (cells₁ : List (Lane Item)),
      Evicting imp t items spare item gone t₁ cells₁ →
      ∃ taken t₂ cells₂, evictLoop imp budget (some spare) fuel roll went t₁ = .ok (went + taken.length, t₂) ∧
        Evicting imp t items spare item (taken ++ gone) t₂ cells₂ ∧
        (t₂.chargedBytes ≤ budget ∨ taken.length = fuel ∨ Alone cells₂ spare) := by
  induction fuel with
  | zero =>
    intro roll went gone t₁ cells₁ h
    exact ⟨[], t₁, cells₁, rfl, h, .inr (.inl rfl)⟩
  | succ fuel ih =>
    intro roll went gone t₁ cells₁ h
    rw [evictLoop]
    by_cases hover : t₁.chargedBytes > budget
    · rw [if_pos hover]
      obtain ⟨F, lost, hsound⟩ := h.sound
      obtain ⟨hevict, hnone⟩ | ⟨t₂, i, victim, hevict, htakes⟩ := hsound.evictOne_takes (stir roll) (some spare)
      · refine ⟨[], t₁, cells₁, by simp only [hevict, ok_bind]; rfl, h, .inr (.inr ?_)⟩
        intro i other hi
        exact Option.some.inj (hnone i other hi)
      · obtain ⟨lane, F', hfree, hsound'⟩ := htakes.rest
        have hne : i ≠ spare := fun heq => htakes.unspared (congrArg some heq)
        have hnext : Evicting imp t items spare item (victim :: gone) t₂ (cells₁.set i lane) := by
          refine ⟨⟨F', _, hsound'⟩, ?_, ?_, htakes.seed.trans h.seed, List.length_set.trans h.length⟩
          · have hsplit := entries_full htakes.at_ lane hfree
            calc items
              List.Perm _ (gone ++ entries cells₁) := h.split
              List.Perm _ (gone ++ victim :: entries (cells₁.set i lane)) := hsplit.append_left gone
              List.Perm _ (victim :: gone ++ entries (cells₁.set i lane)) := List.perm_middle
          · rw [List.getElem?_set_ne hne]
            exact h.at_
        -- the rest of the loop, with one attempt fewer and the victim gone
        obtain ⟨taken, t₃, cells₃, hloop, hevicting, hend⟩ := ih (stir roll) (went + 1) (victim :: gone) t₂ _ hnext
        refine ⟨taken ++ [victim], t₃, cells₃, ?_, ?_, ?_⟩
        · simp only [hevict, ok_bind, if_true, hloop, List.length_append, List.length_singleton]
          rw [Nat.add_assoc, Nat.add_comm 1]
        · rw [List.append_assoc]
          exact hevicting
        · rw [List.length_append, List.length_singleton]
          exact hend.imp_right (Or.imp_left (congrArg (· + 1)))
    · rw [if_neg hover]
      exact ⟨[], t₁, cells₁, rfl, h, .inl (Nat.not_lt.mp hover)⟩

/-- What is done to a table that a write has brought over its budget. -/
structure Fitted (imp : Imp) (t : Table) (m : Cache) (budget : Nat) (key : List UInt8) (t' : Table) : Prop where
  idle : t.chargedBytes ≤ budget → t' = t
  rest : ∃ gone : List (List UInt8), gone.Nodup ∧ key ∉ gone ∧ (∀ k ∈ gone, (m k).isSome) ∧
    Stores imp t' (fun k => if k ∈ gone then none else m k) ∧ t'.len + gone.length = t.len ∧
    (t'.chargedBytes ≤ budget ∨ gone.length = 64 ∨ ∀ k, (m k).isSome → k ∉ gone → k = key)

theorem chargedBytes_eq (h : Indexed imp t cells) : t.chargedBytes = cells.length * 5 + t.arena.live := by
  rw [chargedBytes, indexBytes, h.ctrl, h.slots, List.length_map, List.length_map]
  omega

theorem Evicting.fitted {items gone : List Item} {spare budget : Nat} {item : Item} {t₁ : Table}
    {cells₁ : List (Lane Item)} (h : Evicting imp t items spare item gone t₁ cells₁) (hm : Shows items m)
    (hkeys : (items.map fun item => item.view.key).Nodup) (hlen : t.len = items.length)
    (hover : ¬ t.chargedBytes ≤ budget) (h' : Sound imp t' cells F lost) (hperm : (entries cells).Perm (entries cells₁))
    (hend : t'.chargedBytes ≤ budget ∨ gone.length = 64 ∨ Alone cells₁ spare) :
    Fitted imp t m budget item.view.key t' := by
  have hsplit := (h.split.map fun item => item.view.key).nodup_iff.mp hkeys
  have hboth := hsplit
  rw [List.map_append, List.nodup_append] at hboth
  have hspared : item.view.key ∈ (entries cells₁).map fun item => item.view.key :=
    List.mem_map_of_mem (mem_entries.mpr ⟨spare, h.at_⟩)
  refine ⟨fun hle => absurd hle hover, gone.map fun item => item.view.key, hboth.1, ?_, ?_, ?_, ?_, ?_⟩
  · intro hmem
    exact hboth.2.2 _ hmem _ hspared rfl
  · intro k hk
    obtain ⟨other, ho, rfl⟩ := List.mem_map.mp hk
    rw [hm.get (h.split.mem_iff.mpr (List.mem_append_left _ ho))]
    rfl
  · exact h'.stores (((hm.perm h.split).drops hsplit).perm hperm.symm)
  · rw [h'.indexed.len, hlen, h.split.length_eq, List.length_append, hperm.length_eq, List.length_map]
    omega
  · rw [List.length_map]
    refine hend.imp_right (Or.imp_right ?_)
    intro halone k hk hnot
    obtain ⟨kept, hkept⟩ := Option.isSome_iff_exists.mp hk
    obtain ⟨other, ho, rfl, -⟩ := (hm k kept).mp hkept
    obtain ho | ho := List.mem_append.mp (h.split.mem_iff.mp ho)
    · exact absurd (List.mem_map_of_mem ho) hnot
    · obtain ⟨i, hi⟩ := mem_entries.mp ho
      rw [halone i other hi, h.at_] at hi
      cases hi
      rfl

/-- Where the key is stored, what is done is exact, and is done. -/
theorem Sound.evictToFit_ok (h : Sound imp t cells F lost) (hm : Shows (entries cells) m) {budget : Nat}
    (hbudget : 0 < budget) (key : List UInt8) (hkey : (m key).isSome) :
    ∃ t', t.evictToFit imp budget key (Hash.hash key t.seed) = .ok t' ∧ Fitted imp t m budget key t' := by
  obtain ⟨kept, hkept⟩ := Option.isSome_iff_exists.mp hkey
  obtain ⟨item, hmem, rfl, -⟩ := (hm key kept).mp hkept
  obtain ⟨spare, hspare⟩ := mem_entries.mp hmem
  have hlen := h.indexed.len
  rw [evictToFit]
  by_cases hfits : t.chargedBytes ≤ budget
  · rw [if_pos (.inr hfits)]
    have hsame : (fun k => if k ∈ ([] : List (List UInt8)) then none else m k) = m := by
      funext k
      exact if_neg List.not_mem_nil
    refine ⟨t, rfl, fun _ => rfl, [], List.nodup_nil, List.not_mem_nil, by simp, ?_, rfl, .inl hfits⟩
    rw [hsame]
    exact h.stores hm
  · have hover : ¬ (budget = 0 ∨ t.chargedBytes ≤ budget) := by
      rintro (hzero | hle)
      · omega
      · exact hfits hle
    have hstart : Evicting imp t (entries cells) spare item [] t cells :=
      ⟨⟨F, lost, h⟩, List.Perm.refl _, hspare, rfl, h.indexed.length.symm⟩
    obtain ⟨taken, t₁, cells₁, hloop, hevicting, hend⟩ :=
      evictLoop_ok budget 64 (Hash.hash item.view.key t.seed ||| 1) 0 [] t cells hstart
    obtain ⟨F₁, lost₁, h₁⟩ := hevicting.sound
    rw [List.append_nil] at hevicting
    rw [if_neg hover]
    simp only [h.slotOf_ok hspare, hloop, ok_bind]
    by_cases hwent : 0 + taken.length > 0
    · obtain ⟨b, t₂, cells₂, hshrink, h₂, hperm, -, harena, hless⟩ := h₁.shrink_ok
      rw [if_pos hwent]
      simp only [hshrink, ok_bind]
      refine ⟨t₂, rfl, hevicting.fitted hm h.indexed.keys hlen hfits h₂ hperm ?_⟩
      -- a smaller index is charged less
      refine hend.imp_left fun hle => Nat.le_trans ?_ hle
      rw [chargedBytes_eq h₂.indexed, chargedBytes_eq h₁.indexed, harena]
      omega
    · rw [if_neg hwent]
      exact ⟨t₁, rfl, hevicting.fitted hm h.indexed.keys hlen hfits h₁ (List.Perm.refl _) hend⟩

/-- Of every table that is reached: each eviction takes one entry, the sooner to expire
of the two that are sampled and never the one spared, or there is nothing else; and what
a write evicts is what it may, up to its budget, to 64 entries or to its own. -/
theorem evictions_exact (imp : Imp) (p : Platform) (seed : UInt64)
    {tr : List (Table × (Op × Except Full Answer) × Table)} {t : Table}
    (h : Run (Returns imp p) (Table.new seed) tr t) (hkeeps : ∀ x ∈ tr, Unstranded p x.1 x.2.1) :
    ∃ m, Stores imp t m ∧
      (∀ roll spare, ∃ b t', t.evictOne imp roll spare = .ok (b, t') ∧ Evicts imp t m roll spare b t') ∧
      ∀ granted key value expiry userFlags wrote t₁,
        t.set imp p granted key value (Hash.hash key t.seed) expiry userFlags = .ok (.ok wrote, t₁) →
        Stores imp t₁ (Function.update m key (some ⟨value, expiry, userFlags⟩)) ∧
        ∀ budget > 0, ∃ t₂, t₁.evictToFit imp budget key (Hash.hash key t₁.seed) = .ok t₂ ∧
          Fitted imp t₁ (Function.update m key (some ⟨value, expiry, userFlags⟩)) budget key t₂ := by
  obtain ⟨m, his⟩ := reached_is h hkeeps
  refine ⟨m, ?_, ?_, ?_⟩
  · exact his.stores
  · intro roll spare
    obtain ⟨items, lost, ⟨cells, F, hsound, hperm⟩, hm⟩ := his
    exact hsound.evicts (hm.perm hperm.symm) roll spare
  · intro granted key value expiry userFlags wrote t₁ hset
    have hop : t.perform imp p (.set key value expiry userFlags granted) = .ok (.ok (.wrote wrote), t₁) := by
      rw [perform, hset]
      rfl
    obtain ⟨r, t', hset', -, hall⟩ :=
      his.set_ok p granted (show Fits key ⟨value, expiry, userFlags⟩ from his.short_of_answer hop)
    rw [show t.set imp p granted key value _ expiry userFlags = _ from hset'] at hset
    cases hset
    obtain ⟨-, items, lost, ⟨cells, F, hsound, hperm⟩, hm⟩ := hall wrote rfl
    have hm' := hm.perm hperm.symm
    refine ⟨hsound.stores hm', ?_⟩
    intro budget hbudget
    apply hsound.evictToFit_ok hm' hbudget
    rw [Function.update_self]
    rfl

/-- After a stranded tail there is a table with an entry, and what would evict it panics. -/
theorem evictions_torn : ∃ tr t, Run (Returns .sse2 Arena.pages) (Table.new 0) tr t ∧ t.len = 1 ∧
    t.evictOne .sse2 0 none = .error .bounds := by
  obtain ⟨a, htorn⟩ := torn_exists
  obtain ⟨tr, hrun⟩ := htorn.comes.run
  exact ⟨tr, one a, hrun, rfl, torn_evict htorn.tip⟩

/-- The one entry there is, is the one that is evicted. -/
theorem evictions_exact_lapsing : ∃ t m, Run (Returns .word .boxed) (Table.new 0)
      [(Table.new 0, (.set [7] [1] (some 5) none true, .ok (.wrote .inserted)), t)] t ∧
    Stores .word t m ∧ m [7] = some ⟨[1], some 5, none⟩ ∧
    ∃ b t', t.evictOne .word 0 none = .ok (b, t') ∧ Evicts .word t m 0 none b t' := by
  obtain ⟨t, hmoves, his⟩ := set_lapsing
  have hrun : Run (Returns .word .boxed) (Table.new 0)
      [(Table.new 0, (.set [7] [1] (some 5) none true, .ok (.wrote .inserted)), t)] t := .single hmoves
  obtain ⟨m, hstores, hevicts, -⟩ := evictions_exact .word .boxed 0 hrun
    (List.forall_mem_singleton.mpr (.inl ⟨_, rfl⟩))
  refine ⟨t, m, hrun, hstores, ?_, hevicts 0 none⟩
  have hheld : (.ok _ : Exec (Option Kept)) = .ok _ := (his.stores [7]).symm.trans (hstores [7])
  rw [← Except.ok.inj hheld]
  rfl

end Rugo.Table
