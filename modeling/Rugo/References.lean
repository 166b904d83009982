import Mathlib.Data.List.Range
import Rugo.ArenaRuns

/- The reference that means none.

   `Ref::NONE` has the oversized bit set, so it is also how slot 2^31 - 1 of the
   oversized table is spelled, and its comment says the table is capped below
   that slot. The cap is one too high: a table of 2^31 - 1 slots with no hole
   hands the sentinel out, and `free` ignores it.

     1. `Kept`: what an arena owes its callers, whatever has become of its free
        lists. A stranded tail may put garbage on a list, but what a list hands
        out was read through, so it lies in a segment and can be given back.
     2. `kept_run`: it is kept over every run. A block whose `free` was ignored
        stays on the ledger.
     3. `handed_iff`: in every state reached and for every length, an answer is
        a reference that gives the block back, and a table with no reference
        left is refused, exactly when the allocation is not `Spent`. -/
namespace Rugo.Arena
open Exec Words Runs

/-- A reference to the first word of a block in some segment. -/
def Placed (a : Arena) (r : Ref) : Prop := (place r).2 + 4 ≤ (a.segment (place r).1).length

/-- The blocks `B` are with their holders, and can be taken back: the small lie in a
segment, the oversized each in a slot of its own, and every slot is a block's or a hole. -/
structure Kept (a : Arena) (B : List Block) : Prop where
  shape : Shape a
  small : ∀ b ∈ B, ∀ cls, b.cls = some cls → Placed a b.ref ∧ cls < a.heads.length
  large : ∀ b ∈ B, b.isLarge = true →
    b.ref.isLarge = true ∧ (a.large[b.ref.index]?).map List.length = some b.data.length
  slots : ((B.filter Block.isLarge).map (·.ref.index) ++ a.largeFree.map (·.toNat)).Perm
    (List.range a.large.length)
  holes : ∀ i ∈ a.largeFree, i.toNat < 2 ^ 31 - 1
  reach : a.large.length ≤ 2 ^ 31
  live : a.live = (B.map fun b => charge b.data.length).sum
  largeLive : a.largeLive = (B.map Block.largeSize).sum

/-- What hands out nothing and takes nothing back: no segment shrinks, no list is
dropped, and the oversized table and the totals are as they were. -/
structure Still (a a' : Arena) : Prop where
  shape : Shape a → Shape a'
  longer : ∀ s, (a.segment s).length ≤ (a'.segment s).length
  heads : a.heads.length ≤ a'.heads.length
  large : a'.large = a.large
  largeFree : a'.largeFree = a.largeFree
  live : a'.live = a.live
  largeLive : a'.largeLive = a.largeLive

theorem Still.trans {a b c : Arena} (h : Still a b) (h' : Still b c) : Still a c where
  shape := fun hs => h'.shape (h.shape hs)
  longer := fun s => (h.longer s).trans (h'.longer s)
  heads := h.heads.trans h'.heads
  large := h'.large.trans h.large
  largeFree := h'.largeFree.trans h.largeFree
  live := h'.live.trans h.live
  largeLive := h'.largeLive.trans h.largeLive

section kept
variable {a a' : Arena} {B : List Block} {b : Block} {r : Ref} {data : List UInt8} {cls len : Nat}

theorem Kept.perm {B' : List Block} (h : Kept a B) (hp : B.Perm B') : Kept a B' where
  shape := h.shape
  small := fun b hb => h.small b (hp.mem_iff.mpr hb)
  large := fun b hb => h.large b (hp.mem_iff.mpr hb)
  slots := (((hp.symm.filter _).map _).append_right _).trans h.slots
  holes := h.holes
  reach := h.reach
  live := h.live.trans (hp.map _).sum_eq
  largeLive := h.largeLive.trans (hp.map _).sum_eq

theorem Kept.still (h : Kept a B) (hs : Still a a') : Kept a' B where
  shape := hs.shape h.shape
  small := fun b hb cls hcls => by
    obtain ⟨hplaced, hlt⟩ := h.small b hb cls hcls
    exact ⟨Nat.le_trans hplaced (hs.longer _), Nat.lt_of_lt_of_le hlt hs.heads⟩
  large := by rw [hs.large]; exact h.large
  slots := by rw [hs.large, hs.largeFree]; exact h.slots
  holes := by rw [hs.largeFree]; exact h.holes
  reach := by rw [hs.large]; exact h.reach
  live := hs.live.trans h.live
  largeLive := hs.largeLive.trans h.largeLive

theorem Shape.of_segments (h : Shape a) (heads : List UInt32) (large : List (List UInt8)) (largeFree : List UInt32)
    (live dead largeLive : Nat) : Shape { a with heads, large, largeFree, live, dead, largeLive } :=
  ⟨h.made_le, h.seg_eq, h.off_le, h.lengths, h.beyond, h.tail, h.total⟩

theorem Shape.placed_lt (h : Shape a) (hr : Placed a r) : r.bits.toNat < 2 ^ 31 := by
  have hmade := h.made_le
  unfold Placed at hr
  rw [place_eq] at hr
  by_contra hge
  have hnil := h.beyond (r.bits.toNat / 2 ^ 21) (by omega)
  simp only [hnil, List.length_nil] at hr
  omega

theorem Shape.placed_small (h : Shape a) (hr : Placed a r) : r.isLarge = false := by
  have hlt := h.placed_lt hr
  rw [← Bool.not_eq_true, Ref.isLarge_iff]
  omega

theorem Shape.placed_ne (h : Shape a) (hr : Placed a r) : r ≠ Ref.NONE := by
  rintro rfl
  have hlt := h.placed_lt hr
  exact absurd hlt (by decide)

/-! ## What changes nothing that is held -/

theorem setSegment_still {s : Nat} {bytes : Segment} (h : bytes.length = (a.segment s).length) :
    Still a (a.setSegment s bytes) := by
  have hlen : ∀ t, ((a.setSegment s bytes).segment t).length = (a.segment t).length := by
    intro t
    rw [segment_setSegment a s bytes h]
    split
    · next ht => rw [ht, h]
    · rfl
  have hsame : SameShape a (a.setSegment s bytes) := ⟨by simp, by simp, by simp, by simp, by simp, hlen⟩
  exact ⟨hsame.shape, fun t => Nat.le_of_eq (hlen t).symm, by simp, by simp, by simp, by simp, by simp⟩

theorem heads_still {heads : List UInt32} (h : a.heads.length ≤ heads.length) (dead : Nat) :
    Still a { a with heads, dead } where
  shape := fun hs => hs.of_segments _ _ _ _ _ _
  longer := fun _ => Nat.le_refl _
  heads := h
  large := rfl
  largeFree := rfl
  live := rfl
  largeLive := rfl

theorem pushFree_still (h : a.pushFree r len = .ok a') :
    Still a a' ∧ ∀ cls, len = (cls + 1) * 4 → a'.heads[cls]? = some r.bits := by
  rw [pushFree] at h
  obtain ⟨cls, hcls, h⟩ := bind_ok_iff.mp h
  obtain ⟨head, -, h⟩ := bind_ok_iff.mp h
  obtain ⟨a₁, hset, h⟩ := bind_ok_iff.mp h
  obtain ⟨heads, hheads, h⟩ := bind_ok_iff.mp h
  rw [setNextFree] at hset
  obtain ⟨bytes, hbytes, hset⟩ := bind_ok_iff.mp hset
  cases hset
  cases h
  obtain ⟨hlt, rfl⟩ := update_eq_ok.mp hheads
  obtain ⟨-, rfl⟩ := minus_eq_ok.mp hcls
  have hlen : ∀ l : List UInt32, l.length = (l.set (len / grain - 1) r.bits).length := fun l => List.length_set.symm
  have hdead : Still a { a with dead := a.dead + len } := heads_still (Nat.le_refl _) _
  have hseg := setSegment_still (a := { a with dead := a.dead + len }) (splice_length hbytes)
  refine ⟨(hdead.trans hseg).trans (heads_still (Nat.le_of_eq (hlen _)) _), ?_⟩
  intro cls hcls
  rw [show len / grain - 1 = cls by unfold grain; omega] at hlt ⊢
  exact List.getElem?_set_self hlt

theorem reach_still (a : Arena) (cls : Nat) : Still a (a.reach cls) := by
  rw [reach]
  split
  · exact heads_still (by rw [List.length_append]; omega) _
  · exact heads_still (Nat.le_refl _) _

theorem abandon_still {room : Nat} (h : a.abandon room = .ok a') : Still a a' := by
  rw [abandon] at h
  split at h
  · exact (pushFree_still h).1
  · cases h
    exact heads_still (Nat.le_refl _) _

theorem Grown.still (h : Grown a a') (hs : Shape a) : Still a a' where
  shape := h.shape
  longer := fun s => by
    by_cases hmade : s = a.made
    · rw [hs.beyond s (Nat.le_of_eq hmade.symm)]
      exact Nat.zero_le _
    · rw [h.old s hmade]
  heads := Nat.le_of_eq (congrArg List.length h.heads.symm)
  large := h.large
  largeFree := h.largeFree
  live := h.live
  largeLive := h.largeLive

/-! ## Handing out -/

theorem Kept.cons_small (h : Kept a B) (hcls : classOf data.length = some cls) (hr : Placed a r)
    (hlt : cls < a.heads.length) : Kept { a with live := a.live + (cls + 1) * 4 } (⟨r, data⟩ :: B) := by
  obtain ⟨hsmall, -, hsize⟩ := small_block (r := r) hcls
  constructor
  case shape => exact h.shape.of_segments _ _ _ _ _ _
  case small =>
    intro b hb cls' hcls'
    cases hb with
    | head =>
      rw [Block.cls, hcls] at hcls'
      cases hcls'
      exact ⟨hr, hlt⟩
    | tail _ hb => exact h.small b hb cls' hcls'
  case large =>
    intro b hb hlarge
    cases hb with
    | head =>
      rw [hsmall] at hlarge
      cases hlarge
    | tail _ hb => exact h.large b hb hlarge
  case slots =>
    rw [List.filter_cons_of_neg (by rw [hsmall]; exact Bool.false_ne_true)]
    exact h.slots
  case holes => exact h.holes
  case reach => exact h.reach
  case live =>
    rw [List.map_cons, List.sum_cons, charge_small hcls, ← h.live]
    exact Nat.add_comm _ _
  case largeLive =>
    rw [List.map_cons, List.sum_cons, hsize, Nat.zero_add]
    exact h.largeLive

/-- What a list hands out was read through, so it lies in a segment, whatever the list is. -/
theorem takeFree_kept {head : UInt32} (h : Kept a B) (htake : a.takeFree cls head = .ok (r, a')) :
    a'.live = a.live + (cls + 1) * 4 ∧ r ≠ Ref.NONE ∧
      ∀ data, classOf data.length = some cls → Kept a' (⟨r, data⟩ :: B) := by
  rw [takeFree] at htake
  obtain ⟨next, hnext, htake⟩ := bind_ok_iff.mp htake
  obtain ⟨heads, hheads, htake⟩ := bind_ok_iff.mp htake
  obtain ⟨dead, -, htake⟩ := bind_ok_iff.mp htake
  cases htake
  obtain ⟨hlt, rfl⟩ := update_eq_ok.mp hheads
  have hplaced : Placed a ⟨head⟩ := by
    rw [nextFree] at hnext
    obtain ⟨buf, hbuf, -⟩ := bind_ok_iff.mp hnext
    exact (slice_eq_ok.mp hbuf).1.2
  have hstill : Still a { a with heads := a.heads.set cls next, dead } :=
    heads_still (Nat.le_of_eq List.length_set.symm) dead
  refine ⟨rfl, h.shape.placed_ne hplaced, fun data hdata => ?_⟩
  exact (h.still hstill).cons_small hdata hplaced (by rw [List.length_set]; exact hlt)

theorem bump_kept (h : Kept a B) (hl : cls + 1 ≤ left a) (hcls : (cls + 1) * 4 ≤ 2048) (hlt : cls < a.heads.length) :
    (a.bump ((cls + 1) * grain)).1 ≠ Ref.NONE ∧ ∀ data, classOf data.length = some cls →
      Kept (a.bump ((cls + 1) * grain)).2 (⟨(a.bump ((cls + 1) * grain)).1, data⟩ :: B) := by
  obtain ⟨hmade, hoff, hmk⟩ := h.shape.left_made (by omega)
  have hin := (h.shape.fresh_inside hl (by omega)).1
  have hplaced : Placed a (make a.seg a.off) := by
    unfold fresh at hin
    unfold Placed
    rw [place_eq]
    simp only at hin ⊢
    omega
  have hunits : (a.off + narrow ((cls + 1) * grain / grain)).toNat = a.off.toNat + (cls + 1) := by
    rw [show (cls + 1) * grain / grain = cls + 1 by unfold grain; omega, UInt32.toNat_add, narrow,
      UInt32.toNat_ofNat']
    omega
  have hstill : Still a { a with off := a.off + narrow ((cls + 1) * grain / grain) } := by
    refine ⟨fun hs => hs.advance ?_, fun _ => Nat.le_refl _, Nat.le_refl _, rfl, rfl, rfl, rfl⟩
    unfold left at hl
    have hle := hs.off_le
    rw [hunits]
    omega
  exact ⟨h.shape.placed_ne hplaced, fun data hdata => (h.still hstill).cons_small hdata hplaced hlt⟩

theorem cut_kept {p : Platform} {granted : Bool} {res : Except Full Ref} (h : Kept a B)
    (hcls : (cls + 1) * 4 ≤ 2048) (hlt : cls < a.heads.length)
    (hcut : a.cut p granted ((cls + 1) * grain) = .ok (res, a')) :
    match res with
    | .error _ => Kept a' B
    | .ok r => a'.live = a.live + (cls + 1) * 4 ∧ r ≠ Ref.NONE ∧
      ∀ data, classOf data.length = some cls → Kept a' (⟨r, data⟩ :: B) := by
  have hunits : (narrow ((cls + 1) * grain / grain)).toNat = cls + 1 := by
    rw [show (cls + 1) * grain / grain = cls + 1 by unfold grain; omega, narrow, UInt32.toNat_ofNat']
    omega
  rw [cut, h.shape.room, ok_bind, hunits] at hcut
  split at hcut
  · -- no room: what is left goes on a list, and a segment is asked for
    obtain ⟨a₁, habandon, hcut⟩ := bind_ok_iff.mp hcut
    have hstill := abandon_still habandon
    have hkept := h.still hstill
    rw [cutGrown] at hcut
    obtain ⟨-, full, hgrow⟩ | ⟨-, a₂, hgrow, hgrown⟩ := grow_cases p granted a₁ hkept.shape.tail hkept.shape.beyond
    · rw [hgrow] at hcut
      cases hcut
      exact hkept
    · rw [hgrow] at hcut
      cases hcut
      have hroom : cls + 1 ≤ left a₂ := by
        have hfresh := hgrown.fresh
        unfold left
        rw [hgrown.made, hgrown.off, Nat.add_sub_cancel]
        simp only [UInt32.toNat_zero]
        omega
      have hlt' : cls < a₂.heads.length := by
        rw [hgrown.heads]
        exact Nat.lt_of_lt_of_le hlt hstill.heads
      refine ⟨?_, bump_kept (hkept.still (hgrown.still hkept.shape)) hroom hcls hlt'⟩
      show a₂.live + (cls + 1) * 4 = _
      rw [hgrown.live, hstill.live]
  · next hroom =>
    cases hcut
    exact ⟨rfl, bump_kept h (by omega) hcls hlt⟩

theorem Kept.cons_large {T : List (List UInt8)} {i : UInt32} {rest : List UInt32} (h : Kept a B)
    (hlen : classOf data.length = none) (hreach : T.length ≤ 2 ^ 31) (hi : i.toNat < T.length)
    (hold : ∀ j < a.large.length, T[j]? = a.large[j]?) (hsub : ∀ j ∈ rest, j ∈ a.largeFree)
    (hslots : ((B.filter Block.isLarge).map (·.ref.index) ++ i.toNat :: rest.map (·.toNat)).Perm
      (List.range T.length)) :
    Kept { a with live := a.live + data.length, largeLive := a.largeLive + data.length,
                  large := T.set i.toNat (List.replicate data.length 0), largeFree := rest }
      (⟨⟨i ||| LARGE⟩, data⟩ :: B) := by
  have hor := or_LARGE (Nat.lt_of_lt_of_le hi hreach)
  have hindex : (⟨i ||| LARGE⟩ : Ref).index = i.toNat := by
    rw [Ref.index_eq, hor]
    omega
  have hlarge : (⟨⟨i ||| LARGE⟩, data⟩ : Block).isLarge = true := Block.isLarge_iff.mpr hlen
  -- no other block has this slot
  have hfresh : ∀ b ∈ B, b.isLarge = true → b.ref.index ≠ i.toNat := by
    intro b hb hbl heq
    have hnodup := hslots.nodup_iff.mpr List.nodup_range
    have hmem : i.toNat ∈ (B.filter Block.isLarge).map (·.ref.index) :=
      List.mem_map.mpr ⟨b, List.mem_filter.mpr ⟨hb, hbl⟩, heq⟩
    exact (List.nodup_append.mp hnodup).2.2 _ hmem _ List.mem_cons_self rfl
  constructor
  case shape => exact h.shape.of_segments _ _ _ _ _ _
  case small =>
    intro b hb cls hcls
    cases hb with
    | head =>
      rw [Block.cls, hlen] at hcls
      cases hcls
    | tail _ hb => exact h.small b hb cls hcls
  case large =>
    intro b hb hbl
    cases hb with
    | head =>
      refine ⟨(Ref.isLarge_iff _).mpr (by rw [hor]; omega), ?_⟩
      simp only [hindex, List.getElem?_set_self hi, Option.map_some, List.length_replicate]
    | tail _ hb =>
      obtain ⟨href, hget⟩ := h.large b hb hbl
      obtain ⟨bytes, hbytes, -⟩ := Option.map_eq_some_iff.mp hget
      refine ⟨href, ?_⟩
      rw [List.getElem?_set_ne (hfresh b hb hbl).symm, hold _ (List.getElem?_eq_some_iff.mp hbytes).1]
      exact hget
  case slots =>
    rw [List.filter_cons_of_pos hlarge, List.map_cons, hindex, List.length_set]
    exact List.perm_middle.symm.trans hslots
  case holes => exact fun j hj => h.holes j (hsub j hj)
  case reach =>
    rw [List.length_set]
    exact hreach
  case live =>
    rw [List.map_cons, List.sum_cons, charge_large hlen, ← h.live]
    exact Nat.add_comm _ _
  case largeLive =>
    rw [List.map_cons, List.sum_cons, Block.largeSize, if_pos hlarge, ← h.largeLive]
    exact Nat.add_comm _ _

/-- The allocation whose slot is the sentinel's: oversized, no hole, and every slot below made. -/
def Spent (a : Arena) (len : Nat) : Prop :=
  classOf len = none ∧ a.largeFree = [] ∧ a.large.length = 2 ^ 31 - 1

theorem slot_ne {i : UInt32} (h : i.toNat < 2 ^ 31) : (⟨i ||| LARGE⟩ : Ref) = Ref.NONE ↔ i.toNat = 2 ^ 31 - 1 := by
  have hmax : u32Max.toNat = 2 ^ 32 - 1 := rfl
  rw [Ref.NONE, Ref.mk.injEq, ← UInt32.toNat_inj, or_LARGE h, hmax]
  omega

/-- The slot is a hole, or one past the end while there are fewer than 2^31; the last of
them is the sentinel's. -/
theorem allocLarge_kept {res : Except Full Ref} (h : Kept a B) (hlen : classOf len = none)
    (halloc : a.allocLarge len = .ok (res, a')) :
    match res with
    | .error full => full = .large ∧ a' = a ∧ a.largeFree = [] ∧ a.large.length = 2 ^ 31
    | .ok r => a'.live = a.live + len ∧ (r = Ref.NONE ↔ Spent a len) ∧
      ∀ data, data.length = len → Kept a' (⟨r, data⟩ :: B) := by
  have hu32 : u32Max.toNat = 2 ^ 32 - 1 := rfl
  have hreach := h.reach
  rw [allocLarge, largeSlot] at halloc
  cases hfree : a.largeFree with
  | cons hole rest =>
    -- a hole was given back, so it is not the sentinel's slot
    have hslots := h.slots
    rw [hfree, List.map_cons] at hslots
    have hhole := h.holes hole (by rw [hfree]; exact List.mem_cons_self)
    have hlt : hole.toNat < a.large.length :=
      List.mem_range.mp (hslots.mem_iff.mp (List.mem_append_right _ List.mem_cons_self))
    rw [hfree] at halloc
    simp only [update_ok hlt, ok_bind] at halloc
    cases halloc
    refine ⟨rfl, ?_, ?_⟩
    · rw [slot_ne (by omega)]
      constructor
      · omega
      · rintro ⟨-, hnil, -⟩
        rw [hfree] at hnil
        cases hnil
    · rintro data rfl
      exact h.cons_large hlen hreach hlt (fun _ _ => rfl)
        (fun j hj => by rw [hfree]; exact List.mem_cons_of_mem _ hj) hslots
  | nil =>
    rw [hfree] at halloc
    simp only at halloc
    have hn : (narrow a.large.length).toNat = a.large.length := by
      rw [narrow, UInt32.toNat_ofNat']
      omega
    have hand := and_LARGE (narrow a.large.length)
    rw [hn] at hand
    rw [if_neg (by omega)] at halloc
    by_cases hroom : a.large.length < 2 ^ 31
    · have hlt : (narrow a.large.length).toNat < (a.large ++ [[]]).length := by
        rw [hn, List.length_append]
        exact Nat.lt_succ_self _
      rw [if_neg (not_not_intro (hand.mpr hroom))] at halloc
      simp only [update_ok hlt, ok_bind] at halloc
      cases halloc
      refine ⟨rfl, ?_, ?_⟩
      · rw [slot_ne (by omega), hn]
        exact ⟨fun hlast => ⟨hlen, hfree, hlast⟩, fun hspent => hspent.2.2⟩
      · rintro data rfl
        have hslots := h.slots
        rw [hfree, List.map_nil, List.append_nil] at hslots
        refine h.cons_large hlen (by rw [List.length_append]; exact hroom) hlt ?_
          (fun j hj => absurd hj List.not_mem_nil) ?_
        · intro j hj
          exact List.getElem?_append_left hj
        · rw [hn, List.map_nil, List.length_append, List.length_singleton, List.range_succ]
          exact hslots.append_right _
    · rw [if_pos (fun hzero => hroom (hand.mp hzero))] at halloc
      cases halloc
      exact ⟨rfl, rfl, rfl, by omega⟩

/-- An allocation that answers: what it hands out is charged and can be taken back, and is
the sentinel exactly where it is spent. One that does not changes nothing that is held. -/
theorem Kept.alloc {p : Platform} {granted : Bool} {res : Except Full Ref} (h : Kept a B)
    (halloc : a.alloc p granted len = .ok (res, a')) :
    match res with
    | .error _ => Kept a' B
    | .ok r => a'.live = a.live + charge len ∧ (r = Ref.NONE ↔ Spent a len) ∧
      ∀ data, data.length = len → Kept a' (⟨r, data⟩ :: B) := by
  rw [Arena.alloc] at halloc
  cases hlen : classOf len with
  | none =>
    rw [hlen] at halloc
    have hlarge := allocLarge_kept h hlen halloc
    cases res with
    | error full =>
      obtain ⟨-, rfl, -, -⟩ := hlarge
      exact h
    | ok r =>
      rw [charge_large hlen]
      exact hlarge
  | some cls =>
    have hclass := classOf_some hlen
    have hnot : ¬ Spent a len := fun hspent => by
      rw [Spent, hlen] at hspent
      cases hspent.1
    -- growing the list heads moves no block
    have hstill := reach_still a cls
    have hkept := h.still hstill
    rw [hlen] at halloc
    obtain ⟨head, hhead, halloc⟩ := bind_ok_iff.mp halloc
    have hlt := (List.getElem?_eq_some_iff.mp (index_eq_ok.mp hhead)).1
    rw [charge_small hlen]
    split at halloc
    · obtain ⟨⟨taken, a₁⟩, htake, halloc⟩ := bind_ok_iff.mp halloc
      cases halloc
      obtain ⟨hlive, hne, hkept'⟩ := takeFree_kept hkept htake
      refine ⟨by rw [hlive, hstill.live], iff_of_false hne hnot, ?_⟩
      rintro data rfl
      exact hkept' data hlen
    · have hcut := cut_kept hkept (by omega) hlt halloc
      cases res with
      | error full => exact hcut
      | ok r =>
        obtain ⟨hlive, hne, hkept'⟩ := hcut
        refine ⟨by rw [hlive, hstill.live], iff_of_false hne hnot, ?_⟩
        rintro data rfl
        exact hkept' data hlen

/-! ## Taking back and writing -/

/-- The block is where its next owner is found: at the head of its list, or in the first hole. -/
def Released (a : Arena) (r : Ref) (len : Nat) : Prop :=
  match classOf len with
  | some cls => a.heads[cls]? = some r.bits
  | none => a.large[r.index]? = some [] ∧ (a.largeFree.head?).map (·.toNat) = some r.index

theorem pushFree_returns (hr : Placed a r) (hlt : cls < a.heads.length) :
    ∃ a', a.pushFree r ((cls + 1) * grain) = .ok a' := by
  have hfour : ∀ word : UInt32, (u32Bytes word).length = 4 := fun _ => rfl
  have hcls : (cls + 1) * grain / grain = cls + 1 := by
    unfold grain
    omega
  have hset : ∀ word, ∃ bytes, setNextFree { a with dead := a.dead + (cls + 1) * grain } r word =
      .ok (setSegment { a with dead := a.dead + (cls + 1) * grain } (place r).1 bytes) := by
    intro word
    have hword : (place r).2 + (u32Bytes word).length ≤ (a.segment (place r).1).length := by
      rw [hfour]
      exact hr
    have hbytes : splice (segment { a with dead := a.dead + (cls + 1) * grain } (place r).1) (place r).2
      (u32Bytes word) =
        .ok _ := splice_ok hword
    rw [setNextFree]
    simp only [hbytes, ok_bind, pure_ok]
    exact ⟨_, rfl⟩
  obtain ⟨bytes, hbytes⟩ := hset a.heads[cls]
  rw [pushFree, hcls, minus_ok (by omega), ok_bind, Nat.add_sub_cancel, index_ok hlt, ok_bind, hbytes, ok_bind,
    setSegment_heads, update_ok hlt]
  exact ⟨_, rfl⟩

theorem Kept.drop_small (h : Kept a (b :: B)) (hcls : classOf b.data.length = some cls) :
    Kept { a with live := a.live - (cls + 1) * 4 } B := by
  obtain ⟨hsmall, -, hsize⟩ := small_block (r := b.ref) hcls
  have hlive := h.live
  have hlargeLive := h.largeLive
  rw [List.map_cons, List.sum_cons, charge_small hcls] at hlive
  rw [List.map_cons, List.sum_cons, hsize, Nat.zero_add] at hlargeLive
  constructor
  case shape => exact h.shape.of_segments _ _ _ _ _ _
  case small => exact fun c hc => h.small c (List.mem_cons_of_mem _ hc)
  case large => exact fun c hc => h.large c (List.mem_cons_of_mem _ hc)
  case slots =>
    have hslots := h.slots
    rw [List.filter_cons_of_neg (by rw [hsmall]; exact Bool.false_ne_true)] at hslots
    exact hslots
  case holes => exact h.holes
  case reach => exact h.reach
  case live =>
    show a.live - (cls + 1) * 4 = _
    omega
  case largeLive => exact hlargeLive

theorem Kept.drop_large (h : Kept a (b :: B)) (hlen : classOf b.data.length = none) (hne : b.ref ≠ Ref.NONE) :
    Kept { a with live := a.live - b.data.length, largeLive := a.largeLive - b.data.length,
                  large := a.large.set b.ref.index [], largeFree := (b.ref.bits &&& ~~~LARGE) :: a.largeFree } B := by
  have hbl : b.isLarge = true := Block.isLarge_iff.mpr hlen
  have hindex : (b.ref.bits &&& ~~~LARGE).toNat = b.ref.index := rfl
  have hlive := h.live
  have hlargeLive := h.largeLive
  have hslots := h.slots
  rw [List.map_cons, List.sum_cons, charge_large hlen] at hlive
  rw [List.map_cons, List.sum_cons, Block.largeSize, if_pos hbl] at hlargeLive
  rw [List.filter_cons_of_pos hbl, List.map_cons, List.cons_append] at hslots
  have hothers : ∀ c ∈ B, c.isLarge = true → c.ref.index ≠ b.ref.index := by
    intro c hc hcl heq
    have hnodup := List.nodup_cons.mp (hslots.nodup_iff.mpr List.nodup_range)
    refine hnodup.1 (List.mem_append_left _ ?_)
    rw [← heq]
    exact List.mem_map_of_mem (f := fun c : Block => c.ref.index) (List.mem_filter.mpr ⟨hc, hcl⟩)
  constructor
  case shape => exact h.shape.of_segments _ _ _ _ _ _
  case small => exact fun c hc => h.small c (List.mem_cons_of_mem _ hc)
  case large =>
    intro c hc hcl
    obtain ⟨hcref, hcget⟩ := h.large c (List.mem_cons_of_mem _ hc) hcl
    refine ⟨hcref, ?_⟩
    rw [List.getElem?_set_ne (hothers c hc hcl).symm]
    exact hcget
  case slots =>
    rw [List.map_cons, hindex, List.length_set]
    exact List.perm_middle.trans hslots
  case holes =>
    intro i hi
    cases hi with
    | head =>
      -- slot 2^31 - 1 is only ever the sentinel's, and that is not freed
      have hle := (Ref.isLarge_iff _).mp (h.large b List.mem_cons_self hbl).1
      have htop := b.ref.bits.toNat_lt
      have hsentinel : b.ref.bits.toNat ≠ 2 ^ 32 - 1 := fun heq => hne (Ref.ext (UInt32.toNat_inj.mp heq))
      rw [hindex, Ref.index_eq]
      omega
    | tail _ hi => exact h.holes i hi
  case reach =>
    rw [List.length_set]
    exact h.reach
  case live =>
    show a.live - b.data.length = _
    omega
  case largeLive =>
    show a.largeLive - b.data.length = _
    omega

theorem Kept.free (h : Kept a (b :: B)) (hne : b.ref ≠ Ref.NONE) :
    ∃ a', a.free b.ref b.data.length = .ok a' ∧ a'.live + charge b.data.length = a.live ∧
      Released a' b.ref b.data.length ∧ Kept a' B := by
  have hnone : ¬ b.ref.isNone = true := fun hn => hne ((Ref.isNone_iff _).mp hn)
  have hlive := h.live
  have hlargeLive := h.largeLive
  rw [List.map_cons, List.sum_cons] at hlive hlargeLive
  rw [Arena.free, if_neg hnone]
  unfold Released
  cases hlen : classOf b.data.length with
  | some cls =>
    have hclass := classOf_some hlen
    obtain ⟨hplaced, hlt⟩ := h.small b List.mem_cons_self cls hlen
    rw [charge_small hlen] at hlive ⊢
    obtain ⟨a', hpush⟩ : ∃ a', pushFree { a with live := a.live - (cls + 1) * 4 } b.ref ((cls + 1) * grain) = .ok a' :=
      pushFree_returns hplaced hlt
    obtain ⟨hstill, hhead⟩ := pushFree_still hpush
    have hminus : minus a.live ((cls + 1) * grain) = .ok (a.live - (cls + 1) * 4) := minus_ok (by unfold grain; omega)
    simp only [hminus, ok_bind]
    refine ⟨a', hpush, ?_, hhead cls rfl, (h.drop_small hlen).still hstill⟩
    rw [hstill.live]
    show a.live - (cls + 1) * 4 + (cls + 1) * 4 = a.live
    omega
  | none =>
    have hbl : b.isLarge = true := Block.isLarge_iff.mpr hlen
    obtain ⟨-, hget⟩ := h.large b List.mem_cons_self hbl
    obtain ⟨held, hheld, hsame⟩ := Option.map_eq_some_iff.mp hget
    have hlt := (List.getElem?_eq_some_iff.mp hheld).1
    rw [Block.largeSize, if_pos hbl] at hlargeLive
    rw [charge_large hlen] at hlive ⊢
    have hlive' : minus a.live b.data.length = .ok (a.live - b.data.length) := minus_ok (by omega)
    have hlargeLive' : minus a.largeLive b.data.length = .ok (a.largeLive - b.data.length) := minus_ok (by omega)
    simp only [index_of_getElem? hheld, hsame, hlive', hlargeLive', update_ok hlt, ok_bind, pure_ok]
    refine ⟨_, rfl, ?_, ⟨List.getElem?_set_self hlt, rfl⟩, h.drop_large hlen hne⟩
    show a.live - b.data.length + b.data.length = a.live
    omega

theorem Kept.relabel (h : Kept a (b :: B)) (hlen : data.length = b.data.length) : Kept a (⟨b.ref, data⟩ :: B) := by
  have hcls : (⟨b.ref, data⟩ : Block).cls = b.cls := congrArg classOf hlen
  have hlarge : (⟨b.ref, data⟩ : Block).isLarge = b.isLarge := congrArg Option.isNone hcls
  constructor
  case shape => exact h.shape
  case small =>
    intro c hc cls hcls'
    cases hc with
    | head => exact h.small b List.mem_cons_self cls (hcls ▸ hcls')
    | tail _ hc => exact h.small c (List.mem_cons_of_mem _ hc) cls hcls'
  case large =>
    intro c hc hcl
    cases hc with
    | head =>
      simp only [hlen]
      exact h.large b List.mem_cons_self (hlarge ▸ hcl)
    | tail _ hc => exact h.large c (List.mem_cons_of_mem _ hc) hcl
  case slots =>
    have hslots := h.slots
    rw [List.filter_cons] at hslots ⊢
    rw [hlarge]
    split
    · next hbl =>
      rw [if_pos hbl] at hslots
      exact hslots
    · next hbl =>
      rw [if_neg hbl] at hslots
      exact hslots
  case holes => exact h.holes
  case reach => exact h.reach
  case live =>
    rw [h.live, List.map_cons, List.map_cons, hlen]
  case largeLive =>
    rw [h.largeLive, List.map_cons, List.map_cons, Block.largeSize, Block.largeSize, hlarge, hlen]

theorem Kept.lengths {T : List (List UInt8)} (h : Kept a B) (hlen : T.length = a.large.length)
    (hT : ∀ j : Nat, (T[j]?).map List.length = (a.large[j]?).map List.length) : Kept { a with large := T } B where
  shape := h.shape.of_segments _ _ _ _ _ _
  small := h.small
  large := fun c hc hcl => by
    obtain ⟨href, hget⟩ := h.large c hc hcl
    exact ⟨href, (hT _).trans hget⟩
  slots := by
    rw [hlen]
    exact h.slots
  holes := h.holes
  reach := by
    rw [hlen]
    exact h.reach
  live := h.live
  largeLive := h.largeLive

theorem Kept.getMut {bytes : List UInt8} (h : Kept a (b :: B)) (hlen : bytes.length = b.data.length)
    (hw : a.getMut b.ref b.data.length (fun _ => .ok bytes) = .ok a') : Kept a' (⟨b.ref, bytes⟩ :: B) := by
  have hkept := h.relabel hlen
  rw [Arena.getMut] at hw
  split at hw
  · next hbl =>
    obtain ⟨block, hblock, hw⟩ := bind_ok_iff.mp hw
    rw [ok_bind] at hw
    obtain ⟨large, hlarge, hw⟩ := bind_ok_iff.mp hw
    cases hw
    obtain ⟨hlt, rfl⟩ := update_eq_ok.mp hlarge
    have hbig : b.isLarge = true := by
      cases hl : b.isLarge with
      | true => rfl
      | false =>
        obtain ⟨cls, hcls, -⟩ := Block.small_cls hl
        rw [h.shape.placed_small (h.small b List.mem_cons_self cls hcls).1] at hbl
        cases hbl
    obtain ⟨-, hget⟩ := h.large b List.mem_cons_self hbig
    refine hkept.lengths List.length_set ?_
    intro j
    by_cases hj : b.ref.index = j
    · rw [← hj, List.getElem?_set_self hlt, hget, Option.map_some, hlen]
    · rw [List.getElem?_set_ne hj]
  · obtain ⟨held, -, hw⟩ := bind_ok_iff.mp hw
    rw [ok_bind] at hw
    obtain ⟨spliced, hsplice, hw⟩ := bind_ok_iff.mp hw
    cases hw
    exact hkept.still (setSegment_still (splice_length hsplice))

theorem Kept.get_length (h : Kept a (⟨r, data⟩ :: B)) {bytes : List UInt8} (hget : a.get r data.length = .ok bytes) :
    bytes.length = data.length := by
  cases hcls : classOf data.length with
  | some cls =>
    have hplaced := (h.small _ List.mem_cons_self cls hcls).1
    rw [get_small (h.shape.placed_small hplaced), read] at hget
    rw [slice_length hget, Nat.add_sub_cancel_left]
  | none =>
    obtain ⟨href, hlen⟩ := h.large _ List.mem_cons_self (Block.isLarge_iff.mpr hcls)
    rw [get_large href] at hget
    rw [index_eq_ok.mp hget] at hlen
    exact Option.some.inj hlen

end kept

/-! ## Runs -/

/-- The blocks with their holders are kept, and beside them those whose `free` was ignored. -/
def Ledger (w : World) : Prop := ∃ ignored : List Block, Kept w.arena (w.live ++ ignored)

theorem ledger_new : Ledger World.new := by
  have h := holds_new
  refine ⟨[], h.shape, ?_, ?_, .refl _, fun i hi => (h.blocks.holes i hi).2, h.blocks.reach, rfl, rfl⟩
  · exact fun b hb => absurd hb List.not_mem_nil
  · exact fun b hb => absurd hb List.not_mem_nil

theorem ledger_step (p : Platform) (w : World) (e : Event) (w' : World) (h : Ledger w) (hs : Step p w e w') :
    Ledger w' := by
  obtain ⟨ignored, hkept⟩ := h
  cases hs with
  | @alloc a a' L len granted r data halloc hget =>
    obtain ⟨-, -, hall⟩ := hkept.alloc halloc
    have hzeros : (List.replicate len (0 : UInt8)).length = len := List.length_replicate
    have hblock := hall _ hzeros
    rw [← hzeros] at hget
    exact ⟨ignored, hall data ((hblock.get_length hget).trans hzeros)⟩
  | @refused a a' L len granted full halloc => exact ⟨ignored, hkept.alloc halloc⟩
  | @free a a' L b hb hfree =>
    have hperm : (L ++ ignored).Perm (b :: (L.erase b ++ ignored)) := (List.perm_cons_erase hb).append_right ignored
    by_cases hnone : b.ref = Ref.NONE
    · rw [Arena.free, if_pos ((Ref.isNone_iff _).mpr hnone)] at hfree
      cases hfree
      exact ⟨b :: ignored, hkept.perm (hperm.trans List.perm_middle.symm)⟩
    · obtain ⟨a'', hfree', -, -, hrest⟩ := (hkept.perm hperm).free hnone
      rw [hfree] at hfree'
      cases hfree'
      exact ⟨ignored, hrest⟩
  | @write a a' L b bytes hb hlen hw =>
    have hperm : (L ++ ignored).Perm (b :: (L.erase b ++ ignored)) := (List.perm_cons_erase hb).append_right ignored
    exact ⟨ignored, (hkept.perm hperm).getMut hlen hw⟩

theorem ledger_run {p : Platform} {w₀ w : World} {tr : List (World × Event × World)} (h₀ : Ledger w₀)
    (h : Run (Step p) w₀ tr w) : Ledger w :=
  (h.steps h₀ (ledger_step p)).1

/-! ## The last slot -/

/-- Giving the reference back takes what it was charged off the total, and leaves the
block to be found again. -/
def Frees (a : Arena) (r : Ref) (len : Nat) : Prop :=
  ∃ a', a.free r len = .ok a' ∧ a'.live + charge len = a.live ∧ Released a' r len

/-- Every oversized reference that can be told from none is with a holder. -/
def Exhausted (w : World) : Prop :=
  ∀ r : Ref, r.isLarge = true → r ≠ Ref.NONE → ∃ b ∈ w.live, b.isLarge = true ∧ b.ref = r

/-- An answer is a reference, which gives its block back however the run goes on; and an
oversized length that no reference is left for is refused. -/
structure Handed (p : Platform) (w : World) (len : Nat) : Prop where
  answers : ∀ granted r a', w.arena.alloc p granted len = .ok (.ok r, a') →
    r ≠ Ref.NONE ∧ a'.live = w.arena.live + charge len ∧
      ∀ data, data.length = len → ∀ tr w', Run (Step p) ⟨a', ⟨r, data⟩ :: w.live⟩ tr w' →
        ∀ bytes, ⟨r, bytes⟩ ∈ w'.live → bytes.length = len → Frees w'.arena r len
  refuses : classOf len = none → Exhausted w → ∀ granted, w.arena.alloc p granted len = .ok (.error .large, w.arena)

section last
variable {p : Platform} {w : World} {tr : List (World × Event × World)} {len : Nat}

/-- Where no reference is left there is no hole, and every slot below the sentinel's is made. -/
theorem Exhausted.full {ignored : List Block} (hex : Exhausted w)
    (h : Kept w.arena (w.live ++ ignored)) : w.arena.largeFree = [] ∧ 2 ^ 31 - 1 ≤ w.arena.large.length := by
  -- every index but the sentinel's is a block's
  have hall : ∀ i < 2 ^ 31 - 1, i ∈ ((w.live ++ ignored).filter Block.isLarge).map (·.ref.index) := by
    intro i hi
    have hbits : (UInt32.ofNat i).toNat = i := UInt32.toNat_ofNat_of_lt' (show i < 2 ^ 32 by omega)
    have hor := or_LARGE (x := UInt32.ofNat i) (by omega)
    rw [hbits] at hor
    have hne : (⟨UInt32.ofNat i ||| LARGE⟩ : Ref) ≠ Ref.NONE := by
      rw [ne_eq, slot_ne (by omega), hbits]
      omega
    obtain ⟨b, hb, hbl, hbr⟩ := hex ⟨UInt32.ofNat i ||| LARGE⟩ ((Ref.isLarge_iff _).mpr (by rw [hor]; omega)) hne
    refine List.mem_map.mpr ⟨b, List.mem_filter.mpr ⟨List.mem_append_left _ hb, hbl⟩, ?_⟩
    show b.ref.index = i
    rw [hbr, Ref.index_eq, hor]
    omega
  have hnodup := h.slots.nodup_iff.mpr List.nodup_range
  constructor
  · rw [List.eq_nil_iff_forall_not_mem]
    intro i hi
    exact (List.nodup_append.mp hnodup).2.2 _ (hall _ (h.holes i hi)) _ (List.mem_map_of_mem hi) rfl
  · by_contra hshort
    have hmem := h.slots.mem_iff.mp (List.mem_append_left _ (hall w.arena.large.length (by omega)))
    exact absurd (List.mem_range.mp hmem) (Nat.lt_irrefl _)

/-- The last slot is to be had: it is one past the end, and there are fewer than 2^31. -/
theorem Spent.answers {a : Arena} (h : Spent a len) (granted : Bool) :
    ∃ r a', a.alloc p granted len = .ok (.ok r, a') := by
  obtain ⟨hlen, hfree, hlast⟩ := h
  have hn : (narrow a.large.length).toNat = a.large.length := by
    rw [narrow, UInt32.toNat_ofNat']
    omega
  have hand : narrow a.large.length &&& LARGE = 0 := (and_LARGE _).mpr (by omega)
  have hmax : ¬ a.large.length > u32Max.toNat := by
    have hu32 : u32Max.toNat = 2 ^ 32 - 1 := rfl
    omega
  have hlt : (narrow a.large.length).toNat < (a.large ++ [[]]).length := by
    rw [hn, List.length_append]
    exact Nat.lt_succ_self _
  rw [alloc, hlen]
  simp only
  rw [allocLarge, largeSlot, hfree]
  simp only [if_neg hmax, hand, ne_eq, not_true_eq_false, if_false, update_ok hlt, ok_bind]
  exact ⟨_, _, rfl⟩

/-- In every state reached, every length is answered with a reference or refused, unless
its slot is the last. -/
theorem handed_iff (p : Platform) {tr : List (World × Event × World)} {w : World}
    (h : Run (Step p) World.new tr w) (len : Nat) : Handed p w len ↔ ¬ Spent w.arena len := by
  obtain ⟨ignored, hkept⟩ := ledger_run ledger_new h
  constructor
  · intro hhanded hspent
    obtain ⟨r, a', halloc⟩ := hspent.answers (p := p) true
    exact (hhanded.answers true r a' halloc).1 ((hkept.alloc halloc).2.1.mpr hspent)
  · intro hspent
    constructor
    · intro granted r a' halloc
      obtain ⟨hlive, hnone, hall⟩ := hkept.alloc halloc
      have hne : r ≠ Ref.NONE := fun heq => hspent (hnone.mp heq)
      refine ⟨hne, hlive, ?_⟩
      rintro data hdata tr w' hrun bytes hmem rfl
      obtain ⟨ignored', hkept'⟩ := ledger_run ⟨ignored, hall data hdata⟩ hrun
      have hperm := (List.perm_cons_erase hmem).append_right ignored'
      obtain ⟨a'', hfree, hback, hreleased, -⟩ := (hkept'.perm hperm).free hne
      exact ⟨a'', hfree, hback, hreleased⟩
    · intro hlen hex granted
      obtain ⟨hholes, hmade⟩ := hex.full hkept
      have hreach := hkept.reach
      -- with no hole left and not the last slot to come, they all are taken
      have hfull : w.arena.large.length = 2 ^ 31 := by
        by_contra hne
        exact hspent ⟨hlen, hholes, by omega⟩
      have hn : (narrow w.arena.large.length).toNat = w.arena.large.length := by
        rw [narrow, UInt32.toNat_ofNat']
        omega
      have hand : narrow w.arena.large.length &&& LARGE ≠ 0 := by
        intro hzero
        have hlt := (and_LARGE _).mp hzero
        omega
      rw [alloc, hlen]
      simp only
      rw [allocLarge, largeSlot, hholes]
      simp only [hand, ne_eq, not_false_eq_true, if_true, ite_self]
      rfl

end last

/-- Its hypothesis at a run of one block. -/
theorem handed_filled : ∃ data, Handed pages ⟨filled 1, [⟨make 0 0, data⟩]⟩ 2049 := by
  have hnew : Inv World.new := ⟨[], 0, holds_new⟩
  obtain ⟨-, data, -, hstep, -⟩ := hnew.alloc_step filled_first
  refine ⟨data, (handed_iff pages (Run.nil.snoc hstep) 2049).mpr ?_⟩
  rintro ⟨-, -, hlast⟩
  have hnone : (filled 1).large.length = 0 := rfl
  rw [hnone] at hlast
  exact absurd hlast (by decide)

/-! A run that reaches the last slot: an empty block is oversized, costs its slot and
nothing else, and 2^31 - 1 of them leave the sentinel's. -/

/-- `n` empty blocks. -/
def empties (n : Nat) : Arena := { Arena.new with large := List.replicate n [] }

theorem empties_step (p : Platform) (granted : Bool) {n : Nat} (hn : n < 2 ^ 31) :
    (empties n).alloc p granted 0 = .ok (.ok ⟨narrow n ||| LARGE⟩, empties (n + 1)) := by
  have hlen : (empties n).large.length = n := List.length_replicate
  have hnarrow : (narrow n).toNat = n := by
    rw [narrow, UInt32.toNat_ofNat']
    omega
  have hand : narrow n &&& LARGE = 0 := (and_LARGE _).mpr (by omega)
  have hmax : ¬ n > u32Max.toNat := by
    have hu32 : u32Max.toNat = 2 ^ 32 - 1 := rfl
    omega
  have hslot : (empties n).largeSlot = .ok (narrow n, empties (n + 1)) := by
    have hfree : (empties n).largeFree = [] := rfl
    rw [largeSlot, hfree]
    simp only [hlen, if_neg hmax, hand, ne_eq, not_true_eq_false, if_false]
    unfold empties
    rw [List.replicate_succ']
    rfl
  have hupdate : update (empties (n + 1)).large n (List.replicate 0 0) = .ok (empties (n + 1)).large := by
    have hlt : n < (List.replicate (n + 1) ([] : List UInt8)).length := by
      rw [List.length_replicate]
      exact Nat.lt_succ_self n
    have hset : (List.replicate (n + 1) ([] : List UInt8)).set n [] = List.replicate (n + 1) [] := by
      rw [List.replicate_succ', List.set_append_right _ _ (by rw [List.length_replicate])]
      simp
    show update (List.replicate (n + 1) []) n [] = .ok (List.replicate (n + 1) [])
    rw [update_ok hlt, hset]
  rw [alloc, show classOf 0 = none from rfl]
  simp only
  rw [allocLarge, hslot]
  simp only
  rw [hnarrow, hupdate]
  rfl

theorem empties_run {n : Nat} (hn : n < 2 ^ 31) : ∃ tr L, Run (Step pages) World.new tr ⟨empties n, L⟩ := by
  induction n with
  | zero => exact ⟨_, _, .nil⟩
  | succ n ih =>
    obtain ⟨tr, L, hrun⟩ := ih (by omega)
    have hget : (empties (n + 1)).get ⟨narrow n ||| LARGE⟩ 0 = .ok [] := by
      have hnarrow : (narrow n).toNat = n := by
        rw [narrow, UInt32.toNat_ofNat']
        omega
      have hor := or_LARGE (x := narrow n) (by omega)
      rw [hnarrow] at hor
      rw [get_large ((Ref.isLarge_iff _).mpr (by rw [hor]; omega)), Ref.index_eq, hor]
      apply index_of_getElem?
      exact List.getElem?_replicate_of_lt (by omega)
    exact ⟨_, _, hrun.snoc (.alloc (empties_step pages true (by omega)) hget)⟩

/-- The sentinel is handed out, and the bytes charged for it stay charged. -/
theorem sentinel_handed : ∃ tr L a', Run (Step pages) World.new tr ⟨empties (2 ^ 31 - 1), L⟩ ∧
    (empties (2 ^ 31 - 1)).alloc pages true 2049 = .ok (.ok Ref.NONE, a') ∧ a'.live = 2049 ∧
    a'.free Ref.NONE 2049 = .ok a' ∧ ¬ Handed pages ⟨empties (2 ^ 31 - 1), L⟩ 2049 := by
  obtain ⟨tr, L, hrun⟩ := empties_run (n := 2 ^ 31 - 1) (by omega)
  have hspent : Spent (empties (2 ^ 31 - 1)) 2049 := ⟨rfl, rfl, List.length_replicate⟩
  obtain ⟨ignored, hkept⟩ := ledger_run ledger_new hrun
  obtain ⟨r, a', halloc⟩ := hspent.answers (p := pages) true
  obtain ⟨hlive, hnone, -⟩ := hkept.alloc halloc
  rw [hnone.mpr hspent] at halloc
  refine ⟨tr, L, a', hrun, halloc, hlive, rfl, ?_⟩
  intro hhanded
  exact (hhanded.answers true _ a' halloc).1 rfl

end Rugo.Arena
