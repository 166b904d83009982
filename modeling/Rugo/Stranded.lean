import Rugo.Represents

/- What comes of a stranded tail. 511 entries of 2048 bytes and one of 2040 fill the first
   megabyte but for two units; they are cleared, and an entry of 2044 bytes is refused the
   second segment. Those two units are now the first block on the free list of their class and
   also the uncut part of the segment, so the next two entries of 8 bytes get the same bytes;
   and when the second is removed, the slot of the first leads to a free block.

     1. `Tip`: the end of a segment that is all but full, and what each operation of
        the arena does to it.
     2. `full`: the table that is cleared, at two units from the end.
     3. `torn`: the table with a slot that leads to a free block. To read it, to evict from it
        and to sweep it runs past the end of a segment. -/
namespace Rugo
open Exec Words Runs Probing

/-! ## The end of a segment -/

theorem slice_append (pre w : List UInt8) (i j : Nat) :
    slice (pre ++ w) (pre.length + i) (pre.length + j) = slice w i j := by
  unfold slice
  rw [List.length_append, List.drop_append, List.drop_of_length_le (Nat.le_add_right ..), List.nil_append,
    Nat.add_sub_cancel_left, Nat.add_sub_add_left]
  simp only [Nat.add_le_add_iff_left]

theorem splice_append {pre w w' bs : List UInt8} {i : Nat} (h : splice w i bs = .ok w') :
    splice (pre ++ w) (pre.length + i) bs = .ok (pre ++ w') := by
  obtain ⟨hi, rfl⟩ := splice_eq_ok.mp h
  rw [splice_ok (by rw [List.length_append]; omega), List.take_append, List.drop_append,
    List.take_of_length_le (Nat.le_add_right ..), List.drop_of_length_le (by omega), Nat.add_sub_cancel_left,
    Nat.add_assoc, Nat.add_sub_cancel_left]
  simp

namespace Arena
variable {a a' : Arena} {w w' : List UInt8} {link off : UInt32} {live dead : Nat}

/-- The last two units of the first segment. -/
def verge : Ref := ⟨262142⟩

/-- An arena of one megabyte, by what stands in its last eight bytes, the first of the blocks of
eight that are free, where it cuts next, and bytes that at least are live and dead. -/
structure Tip (a : Arena) (w : List UInt8) (link off : UInt32) (live dead : Nat) : Prop where
  made : a.made = 1
  seg : a.seg = 0
  off : a.off = off
  bytes : ∃ pre, a.segment 0 = pre ++ w ∧ pre.length = 1048568
  eight : w.length = 8
  link : a.heads[1]? = some link
  live : live ≤ a.live
  dead : dead ≤ a.dead

theorem verge_place : place verge = (0, 1048568) := by decide

theorem Tip.length (h : Tip a w link off live dead) : (a.segment 0).length = 1048576 := by
  obtain ⟨pre, hseg, hpre⟩ := h.bytes
  rw [hseg, List.length_append, hpre, h.eight]

theorem Tip.slice (h : Tip a w link off live dead) (i j : Nat) :
    Exec.slice (a.segment 0) (1048568 + i) (1048568 + j) = Exec.slice w i j := by
  obtain ⟨pre, hseg, hpre⟩ := h.bytes
  rw [hseg, ← hpre]
  exact slice_append pre w i j

theorem Tip.get (h : Tip a w link off live dead) (n : Nat) : a.get verge n = Exec.slice w 0 n := by
  rw [Arena.get, if_neg (by decide), verge_place]
  exact h.slice 0 n

theorem Tip.peek (h : Tip a w link off live dead) {n : Nat} (hn : 8 ≤ n) : a.peek verge n = .ok w := by
  rw [Arena.peek, if_neg (by decide), verge_place]
  simp only
  rw [h.length, show min (1048568 + n) 1048576 = 1048568 + 8 by omega]
  refine (h.slice 0 8).trans ?_
  rw [← h.eight, slice_all]

theorem Tip.nextFree (h : Tip a w link off live dead) : a.nextFree verge = .ok (u32OfBytes (w.take 4)) := by
  rw [Arena.nextFree, verge_place]
  simp only
  rw [show Exec.slice (a.segment 0) 1048568 (1048568 + 4) = _ from h.slice 0 4,
    slice_ok (Nat.zero_le _) (by rw [h.eight]; decide)]
  rfl

theorem Tip.splice (h : Tip a w link off live dead) {bs : List UInt8} (hw : Exec.splice w 0 bs = .ok w') :
    ∃ bytes, Exec.splice (a.segment 0) 1048568 bs = .ok bytes ∧
      Tip (a.setSegment 0 bytes) w' link off live dead := by
  obtain ⟨pre, hseg, hpre⟩ := h.bytes
  have hbytes := @splice_append pre _ _ _ _ hw
  rw [← hseg, hpre] at hbytes
  refine ⟨_, hbytes, ⟨?_, ?_, ?_, ⟨pre, ?_, hpre⟩, ?_, ?_, ?_, ?_⟩⟩
  · rw [setSegment_made, h.made]
  · rw [setSegment_seg, h.seg]
  · rw [setSegment_off, h.off]
  · rw [segment_setSegment _ _ _ (splice_length hbytes), if_pos rfl]
  · rw [splice_length hw, h.eight]
  · rw [setSegment_heads, h.link]
  · rw [setSegment_live]
    exact h.live
  · rw [setSegment_dead]
    exact h.dead

theorem Tip.getMut (h : Tip a w link off live dead) (edit : List UInt8 → Exec (List UInt8)) (hlen : w'.length = 8)
    (hedit : edit w = .ok w') : ∃ a', a.getMut verge 8 edit = .ok a' ∧ Tip a' w' link off live dead := by
  have hw : Exec.splice w 0 w' = .ok w' := by
    rw [splice_ok (by rw [h.eight, hlen]), List.drop_of_length_le (by rw [h.eight, hlen])]
    simp
  obtain ⟨bytes, hsplice, htip⟩ := h.splice hw
  refine ⟨_, ?_, htip⟩
  have hall : Exec.slice w 0 8 = .ok w := by
    rw [← h.eight, slice_all]
  rw [Arena.getMut, if_neg (by decide), verge_place]
  simp only
  rw [show Exec.slice (a.segment 0) 1048568 (1048568 + 8) = _ from h.slice 0 8, hall, ok_bind, hedit, ok_bind, hsplice]
  rfl

theorem Tip.pushFree (h : Tip a w link off live dead) :
    ∃ a', a.pushFree verge 8 = .ok a' ∧ Tip a' (u32Bytes link ++ w.drop 4) 262142 off live (dead + 8) ∧
      a'.live = a.live := by
  have hw : Exec.splice w 0 (u32Bytes link) = .ok (u32Bytes link ++ w.drop 4) := by
    rw [splice_ok (by rw [u32Bytes_length, h.eight]; decide), u32Bytes_length]
    rfl
  have hdead : Tip { a with dead := a.dead + 8 } w link off live (dead + 8) :=
    { h with bytes := h.bytes, dead := Nat.add_le_add_right h.dead 8 }
  obtain ⟨bytes, hsplice, htip⟩ := hdead.splice hw
  have hset : { a with dead := a.dead + 8 }.setNextFree verge link =
      .ok ({ a with dead := a.dead + 8 }.setSegment 0 bytes) := by
    rw [setNextFree, verge_place]
    simp only
    rw [hsplice]
    rfl
  have hlt := (List.getElem?_eq_some_iff.mp htip.link).1
  rw [Arena.pushFree, show minus (8 / grain) 1 = .ok 1 from rfl, ok_bind, index_of_getElem? h.link, ok_bind, hset,
    ok_bind, update_ok hlt, ok_bind]
  refine ⟨_, rfl, { htip with bytes := htip.bytes, link := List.getElem?_set_self hlt }, ?_⟩
  rw [setSegment_live]

theorem Tip.free (h : Tip a w link off (live + 8) dead) {len : Nat} (hlen : classOf len = some 1) :
    ∃ a', a.free verge len = .ok a' ∧ Tip a' (u32Bytes link ++ w.drop 4) 262142 off live (dead + 8) := by
  have hlive := h.live
  have hless : Tip { a with live := a.live - 8 } w link off live dead :=
    { h with bytes := h.bytes, live := Nat.le_sub_of_add_le hlive }
  obtain ⟨a', hpush, htip, -⟩ := hless.pushFree
  refine ⟨a', ?_, htip⟩
  rw [Arena.free, if_neg (by decide), hlen]
  simp only [show (1 + 1) * grain = 8 from rfl]
  rw [minus_ok (by omega), ok_bind]
  exact hpush

theorem Tip.takes (h : Tip a w 262142 off live (dead + 8)) (p : Platform) (granted : Bool) {len : Nat}
    (hlen : classOf len = some 1) : ∃ a', a.alloc p granted len = .ok (.ok verge, a') ∧
      Tip a' w (u32OfBytes (w.take 4)) off (live + 8) dead := by
  have hdead := h.dead
  have hlt := (List.getElem?_eq_some_iff.mp h.link).1
  have hreach : a.reach 1 = a := if_neg (by omega)
  rw [alloc, hlen]
  simp only [hreach, index_of_getElem? h.link, ok_bind]
  rw [if_pos (by decide), takeFree, show a.nextFree ⟨262142⟩ = _ from h.nextFree, ok_bind, update_ok hlt, ok_bind,
    show (1 + 1) * grain = 8 from rfl, minus_ok (by omega), ok_bind]
  refine ⟨_, rfl, { h with bytes := h.bytes, link := List.getElem?_set_self hlt, live := ?_, dead := ?_ }⟩
  · exact Nat.add_le_add_right h.live 8
  · show dead ≤ a.dead - 8
    omega

theorem Tip.room (h : Tip a w link 262142 live dead) : a.room = .ok 2 := by
  have hoff : a.off.toNat = 262142 := by
    rw [h.off]
    rfl
  have hroom := room_first h.seg h.length (by omega)
  rw [hoff] at hroom
  exact hroom

theorem Tip.cuts (h : Tip a w u32Max 262142 live dead) (p : Platform) (granted : Bool) {len : Nat}
    (hlen : classOf len = some 1) : ∃ a', a.alloc p granted len = .ok (.ok verge, a') ∧
      Tip a' w u32Max 262144 (live + 8) dead := by
  rw [alloc_cut p granted hlen h.link h.room (by decide), bump, h.seg, h.off]
  exact ⟨_, rfl, { h with bytes := h.bytes, seg := rfl, off := rfl, live := Nat.add_le_add_right h.live 8 }⟩

/-- The refusal: the last two units are put on a free list, and are still to be cut. -/
theorem Tip.strands (h : Tip a w u32Max 262142 live dead) (hhead : a.heads[510]? = some u32Max) :
    ∃ a', a.alloc pages false 2044 = .ok (.error .memory, a') ∧
      Tip a' (u32Bytes u32Max ++ w.drop 4) 262142 262142 live (dead + 8) := by
  obtain ⟨a', hpush, htip, -⟩ := h.pushFree
  refine ⟨a', ?_, htip⟩
  have hlt := (List.getElem?_eq_some_iff.mp hhead).1
  have hreach : a.reach 510 = a := if_neg (by omega)
  have hverge : make a.seg a.off = verge := by
    rw [h.seg, h.off]
    rfl
  have hgrow : a'.grow pages false = .error .memory := by
    rw [grow, if_neg (by rw [htip.made]; decide)]
    rfl
  rw [alloc, show classOf 2044 = some 510 from rfl]
  simp only [hreach, index_of_getElem? hhead, ok_bind, ne_eq, not_true_eq_false, if_false]
  rw [cut, h.room, ok_bind, if_pos (by decide), abandon, if_pos (by decide), hverge,
    show a.pushFree verge (2 * grain) = _ from hpush, ok_bind, cutGrown, hgrow]
  rfl

/-! ## Filling a segment -/

/-- The first segment, with so many units cut from it, and no block free. -/
structure Filling (a : Arena) (units : Nat) : Prop where
  made : a.made = 1
  seg : a.seg = 0
  off : a.off = narrow units
  length : (a.segment 0).length = 1048576
  heads : a.heads = List.replicate 512 u32Max

theorem filling_first : Filling (filled 1) 512 where
  made := rfl
  seg := rfl
  off := rfl
  length := by rw [filled_segment, List.length_replicate]
  heads := rfl

theorem Filling.room {units : Nat} (h : Filling a units) (hunits : units ≤ 262144) :
    a.room = .ok (262144 - units) := by
  have hoff : a.off.toNat = units := by
    rw [h.off, narrow, UInt32.toNat_ofNat']
    omega
  rw [← hoff]
  exact room_first h.seg h.length (by omega)

theorem Filling.cut {units len cls : Nat} (h : Filling a units) (hlen : classOf len = some cls)
    (hroom : units + (cls + 1) ≤ 262144) :
    ∃ r a', a.alloc pages true len = .ok (.ok r, a') ∧ Filling a' (units + (cls + 1)) := by
  have hclass := classOf_some hlen
  have hhead : a.heads[cls]? = some u32Max := by
    rw [h.heads]
    exact List.getElem?_replicate_of_lt (by omega)
  rw [alloc_cut pages true hlen hhead (h.room (by omega)) (by omega)]
  refine ⟨_, _, rfl, h.made, h.seg, ?_, h.length, h.heads⟩
  show a.off + narrow ((cls + 1) * grain / grain) = narrow (units + (cls + 1))
  rw [h.off, Nat.mul_div_cancel _ (by decide), narrow, narrow, narrow, ← UInt32.ofNat_add]

theorem Filling.getMut {units len : Nat} (h : Filling a units) {r : Ref} {edit : List UInt8 → Exec (List UInt8)}
    (hmut : a.getMut r len edit = .ok a') : Filling a' units := by
  rw [Arena.getMut] at hmut
  split at hmut
  · obtain ⟨block, -, hmut⟩ := bind_ok_iff.mp hmut
    obtain ⟨edited, -, hmut⟩ := bind_ok_iff.mp hmut
    obtain ⟨large, -, hmut⟩ := bind_ok_iff.mp hmut
    cases hmut
    exact { h with length := h.length }
  · obtain ⟨bytes, -, hmut⟩ := bind_ok_iff.mp hmut
    obtain ⟨edited, -, hmut⟩ := bind_ok_iff.mp hmut
    obtain ⟨spliced, hsplice, hmut⟩ := bind_ok_iff.mp hmut
    cases hmut
    have hlen := splice_length hsplice
    refine ⟨?_, ?_, ?_, ?_, ?_⟩
    · rw [setSegment_made, h.made]
    · rw [setSegment_seg, h.seg]
    · rw [setSegment_off, h.off]
    · rw [segment_setSegment _ _ _ hlen]
      split
      · next hseg => rw [hlen, ← hseg, h.length]
      · exact h.length
    · rw [setSegment_heads, h.heads]

/-- Filled but for two units, with none free of the classes that matter. -/
structure Brim (a : Arena) : Prop where
  made : a.made = 1
  seg : a.seg = 0
  off : a.off = 262142
  length : (a.segment 0).length = 1048576
  eight : a.heads[1]? = some u32Max
  large : a.heads[510]? = some u32Max

theorem Filling.brim (h : Filling a 262142) : Brim a where
  made := h.made
  seg := h.seg
  off := h.off
  length := h.length
  eight := by rw [h.heads]; exact List.getElem?_replicate_of_lt (by omega)
  large := by rw [h.heads]; exact List.getElem?_replicate_of_lt (by omega)

theorem Brim.tip (h : Brim a) : ∃ w, Tip a w u32Max 262142 0 0 := by
  have hlen := h.length
  refine ⟨(a.segment 0).drop 1048568, h.made, h.seg, h.off, ⟨(a.segment 0).take 1048568, ?_, ?_⟩, ?_, h.eight,
    Nat.zero_le _, Nat.zero_le _⟩
  · rw [List.take_append_drop]
  · rw [List.length_take, hlen]
    rfl
  · rw [List.length_drop, hlen]

theorem Brim.free (h : Brim a) {r : Ref} {len cls : Nat} (hlen : classOf len = some cls) (h8 : cls ≠ 1)
    (hlarge : cls ≠ 510) (hfree : a.free r len = .ok a') : Brim a' := by
  rw [Arena.free, hlen] at hfree
  split at hfree
  · cases hfree
    exact h
  simp only at hfree
  obtain ⟨live, -, hfree⟩ := bind_ok_iff.mp hfree
  rw [Arena.pushFree, show (cls + 1) * grain / grain = cls + 1 from Nat.mul_div_cancel _ (by decide),
    minus_ok (Nat.le_add_left 1 cls), Nat.add_sub_cancel, ok_bind] at hfree
  obtain ⟨head, -, hfree⟩ := bind_ok_iff.mp hfree
  obtain ⟨a₁, hset, hfree⟩ := bind_ok_iff.mp hfree
  obtain ⟨heads, hheads, hfree⟩ := bind_ok_iff.mp hfree
  rw [setNextFree] at hset
  obtain ⟨bytes, hsplice, hset⟩ := bind_ok_iff.mp hset
  cases hset
  cases hfree
  obtain ⟨-, rfl⟩ := update_eq_ok.mp hheads
  -- a link is written into the block, and no list of the two gets it
  have hsame := splice_length hsplice
  refine ⟨?_, ?_, ?_, ?_, ?_, ?_⟩
  · exact (setSegment_made ..).trans h.made
  · exact (setSegment_seg ..).trans h.seg
  · exact (setSegment_off ..).trans h.off
  · refine (congrArg List.length (segment_setSegment _ _ _ hsame 0)).trans ?_
    split
    · next hseg =>
      rw [hsame, ← hseg]
      exact h.length
    · exact h.length
  · show (List.set _ cls _)[1]? = _
    rw [List.getElem?_set_ne h8, setSegment_heads]
    exact h.eight
  · show (List.set _ cls _)[510]? = _
    rw [List.getElem?_set_ne hlarge, setSegment_heads]
    exact h.large

end Arena

namespace Table
variable {t t' : Table} {a : Arena} {w : List UInt8} {link off : UInt32} {live dead : Nat}

/-- A table of one group: its control bytes, its slots, and how many it counts of each kind. -/
def grouped (ctrl : List UInt8) (slots : List UInt32) (len timed growthLeft : Nat) (arena : Arena) : Table :=
  ⟨ctrl ++ List.replicate (16 - ctrl.length) Ctrl.empty,
    slots ++ List.replicate (16 - slots.length) Ref.NONE.bits, arena, len, 0, timed, growthLeft, 0⟩

def bare : Arena → Table := grouped [] [] 0 0 14

def one : Arena → Table := grouped [60] [262142] 1 1 13

def two : Arena → Table := grouped [60, 59] [262142, 262142] 2 1 12

theorem groups_one (hslots : t.slots.length = 16) : t.groups .sse2 = 1 := by
  rw [groups, hslots]
  rfl

theorem find_group (hslots : t.slots.length = 16) (hctrl : t.ctrl.length = 16) (key : List UInt8) {hash : UInt64}
    {tag : UInt8} (htag : Ctrl.tagOf hash = tag) :
    t.find .sse2 key hash = t.matchKey key 0 (Imp.sse2.lanes (Imp.sse2.matchByte t.ctrl tag)) >>= fun found =>
      match found with
      | some hit => pure (some hit)
      | none => if Imp.any (Imp.sse2.matchEmpty t.ctrl) then pure none else .error .spin := by
  have hgroup : t.groupAt .sse2 (0 * Imp.sse2.width) = .ok t.ctrl := by
    rw [groupAt, show Imp.sse2.width = 16 from rfl, Nat.zero_mul, Nat.zero_add, ← hctrl, slice_all]
  have hsome : ¬ t.slots.isEmpty = true := by
    intro h
    rw [List.isEmpty_iff.mp h] at hslots
    cases hslots
  rw [find, if_neg hsome, groups_one hslots, show minus 1 1 = .ok 0 from rfl, ok_bind, htag, groupOf, Nat.and_zero,
    findLoop, hgroup, ok_bind, Nat.zero_mul]
  rfl

theorem tags : Ctrl.tagOf (Hash.hash [7] 0) = 60 ∧ Ctrl.tagOf (Hash.hash [8] 0) = 59 ∧
    Ctrl.tagOf (Hash.hash [9] 0) = 42 := by
  decide +kernel

theorem bare_find (a : Arena) : (bare a).find .sse2 [7] (Hash.hash [7] 0) = .ok none := by
  rw [find_group rfl rfl [7] tags.1]
  rfl

theorem bare_free (a : Arena) (hash : UInt64) : (bare a).freeSlot .sse2 hash = .ok 0 := by
  rw [freeSlot, groups_one rfl, show minus 1 1 = .ok 0 from rfl, ok_bind, groupOf, Nat.and_zero]
  show walkTo .sse2 Imp.sse2.matchFree (List.replicate 16 Ctrl.empty) 0 1 0 1 = .ok 0
  decide

theorem one_find (a : Arena) : (one a).find .sse2 [8] (Hash.hash [8] 0) = .ok none := by
  rw [find_group rfl rfl [8] tags.2.1]
  rfl

theorem one_free (a : Arena) (hash : UInt64) : (one a).freeSlot .sse2 hash = .ok 1 := by
  rw [freeSlot, groups_one rfl, show minus 1 1 = .ok 0 from rfl, ok_bind, groupOf, Nat.and_zero]
  show walkTo .sse2 Imp.sse2.matchFree (60 :: List.replicate 15 Ctrl.empty) 0 1 0 1 = .ok 1
  decide

theorem bare_find_large (a : Arena) : (bare a).find .sse2 [9] (Hash.hash [9] 0) = .ok none := by
  rw [find_group rfl rfl [9] tags.2.2]
  rfl

def lapsing : Entry.View := ⟨[7], [1], some 9, none⟩

/-- The entry that is written over it: 128 in each byte that a link does not reach. -/
def covering : Entry.View := ⟨[8], [0, 128, 128, 128, 128], none, none⟩

theorem store_verge {p : Platform} {granted : Bool} {v : Entry.View}
    (halloc : t.arena.alloc p granted 8 = .ok (.ok Arena.verge, a)) (htip : Arena.Tip a w link off live dead)
    (hshort : Entry.Short v) (hsize : v.size = 8) :
    ∃ a', t.store p granted 8 v.key v.value v.expiry v.userFlags =
        .ok (.ok Arena.verge, { t with arena := a' }) ∧ Arena.Tip a' (Entry.encode v) link off live dead := by
  have hlen : (Entry.encode v).length = 8 := (Entry.encode_length hshort).trans hsize
  obtain ⟨a', hmut, htip'⟩ := htip.getMut
    (fun into => Entry.write into v.key v.value v.expiry v.userFlags) hlen
    (Entry.write_eq hshort (htip.eight.trans hsize.symm))
  refine ⟨a', ?_, htip'⟩
  rw [store, halloc, ok_bind]
  simp only
  rw [hmut]
  rfl

theorem set_stored {imp : Imp} {p : Platform} {granted : Bool} {v : Entry.View} {hash : UInt64} {new : Ref}
    {at_ : Nat} (hfind : t.find imp v.key hash = .ok none) (hroom : 0 < t.growthLeft)
    (hstore : t.store p granted v.size v.key v.value v.expiry v.userFlags = .ok (.ok new, t'))
    (hfree : t'.freeSlot imp hash = .ok at_) (hempty : t'.ctrl[at_]? = some Ctrl.empty) (hslot : at_ < t'.slots.length)
    (hleft : 0 < t'.growthLeft) :
    t.set imp p granted v.key v.value hash v.expiry v.userFlags = .ok (.ok .inserted,
      { t' with
        ctrl := t'.ctrl.set at_ (Ctrl.tagOf hash)
        slots := t'.slots.set at_ new.bits
        len := t'.len + 1
        growthLeft := t'.growthLeft - 1
        timed := t'.timed + v.expiry.isSome.toNat }) := by
  have hlt := (List.getElem?_eq_some_iff.mp hempty).1
  have hoccupy : t'.occupy at_ = .ok { t' with growthLeft := t'.growthLeft - 1 } := by
    rw [occupy, index_of_getElem? hempty, ok_bind, if_neg (by decide), minus_ok hleft, ok_bind]
    rfl
  rw [Entry.View.size] at hstore
  rw [Table.set, hfind, ok_bind]
  simp only
  rw [insert, ensure, if_neg (Nat.ne_of_gt hroom), pure_ok, ok_bind, hstore, ok_bind]
  simp only
  rw [hfree, ok_bind, hoccupy, ok_bind, update_ok hlt, ok_bind, update_ok hslot, ok_bind]
  cases v.expiry <;> rfl

/-- The first entry takes the block from its free list. -/
theorem bare_set (h : Arena.Tip a w 262142 262142 live (dead + 8)) (hlink : u32OfBytes (w.take 4) = u32Max) :
    ∃ a', (bare a).set .sse2 Arena.pages true [7] [1] (Hash.hash [7] 0) (some 9) none =
        .ok (.ok .inserted, one a') ∧ Arena.Tip a' (Entry.encode lapsing) u32Max 262142 (live + 8) dead := by
  obtain ⟨a₁, halloc, htip⟩ := h.takes Arena.pages true (show Arena.classOf 8 = some 1 from rfl)
  rw [hlink] at htip
  obtain ⟨a', hstore, htip'⟩ := store_verge (t := bare a) (v := lapsing) halloc htip ⟨by decide, by decide⟩ rfl
  refine ⟨a', ?_, htip'⟩
  refine (set_stored (v := lapsing) (bare_find a) (Nat.succ_pos 13) hstore (bare_free a' _) rfl (Nat.succ_pos 15)
    (Nat.succ_pos 13)).trans ?_
  rw [tags.1]
  rfl

/-- The second is cut, where the first is. -/
theorem one_set (h : Arena.Tip a w u32Max 262142 live dead) :
    ∃ a', (one a).set .sse2 Arena.pages true [8] covering.value (Hash.hash [8] 0) none none =
        .ok (.ok .inserted, two a') ∧ Arena.Tip a' (Entry.encode covering) u32Max 262144 (live + 8) dead := by
  obtain ⟨a₁, halloc, htip⟩ := h.cuts Arena.pages true (show Arena.classOf 8 = some 1 from rfl)
  obtain ⟨a', hstore, htip'⟩ := store_verge (t := one a) (v := covering) halloc htip ⟨by decide, by decide⟩ rfl
  refine ⟨a', ?_, htip'⟩
  refine (set_stored (v := covering) (one_find a) (Nat.succ_pos 12) hstore (one_free a' _) rfl
    (Nat.succ_lt_succ (Nat.succ_pos 14)) (Nat.succ_pos 12)).trans ?_
  rw [tags.2.1]
  rfl

/-- An entry too large for what is left, and no second segment: nothing is stored. -/
theorem bare_refused (h : Arena.Tip a w u32Max 262142 live dead) (hhead : a.heads[510]? = some u32Max) :
    ∃ a', (bare a).set .sse2 Arena.pages false [9] (List.replicate 2040 0) (Hash.hash [9] 0) none none =
        .ok (.error .memory, bare a') ∧ Arena.Tip a' (u32Bytes u32Max ++ w.drop 4) 262142 262142 live (dead + 8) := by
  obtain ⟨a', halloc, htip⟩ := h.strands hhead
  refine ⟨a', ?_, htip⟩
  have hsize : Entry.sizeOfEntry ([9] : List UInt8).length 2040 (none : Option UInt32).isSome
      (none : Option UInt32).isSome = 2044 := by
    decide
  rw [Table.set, bare_find_large, ok_bind]
  simp only
  rw [insert, ensure, if_neg (show ¬ (bare a).growthLeft = 0 from Nat.succ_ne_zero 13), pure_ok, ok_bind, store,
    List.length_replicate, hsize,
    show (bare a).arena.alloc Arena.pages false 2044 = _ from halloc]
  rfl

theorem headAt_verge (h : Arena.Tip t.arena w link off live dead) : t.headAt Arena.verge = Entry.head w := by
  rw [headAt, h.peek (by decide), ok_bind]

theorem entryAt_verge (h : Arena.Tip t.arena w link off live dead) {head : Entry.Head} (hhead : Entry.head w = .ok head)
    (hsize : head.size = 8) : t.entryAt Arena.verge = .ok (head, w) := by
  rw [entryAt, headAt_verge h, hhead, ok_bind, h.get, hsize, ← h.eight, slice_all]
  rfl

/-- The second entry is removed, and its block, which is the first one's, given back. -/
theorem two_remove (h : Arena.Tip a (Entry.encode covering) u32Max off (live + 8) dead) :
    ∃ a', (two a).remove .sse2 [8] (Hash.hash [8] 0) = .ok (true, one a') ∧
      Arena.Tip a' [255, 255, 255, 255, 128, 128, 128, 128] 262142 off live (dead + 8) := by
  have hbytes : Entry.encode covering = [8, 5, 8, 0, 128, 128, 128, 128] := by
    rw [Entry.encode, Entry.header, Entry.putVarint_small (show covering.value.length < 128 by decide)]
    rfl
  rw [hbytes] at h
  have hhead : Entry.head [8, 5, 8, 0, 128, 128, 128, 128] = .ok ⟨8, 2, 1, 5⟩ := rfl
  obtain ⟨a', hfree, htip⟩ := h.free (show Arena.classOf 8 = some 1 from rfl)
  refine ⟨a', ?_, htip⟩
  have hfind : (two a).find .sse2 [8] (Hash.hash [8] 0) = .ok (some (1, ⟨8, 2, 1, 5⟩)) := by
    rw [find_group rfl rfl [8] tags.2.1]
    have hmatch : (two a).matchKey [8] 0 [1] = .ok (some (1, ⟨8, 2, 1, 5⟩)) := by
      rw [matchKey, show index (two a).slots (0 + 1) = .ok 262142 from rfl, ok_bind,
        show (two a).entryAt ⟨262142⟩ = _ from entryAt_verge (t := two a) h hhead rfl, ok_bind]
      rfl
    have hlanes : Imp.sse2.lanes (Imp.sse2.matchByte (two a).ctrl 59) = [1] := by
      show Imp.sse2.lanes (Imp.sse2.matchByte (60 :: 59 :: List.replicate 14 Ctrl.empty) 59) = [1]
      decide
    rw [hlanes, hmatch, ok_bind]
    rfl
  rw [Table.remove, hfind, ok_bind]
  simp only
  rw [erase, show index (two a).slots 1 = .ok 262142 from rfl, ok_bind,
    show (two a).headAt ⟨262142⟩ = _ from headAt_verge (t := two a) h, hhead, ok_bind,
    show (two a).vacate .sse2 1 = .ok { one a with slots := (two a).slots, len := 2 } from rfl, ok_bind,
    show update (two a).slots 1 Ref.NONE.bits = .ok (one a).slots from rfl, ok_bind]
  simp only
  rw [show (one a).arena.free ⟨262142⟩ (Entry.Head.size ⟨8, 2, 1, 5⟩) = _ from hfree]
  rfl

/-! ## A slot that leads to a free block -/

/-- What is read where the first entry was. -/
theorem head_torn : Entry.head [255, 255, 255, 255, 128, 128, 128, 128] = .error .bounds := rfl

section torn
variable (h : Arena.Tip a [255, 255, 255, 255, 128, 128, 128, 128] link off live dead)
include h

theorem torn_head : (one a).headAt ⟨262142⟩ = .error .bounds :=
  (headAt_verge (t := one a) h).trans head_torn

theorem torn_evict : (one a).evictOne .sse2 0 none = .error .bounds := by
  have hfirst : (one a).nearestFull (spot (mix 0) 16) none = .ok (some 0) := by
    rw [show spot (mix 0) 16 = 0 by decide]
    rfl
  have hsecond : (one a).nearestFull (spot (mix (mix 0)) 16) none = .ok (some 0) := by
    rw [show spot (mix (mix 0)) 16 = 0 by decide]
    rfl
  rw [evictOne, if_neg (show ¬ (one a).len = 0 from Nat.one_ne_zero), show (one a).slots.length = 16 from rfl]
  simp only
  rw [hfirst, ok_bind, hsecond, ok_bind]
  simp only
  rw [deadline, show index (one a).slots 0 = .ok 262142 from rfl, ok_bind, torn_head h]
  rfl

end torn

/-! ## A run to it -/

/-- What the run does to a table of this seed. -/
inductive Moved : Table → Table → Prop
  | set {t t' : Table} {r : Except Full Wrote} (key value : List UInt8) (expiry : Option UInt32) (granted : Bool)
      (hseed : t.seed = 0)
      (h : t.set .sse2 Arena.pages granted key value (Hash.hash key t.seed) expiry none = .ok (r, t')) : Moved t t'
  | remove {t t' : Table} {b : Bool} (key : List UInt8) (hseed : t.seed = 0)
      (h : t.remove .sse2 key (Hash.hash key t.seed) = .ok (b, t')) : Moved t t'
  | clear {t t₁ t' : Table} {b : Bool} (h : t.clear = .ok t₁) (h' : t₁.shrink .sse2 = .ok (b, t')) : Moved t t'

/-- The tables it comes by. -/
def Comes : Table → Prop := Relation.ReflTransGen Moved (Table.new 0)

theorem Comes.run (h : Comes t) : ∃ tr, Run (Returns .sse2 Arena.pages) (Table.new 0) tr t := by
  induction h with
  | refl => exact ⟨[], .nil⟩
  | @tail t₁ t₂ _ hmoved ih =>
    obtain ⟨tr, hrun⟩ := ih
    cases hmoved with
    | @set _ r key value expiry granted _ hset =>
      have hmoves : Returns .sse2 Arena.pages t₁ (.set key value expiry none granted, r.map .wrote) t₂ := by
        rw [Returns, perform, hset]
        rfl
      exact ⟨_, hrun.snoc hmoves⟩
    | @remove _ b key _ hremove =>
      have hmoves : Returns .sse2 Arena.pages t₁ (.remove key, .ok (.flag b)) t₂ := by
        rw [Returns, perform, hremove]
        rfl
      exact ⟨_, hrun.snoc hmoves⟩
    | @clear t' _ b hclear hshrink =>
      have hcleared : Returns .sse2 Arena.pages t₁ (.clear, .ok .done) t' := by
        rw [Returns, perform, hclear]
        rfl
      have hshrunk : Returns .sse2 Arena.pages t' (.shrink, .ok (.flag b)) t₂ := by
        rw [Returns, perform, hshrink]
        rfl
      exact ⟨_, (hrun.snoc hcleared).snoc hshrunk⟩

/-- One of the entries that fill the segment. -/
def filler (n size : Nat) : Entry.View := ⟨leBytes 2 n, List.replicate size 0, none, none⟩

theorem filler_size (n : Nat) {size : Nat} (h : size < 2 ^ 14) (h' : 127 < size) : (filler n size).size = size + 5 := by
  have hvarint : Entry.varintLen size = 2 := by
    rw [Entry.varintLen, if_neg (by omega), if_pos (by omega)]
  have hklen : Entry.klenLen 2 = 0 := rfl
  rw [Entry.View.size, filler, List.length_replicate, leBytes_length, Entry.sizeOfEntry, hvarint, hklen]
  simp
  omega

theorem filler_inj {n n' size size' : Nat} (hn : n < 2 ^ 16) (hn' : n' < 2 ^ 16)
    (h : (filler n size).key = (filler n' size').key) : n = n' := by
  have hvalue := congrArg leValue h
  rw [filler, filler, leValue_leBytes, leValue_leBytes] at hvalue
  omega

theorem filler_short (n : Nat) {size : Nat} (h : size < 2 ^ 14) : Entry.Short (filler n size) := by
  have hkey : (filler n size).key.length = 2 := leBytes_length 2 n
  have hvalue : (filler n size).value.length = size := List.length_replicate
  exact ⟨by omega, by omega⟩

/-- A table the run comes by, with so many entries, in an arena of which so many units are cut. -/
structure Filled (t : Table) (n units : Nat) : Prop where
  comes : Comes t
  seed : t.seed = 0
  filling : Arena.Filling t.arena units
  has : ∃ items, Has .sse2 t items 0 ∧ items.length = n ∧
    ∀ item ∈ items, ∃ i < n, ∃ size, (size = 2043 ∨ size = 2035) ∧ item.view = filler i size

theorem Filled.more {n units size : Nat} {items : List Item} {r : Ref} (hcomes : Comes t) (hseed : t.seed = 0)
    (hhas : Has .sse2 t items 0) (hlen : items.length = n) (hn : n < 2 ^ 16)
    (hitems : ∀ item ∈ items, ∃ i < n, ∃ size, (size = 2043 ∨ size = 2035) ∧ item.view = filler i size)
    (hsize : size = 2043 ∨ size = 2035)
    (halloc : t.arena.alloc Arena.pages true (size + 5) = .ok (.ok r, a)) (hfilling : Arena.Filling a units) :
    ∃ t', Filled t' (n + 1) units := by
  have habsent : ∀ item ∈ items, item.view.key ≠ (filler n size).key := by
    intro item hi hkey
    obtain ⟨i, hlt, size', -, hview⟩ := hitems item hi
    rw [hview] at hkey
    exact absurd (filler_inj (by omega) hn hkey) (Nat.ne_of_lt hlt)
  rw [← filler_size n (by omega) (by omega)] at halloc
  obtain ⟨ref, t', hperform, hhas', hseed', hmut⟩ := hhas.set_new (filler_short n (by omega)) halloc habsent
  rw [perform, bind_ok_iff] at hperform
  obtain ⟨⟨res, t''⟩, hset, hpure⟩ := hperform
  obtain rfl := (Prod.mk.inj (Except.ok.inj hpure)).2
  refine ⟨_, ⟨hcomes.tail (.set _ _ _ _ hseed hset), hseed'.trans hseed, hfilling.getMut hmut, _, hhas', ?_, ?_⟩⟩
  · rw [List.length_cons, hlen]
  · intro item hi
    obtain rfl | hi := List.mem_cons.mp hi
    · exact ⟨n, Nat.lt_succ_self n, size, hsize, rfl⟩
    · obtain ⟨i, hlt, hview⟩ := hitems item hi
      exact ⟨i, Nat.lt_succ_of_lt hlt, hview⟩

theorem fillers (n : Nat) (hn : n < 511) : ∃ t, Filled t (n + 1) (512 * (n + 1)) := by
  induction n with
  | zero =>
    exact Filled.more .refl rfl (sound_new .sse2 0).has rfl (by decide) nofun (.inl rfl) Arena.filled_first
      Arena.filling_first
  | succ n ih =>
    obtain ⟨t, hcomes, hseed, hfilling, items, hhas, hlen, hitems⟩ := ih (by omega)
    obtain ⟨r, a, halloc, hfilling'⟩ := hfilling.cut (show Arena.classOf 2048 = some 511 from rfl) (by omega)
    exact Filled.more hcomes hseed hhas hlen (by omega) hitems (.inl rfl) halloc hfilling'

/-- All but two units of the first segment. -/
theorem filled_up : ∃ t, Filled t 512 262142 := by
  obtain ⟨t, hcomes, hseed, hfilling, items, hhas, hlen, hitems⟩ := fillers 510 (by decide)
  obtain ⟨r, a, halloc, hfilling'⟩ := hfilling.cut (show Arena.classOf 2040 = some 509 from rfl) (by decide)
  exact Filled.more hcomes hseed hhas hlen (by decide) hitems (.inr rfl) halloc hfilling'

theorem Sound.bare {cells : List (Lane Item)} {F : List Arena.Cell} {lost : Nat} (h : Sound .sse2 t cells F lost)
    (hseed : t.seed = 0) (hnone : entries cells = []) (hlen : cells.length = 16) (hleft : t.growthLeft = 14) :
    t = bare t.arena := by
  have hcount : t.len = 0 := by rw [h.indexed.len, hnone]; rfl
  have htimed : t.timed = 0 := by rw [h.indexed.timed, hnone]; rfl
  have htombs : t.tombstones = 0 := by
    have hgrowth := h.indexed.growth
    rw [hlen, hleft, hcount] at hgrowth
    exact Nat.add_left_cancel (hgrowth.trans rfl : 14 + 0 + t.tombstones = 14 + 0)
  have hempty : cells = List.replicate 16 Lane.empty := by
    refine List.eq_replicate_iff.mpr ⟨hlen, ?_⟩
    intro cell hcell
    have hcells := h.indexed.tombstones.symm.trans htombs
    rw [tombs, List.countP_eq_zero] at hcells
    cases cell with
    | empty => rfl
    | tomb => exact absurd rfl (hcells _ hcell)
    | full item =>
      obtain ⟨i, hi⟩ := List.mem_iff_getElem?.mp hcell
      have hmem := mem_entries.mpr ⟨i, hi⟩
      rw [hnone] at hmem
      cases hmem
  have hctrl := h.indexed.ctrl
  have hslots := h.indexed.slots
  rw [hempty] at hctrl hslots
  cases t
  simp only at hseed hcount htimed htombs hleft hctrl hslots
  subst hseed hcount htimed htombs hleft hctrl hslots
  rfl

/-- They are cleared, and the slots that were for them given back. -/
theorem cleared : ∃ a, Comes (bare a) ∧ Arena.Brim a := by
  obtain ⟨t, hcomes, hseed, hfilling, items, hhas, hlen, hitems⟩ := filled_up
  have hspared : Spared items Arena.Brim := by
    intro item hi arena arena' hbrim hfree
    obtain ⟨i, -, size, hsize, hview⟩ := hitems item hi
    rw [hview, Entry.View.head_size (filler_short i (by omega)), filler_size i (by omega) (by omega)] at hfree
    obtain rfl | rfl := hsize
    · exact hbrim.free (show Arena.classOf 2048 = some 511 from rfl) (by decide) (by decide) hfree
    · exact hbrim.free (show Arena.classOf 2040 = some 509 from rfl) (by decide) (by decide) hfree
  have hmany : minCapacity < t.slots.length := by
    obtain ⟨cells, F, hsound, hperm⟩ := hhas
    have hgrowth := hsound.indexed.growth
    rw [hsound.indexed.len, hperm.length_eq, hlen] at hgrowth
    rw [hsound.indexed.length]
    have hload : cells.length * loadNum / loadDen = cells.length * 7 / 8 := rfl
    have hmin : minCapacity = 16 := rfl
    omega
  obtain ⟨t₁, hclear, hseed₁, ⟨cells₁, F₁, hsound₁, hperm₁⟩, hslots, hbrim⟩ := hhas.clear_keeps hspared hfilling.brim
  have hnone := hperm₁.eq_nil
  have hcount : t₁.len = 0 := by rw [hsound₁.indexed.len, hnone]; rfl
  obtain ⟨t₂, cells₂, hrehash, hsound₂, hperm₂, hseed₂, harena, hleft, hlen₂⟩ :=
    hsound₁.rebuild_ok (m := 4) (Nat.le_refl _) (by rw [hcount]; exact Nat.zero_le _)
  have hshrink : t₁.shrink .sse2 = .ok (true, t₂) := by
    rw [shrink, hslots, if_neg (by omega), hcount, show max (nextPowerOfTwo (0 * 2)) minCapacity = 2 ^ 4 from rfl]
    rw [if_neg (by have hmin : minCapacity = 16 := rfl; omega), hrehash]
    rfl
  rw [hnone] at hperm₂
  rw [hcount] at hleft
  have hbare := hsound₂.bare (hseed₂.trans (hseed₁.trans hseed)) hperm₂.eq_nil hlen₂ hleft
  refine ⟨t₂.arena, ?_, harena ▸ hbrim⟩
  rw [← hbare]
  exact hcomes.tail (.clear hclear hshrink)

/-- The table with a slot that leads to a free block. -/
structure Torn (a : Arena) : Prop where
  comes : Comes (one a)
  tip : Arena.Tip a [255, 255, 255, 255, 128, 128, 128, 128] 262142 262144 8 0

theorem torn_exists : ∃ a, Torn a := by
  obtain ⟨a, hcomes, hbrim⟩ := cleared
  obtain ⟨w, htip⟩ := hbrim.tip
  obtain ⟨a₁, hrefused, htip₁⟩ := bare_refused htip hbrim.large
  have hlink : u32OfBytes ((u32Bytes u32Max ++ w.drop 4).take 4) = u32Max := by
    rw [List.take_append_of_le_length (by rw [u32Bytes_length])]
    rfl
  obtain ⟨a₂, hfirst, htip₂⟩ := bare_set htip₁ hlink
  obtain ⟨a₃, hsecond, htip₃⟩ := one_set htip₂
  obtain ⟨a₄, hremove, htip₄⟩ := two_remove htip₃
  refine ⟨a₄, ?_, { htip₄ with bytes := htip₄.bytes, dead := Nat.zero_le _ }⟩
  have h₁ : Comes (bare a₁) := hcomes.tail (.set _ _ _ _ rfl hrefused)
  have h₂ : Comes (one a₂) := h₁.tail (.set _ _ _ _ rfl hfirst)
  have h₃ : Comes (two a₃) := h₂.tail (.set _ _ _ _ rfl hsecond)
  exact h₃.tail (.remove _ rfl hremove)

end Table
end Rugo
