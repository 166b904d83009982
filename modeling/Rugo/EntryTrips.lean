import Rugo.Table
import Rugo.Resp

/- An entry there and back. What `write` leaves in its bytes is read again from a peek,
   which may run into a neighbour's bytes and tells by its header where the entry ends.

     1. `peek_front`: a peek is the front of the entry and of whatever is behind it.
     2. `round_trips`: an entry of any parts that a command can carry is read back as it
        was written, and is another expiry's encoding when four bytes of it change. -/
namespace Rugo.Entry
open Exec Words

/-- What a command can carry is within the reach of the lengths. -/
theorem short_of_bulk {v : View} (hkey : v.key.length ≤ Resp.maxBulk) (hvalue : v.value.length ≤ Resp.maxBulk) :
    Short v := by
  have hmax : Resp.maxBulk = 2 ^ 29 := rfl
  constructor
  · omega
  · omega

theorem peek_front {arena : Arena} {at_ : Ref} {bytes : List UInt8} (h : arena.get at_ bytes.length = .ok bytes)
    (len : Nat) : ∃ behind, arena.peek at_ len = .ok ((bytes ++ behind).take len) := by
  unfold Arena.get at h
  unfold Arena.peek
  split at h
  · next hlarge =>
    refine ⟨[], ?_⟩
    rw [if_pos hlarge, h, ok_bind, slice_ok (Nat.zero_le _) (Nat.min_le_right _ _), List.append_nil, List.drop_zero,
      Nat.sub_zero, ← List.take_eq_take_min]
  · next hsmall =>
    let segment := arena.segment (Arena.place at_).1
    let off := (Arena.place at_).2
    have hget : slice segment off (off + bytes.length) = .ok bytes := h
    obtain ⟨⟨-, hend⟩, hbytes⟩ := slice_eq_ok.mp hget
    have hsplit : bytes ++ (segment.drop off).drop bytes.length = segment.drop off := by
      conv_lhs =>
        lhs
        rw [hbytes, Nat.add_sub_cancel_left]
      exact List.take_append_drop _ _
    have hpeek : slice segment off (min (off + len) segment.length) = .ok ((segment.drop off).take len) := by
      rw [slice_ok (by omega) (Nat.min_le_right _ _)]
      apply congrArg
      rw [List.take_eq_take_iff, List.length_drop]
      omega
    refine ⟨(segment.drop off).drop bytes.length, ?_⟩
    rw [if_neg hsmall, hsplit]
    exact hpeek

/-- An entry is read back as it was written. -/
structure RoundTrips (v : View) : Prop where
  /-- The entry's bytes are filled, and no others. -/
  writes : ∀ into : List UInt8, v.size ≤ into.length →
    write into v.key v.value v.expiry v.userFlags = .ok (encode v ++ into.drop v.size) ∧ (encode v).length = v.size
  /-- A peek describes it, whatever is behind it. -/
  reads : ∀ behind : List UInt8, ∃ h,
    head ((encode v ++ behind).take (min maxHeader (encode v ++ behind).length)) = .ok h ∧
      h.size = v.size ∧ h.view (encode v) = .ok v
  /-- So does the arena's own. -/
  peeked : ∀ (arena : Arena) at_, arena.get at_ v.size = .ok (encode v) →
    ∃ bytes h, arena.peek at_ maxHeader = .ok bytes ∧ head bytes = .ok h ∧ h.size = v.size ∧ h.view (encode v) = .ok v
  /-- Four bytes over four bytes are another expiry. -/
  dated : ∀ was when h, v.expiry = some was → head (encode v) = .ok h →
    splice (encode v) (h.header + h.klen + h.vlen) (u32Bytes when) = .ok (encode { v with expiry := some when })

theorem round_trips (v : View) (hkey : v.key.length ≤ Resp.maxBulk) (hvalue : v.value.length ≤ Resp.maxBulk) :
    RoundTrips v := by
  have hshort := short_of_bulk hkey hvalue
  have hsize := encode_length hshort
  have hread : ∀ behind, head ((encode v ++ behind).take maxHeader) = .ok v.head :=
    fun behind => head_encode hshort (Nat.le_refl _) behind
  refine ⟨fun into hinto => ⟨write_fill hshort hinto, hsize⟩, ?_, ?_, ?_⟩
  · intro behind
    rw [← List.take_eq_take_min]
    exact ⟨v.head, hread behind, View.head_size hshort, view_encode v⟩
  · intro arena at_ hget
    rw [← hsize] at hget
    obtain ⟨behind, hpeek⟩ := peek_front hget maxHeader
    exact ⟨_, v.head, hpeek, hread behind, View.head_size hshort, view_encode v⟩
  · intro was when h hwas hhead
    have hsame : head (encode v) = .ok v.head := head_header v _
    rw [hsame] at hhead
    cases hhead
    exact splice_expiry hwas

/-- A key of sixty-three bytes, one more than the flags byte can tell. -/
theorem round_trips_long : RoundTrips ⟨List.replicate 63 107, [118], some 7, some 9⟩ :=
  round_trips _ (by decide) (by decide)

end Rugo.Entry
