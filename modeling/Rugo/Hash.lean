import Rugo.Lib.Words

/- The seeded short-key hash (`rugo-hash/src/lib.rs`), as the source computes it:
   two words packed out of the key by length, folded against the seed. The table
   needs nothing of it; the maps above use it as it is. `hash_cancelled`: keys can
   be written that hash to nought whatever the seed. -/
namespace Rugo.Hash
open Words

/-- Odd 64-bit constants with roughly half their bits set. -/
def P0 : UInt64 := 0x243f6a8885a308d3
@[inherit_doc P0] def P1 : UInt64 := 0x13198a2e03707344
@[inherit_doc P0] def P2 : UInt64 := 0xa4093822299f31d0
@[inherit_doc P0] def P3 : UInt64 := 0x082efa98ec4e6c89

/-- Multiply two words to 128 bits and fold the halves together. -/
def fold (a b : UInt64) : UInt64 :=
  let wide := a.toNat * b.toNat
  UInt64.ofNat wide ^^^ UInt64.ofNat (wide >>> 64)

/-- The first eight bytes, little endian. -/
def word (at_ : List UInt8) : UInt64 := UInt64.ofNat (leValue (at_.take 8))

/-- The first four bytes, little endian, widened. -/
def half (at_ : List UInt8) : UInt64 := UInt64.ofNat (leValue (at_.take 4))

def byte (key : List UInt8) (i : Nat) : UInt64 := (key.getD i 0).toUInt64

structure Lanes where
  l0 : UInt64
  l1 : UInt64
  l2 : UInt64
  l3 : UInt64

def Lanes.block (l : Lanes) (rest : List UInt8) : Lanes where
  l0 := fold (l.l0 ^^^ word rest) P0
  l1 := fold (l.l1 ^^^ word (rest.drop 8)) P1
  l2 := fold (l.l2 ^^^ word (rest.drop 16)) P2
  l3 := fold (l.l3 ^^^ word (rest.drop 24)) P3

def Lanes.blocks (l : Lanes) (rest : List UInt8) : Lanes :=
  if 32 ≤ rest.length then (l.block rest).blocks (rest.drop 32) else l
termination_by rest.length
decreasing_by
  rw [List.length_drop]
  omega

/-- The loop, for keys over thirty-two bytes. -/
def long (key : List UInt8) (start : UInt64) : UInt64 × UInt64 :=
  let lanes : Lanes := ⟨start ^^^ P0, start ^^^ P1, start ^^^ P2, start ^^^ P3⟩
  let lanes := lanes.blocks key
  let tail := key.drop (key.length - 32)
  let l0 := lanes.l0 ^^^ word tail
  let l1 := lanes.l1 ^^^ word (tail.drop 8)
  let l2 := lanes.l2 ^^^ word (tail.drop 16)
  let l3 := lanes.l3 ^^^ word (tail.drop 24)
  (fold l0 (l1 ^^^ P2), fold l2 (l3 ^^^ P3))

/-- The two words a key is packed into, by its length. -/
def pack (key : List UInt8) (start : UInt64) : UInt64 × UInt64 :=
  let len := key.length
  if len = 0 then (P2, P3)
  else if len ≤ 3 then
    let packed := (byte key 0 <<< 48) ||| (byte key (len >>> 1) <<< 24) ||| byte key (len - 1)
    (packed ^^^ P2, start ^^^ P3)
  else if len ≤ 7 then (half key ^^^ P2, half (key.drop (len - 4)) ^^^ P3)
  else if len ≤ 16 then (word key ^^^ P2, word (key.drop (len - 8)) ^^^ P3)
  else if len ≤ 32 then
    (fold (word key ^^^ P2) (word (key.drop 8) ^^^ P3),
      fold (word (key.drop (len - 16)) ^^^ P0) (word (key.drop (len - 8)) ^^^ P1))
  else long key start

/-- Hash `key` under `seed`. -/
def hash (key : List UInt8) (seed : UInt64) : UInt64 :=
  let len := UInt64.ofNat key.length
  let start := seed ^^^ fold (seed ^^^ P0) (len ^^^ P1)
  let (a, b) := pack key start
  fold (a ^^^ start) (b ^^^ (P1 + len))

/-- A factor of zero takes the other with it. -/
theorem fold_zero (a : UInt64) : fold a 0 = 0 := by
  simp [fold]

/-- A key of eight to sixteen bytes whose last word cancels the constants: the seed is
multiplied away. -/
theorem hash_cancelled {key : List UInt8} (hle : 8 ≤ key.length) (hlt : key.length ≤ 16)
    (hlast : word (key.drop (key.length - 8)) = P3 ^^^ (P1 + UInt64.ofNat key.length)) (seed : UInt64) :
    hash key seed = 0 := by
  have hpack : ∀ start, (pack key start).2 = word (key.drop (key.length - 8)) ^^^ P3 := by
    intro start
    rw [pack, if_neg (by omega), if_neg (by omega), if_neg (by omega), if_pos hlt]
  have hcancel : (P3 ^^^ (P1 + UInt64.ofNat key.length)) ^^^ P3 ^^^ (P1 + UInt64.ofNat key.length) = 0 := by
    generalize P1 + UInt64.ofNat key.length = c
    rw [UInt64.xor_comm P3 c, UInt64.xor_assoc c P3 P3, UInt64.xor_self, UInt64.xor_zero, UInt64.xor_self]
  simp only [hash]
  rw [hpack, hlast, hcancel, fold_zero]

/-- These bytes, and after them the word that cancels the constants of their length. -/
def cancelling (front : List UInt8) : List UInt8 :=
  front ++ leBytes 8 (P3 ^^^ (P1 + UInt64.ofNat (front.length + 8))).toNat

theorem cancelling_length (front : List UInt8) : (cancelling front).length = front.length + 8 := by
  rw [cancelling, List.length_append, leBytes_length]

theorem cancelling_inj {front front' : List UInt8} (h : cancelling front = cancelling front') : front = front' := by
  have hlen := congrArg List.length h
  rw [cancelling_length, cancelling_length] at hlen
  exact List.append_inj_left h (by omega)

theorem hash_cancelling {front : List UInt8} (h : front.length ≤ 8) (seed : UInt64) :
    hash (cancelling front) seed = 0 := by
  have hlen := cancelling_length front
  apply hash_cancelled (by omega) (by omega)
  rw [hlen, Nat.add_sub_cancel, cancelling, List.drop_left, word, List.take_of_length_le (by rw [leBytes_length]),
    leValue_leBytes, show 256 ^ 8 = 2 ^ 64 from rfl, Nat.mod_eq_of_lt (UInt64.toNat_lt _), UInt64.ofNat_toNat]

end Rugo.Hash
