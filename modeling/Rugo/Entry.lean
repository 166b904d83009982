import Mathlib.Data.List.Basic
import Mathlib.Tactic.Ring
import Rugo.Lib.Exec
import Rugo.Lib.Words

/- How one cached entry is laid out in arena bytes (`rugo-map/src/entry.rs`):

     [flags:u8][klen:varint?][vlen:varint][key][value][expiry:u32?][user flags:u32?]

   `write` fills the slice it is given piece by piece, as the source does;
   `head` decodes the header from the front of a peek; `Head.key`, `Head.value`
   and the two trailers are windows of the entry's own bytes. What is proved:

     1. `write_eq`: into exactly `sizeOfEntry` bytes, `write` leaves `encode`,
        for every key and value shorter than `2^35` bytes, the reach of a five
        byte varint; `write_long`: past that it runs off the end and panics.
     2. `head_encode`: the first eleven bytes are enough, whatever follows the
        entry, for `head` to describe it.
     3. `view_encode`: the description reads back exactly what was written. -/
namespace Rugo.Entry
open Exec Words

def hasExpiry : UInt8 := (1 : UInt8) <<< 0

/-- Set when the entry carries a memcache-style user flags word. -/
def hasUserFlags : UInt8 := (1 : UInt8) <<< 1

/-- How far up the flags byte the key length sits. -/
def klenShift : UInt8 := 2

/-- The longest key the flags byte can carry. -/
def klenInline : Nat := 62

/-- How many bytes the LEB128 encoding of `value` takes. -/
def varintLen (value : Nat) : Nat :=
  if value ≤ 0x7f then 1
  else if value ≤ 0x3fff then 2
  else if value ≤ 0x1fffff then 3
  else if value ≤ 0xfffffff then 4
  else 5

/-- The bytes `put_varint` writes for `value`. -/
def putVarint (value : Nat) : List UInt8 :=
  if value >>> 7 = 0 then [UInt8.ofNat (value &&& 0x7f)]
  else (UInt8.ofNat (value &&& 0x7f) ||| 0x80) :: putVarint (value >>> 7)
termination_by value
decreasing_by
  rw [Nat.shiftRight_eq_div_pow] at *
  omega

/-- The loop of `get_varint`, `value` and `shift` and `at_` as they stand. A
shift past the width of a word is not reached from an entry `write` made. -/
def getVarintLoop : List UInt8 → Nat → Nat → Nat → Exec (Nat × Nat)
  | [], _, _, _ => .error .bounds
  | byte :: rest, value, shift, at_ =>
    let value := value ||| ((byte.toNat &&& 0x7f) <<< shift)
    -- the top bit says that another byte follows
    if byte &&& 0x80 = 0 then .ok (value, at_ + 1)
    else getVarintLoop rest value (shift + 7) (at_ + 1)

/-- Read a LEB128 value from the front of `bytes`: the value and its width. -/
def getVarint (bytes : List UInt8) : Exec (Nat × Nat) := getVarintLoop bytes 0 0 0

/-- How many bytes the key length costs. -/
def klenLen (klen : Nat) : Nat := if klen ≤ klenInline then 0 else varintLen klen

/-- The flags byte for an entry with these parts. -/
def flagsOf (klen : Nat) (expiry userFlags : Bool) : UInt8 :=
  let flags : UInt8 := 0
  let flags := if expiry then flags ||| hasExpiry else flags
  let flags := if userFlags then flags ||| hasUserFlags else flags
  -- one too high, so that nought says the length is behind the flags
  if klen ≤ klenInline then flags ||| (UInt8.ofNat (klen + 1) <<< klenShift) else flags

/-- How many bytes an entry with these parts occupies. -/
def sizeOfEntry (klen vlen : Nat) (expiry userFlags : Bool) : Nat :=
  1 + klenLen klen + varintLen vlen + klen + vlen
    + (if expiry then 4 else 0) + (if userFlags then 4 else 0)

/-- `into[at..at + bs.len()].copy_from_slice(bs); at += bs.len()`. -/
def put (cursor : List UInt8 × Nat) (bs : List UInt8) : Exec (List UInt8 × Nat) := do
  let into ← splice cursor.1 cursor.2 bs
  pure (into, cursor.2 + bs.length)

/-- The key length, where the flags byte cannot carry it. -/
def putKlen (cursor : List UInt8 × Nat) (klen : Nat) : Exec (List UInt8 × Nat) :=
  if klen > klenInline then put cursor (putVarint klen) else pure cursor

/-- A trailing word, where there is one. -/
def putWord (cursor : List UInt8 × Nat) : Option UInt32 → Exec (List UInt8 × Nat)
  | some w => put cursor (u32Bytes w)
  | none => pure cursor

/-- Write a whole entry into `into`. -/
def write (into key value : List UInt8) (expiry userFlags : Option UInt32) :
    Exec (List UInt8) := do
  let cursor ← put (into, 0) [flagsOf key.length expiry.isSome userFlags.isSome]
  let cursor ← putKlen cursor key.length
  let cursor ← put cursor (putVarint value.length)
  let cursor ← put cursor key
  let cursor ← put cursor value
  let cursor ← putWord cursor expiry
  let cursor ← putWord cursor userFlags
  pure cursor.1

/-- An entry's header, decoded. -/
structure Head where
  flags : UInt8
  header : Nat
  klen : Nat
  vlen : Nat
  deriving DecidableEq, Repr

structure View where
  key : List UInt8
  value : List UInt8
  expiry : Option UInt32
  userFlags : Option UInt32
  deriving DecidableEq, Repr

def word (bytes : List UInt8) (at_ : Nat) : Exec UInt32 := do
  let buf ← slice bytes at_ (at_ + 4)
  pure (u32OfBytes buf)

namespace Head

def timed (h : Head) : Bool := h.flags &&& hasExpiry != 0

/-- What the two optional trailing fields take. -/
def trailer (h : Head) : Nat :=
  (if h.flags &&& hasExpiry ≠ 0 then 4 else 0) + (if h.flags &&& hasUserFlags ≠ 0 then 4 else 0)

def size (h : Head) : Nat := h.header + h.klen + h.vlen + h.trailer

def key (h : Head) (bytes : List UInt8) : Exec (List UInt8) :=
  slice bytes h.header (h.header + h.klen)

def value (h : Head) (bytes : List UInt8) : Exec (List UInt8) :=
  let at_ := h.header + h.klen
  slice bytes at_ (at_ + h.vlen)

def expiry (h : Head) (bytes : List UInt8) : Exec (Option UInt32) :=
  if h.flags &&& hasExpiry = 0 then pure none
  else do
    let when ← word bytes (h.header + h.klen + h.vlen)
    pure (some when)

def userFlags (h : Head) (bytes : List UInt8) : Exec (Option UInt32) :=
  if h.flags &&& hasUserFlags = 0 then pure none
  else do
    -- behind the expiry, if there is one
    let after := if h.flags &&& hasExpiry ≠ 0 then 4 else 0
    let flags ← word bytes (h.header + h.klen + h.vlen + after)
    pure (some flags)

def view (h : Head) (bytes : List UInt8) : Exec View := do
  let key ← h.key bytes
  let value ← h.value bytes
  let expiry ← h.expiry bytes
  let userFlags ← h.userFlags bytes
  pure { key, value, expiry, userFlags }

end Head

/-- The key's length and the bytes it took after the flags: none where the
flags byte carries it, in its upper six bits and one too high. -/
def klenOf (packed : Nat) (bytes : List UInt8) : Exec (Nat × Nat) :=
  if packed = 0 then getVarint (bytes.drop 1) else pure (packed - 1, 0)

/-- Decode the header of the entry at the front of `bytes`. -/
def head (bytes : List UInt8) : Exec Head := do
  let flags ← index bytes 0
  let packed := (flags >>> klenShift).toNat
  let klen ← klenOf packed bytes
  let vlen ← getVarint (bytes.drop (1 + klen.2))
  pure { flags, header := 1 + klen.2 + vlen.2, klen := klen.1, vlen := vlen.1 }

/-! ## What the pieces come to -/

/-- The reach of a five byte varint. -/
def Short (v : View) : Prop := v.key.length < 2 ^ 35 ∧ v.value.length < 2 ^ 35

def header (v : View) : List UInt8 :=
  flagsOf v.key.length v.expiry.isSome v.userFlags.isSome ::
    (if v.key.length ≤ klenInline then [] else putVarint v.key.length) ++ putVarint v.value.length

def trail : Option UInt32 → List UInt8
  | some w => u32Bytes w
  | none => []

def encode (v : View) : List UInt8 :=
  header v ++ (v.key ++ (v.value ++ (trail v.expiry ++ trail v.userFlags)))

def View.size (v : View) : Nat :=
  sizeOfEntry v.key.length v.value.length v.expiry.isSome v.userFlags.isSome

/-- The description `head` gives of an entry. -/
def View.head (v : View) : Head where
  flags := flagsOf v.key.length v.expiry.isSome v.userFlags.isSome
  header := (header v).length
  klen := v.key.length
  vlen := v.value.length

/-! ## Varints -/

theorem putVarint_small {v : Nat} (h : v < 128) : putVarint v = [UInt8.ofNat v] := by
  have h0 : v >>> 7 = 0 := by rw [Nat.shiftRight_eq_div_pow]; omega
  have hand : v &&& 0x7f = v := by
    rw [show 0x7f = 2 ^ 7 - 1 from rfl, Nat.and_two_pow_sub_one_eq_mod]; omega
  rw [putVarint, if_pos h0, hand]

theorem putVarint_big {v : Nat} (h : 128 ≤ v) :
    putVarint v = UInt8.ofNat (v % 128 + 128) :: putVarint (v / 128) := by
  have h0 : ¬ v >>> 7 = 0 := by rw [Nat.shiftRight_eq_div_pow]; omega
  rw [putVarint, if_neg h0, Nat.shiftRight_eq_div_pow]
  congr 1
  apply UInt8.toNat_inj.mp
  have hlow : (UInt8.ofNat (v &&& 0x7f)).toNat = v % 128 := by
    rw [show 0x7f = 2 ^ 7 - 1 from rfl, Nat.and_two_pow_sub_one_eq_mod, UInt8.toNat_ofNat']; omega
  have hor := Nat.two_pow_add_eq_or_of_lt (i := 7) (b := v % 128) (by omega) 1
  rw [UInt8.toNat_or, hlow, UInt8.toNat_ofNat', Nat.or_comm,
    show (0x80 : UInt8).toNat = 2 ^ 7 * 1 from rfl, ← hor]
  omega

/-- `put_varint` takes `varint_len` bytes as far as five of them reach, and
more past that. -/
theorem putVarint_length (v : Nat) :
    if v < 2 ^ 35 then (putVarint v).length = varintLen v else varintLen v < (putVarint v).length := by
  have h7 : ∀ v, v < 2 ^ 7 → (putVarint v).length = 1 := fun v h => by
    rw [putVarint_small (by omega)]; rfl
  have hs : ∀ v, 2 ^ 7 ≤ v → (putVarint v).length = (putVarint (v / 128)).length + 1 := fun v h => by
    rw [putVarint_big (by omega)]; rfl
  have hpos : ∀ v, 0 < (putVarint v).length := fun v => by
    rcases Nat.lt_or_ge v (2 ^ 7) with h | h
    · rw [h7 v h]; decide
    · rw [hs v h]; omega
  rcases Nat.lt_or_ge v (2 ^ 7) with h1 | h1
  · rw [if_pos (by omega), h7 v h1, varintLen, if_pos (by omega)]
  rcases Nat.lt_or_ge v (2 ^ 14) with h2 | h2
  · rw [if_pos (by omega), hs v h1, h7 _ (by omega), varintLen, if_neg (by omega),
      if_pos (by omega)]
  rcases Nat.lt_or_ge v (2 ^ 21) with h3 | h3
  · rw [if_pos (by omega), hs v h1, hs _ (by omega), h7 _ (by omega), varintLen,
      if_neg (by omega), if_neg (by omega), if_pos (by omega)]
  have hfour : (putVarint v).length = (putVarint (v / 128 / 128 / 128)).length + 3 := by
    rw [hs v h1, hs _ (by omega), hs _ (by omega)]
  have hlen : varintLen v = if v ≤ 0xfffffff then 4 else 5 := by
    rw [varintLen, if_neg (by omega), if_neg (by omega), if_neg (by omega)]
  rw [hfour, hlen]
  rcases Nat.lt_or_ge v (2 ^ 28) with h4 | h4
  · rw [if_pos (by omega), h7 _ (by omega), if_pos (by omega)]
  rw [hs _ (by omega), if_neg (by omega : ¬ v ≤ 0xfffffff)]
  rcases Nat.lt_or_ge v (2 ^ 35) with h5 | h5
  · rw [if_pos h5, h7 _ (by omega)]
  · have := hpos (v / 128 / 128 / 128 / 128 / 128)
    rw [if_neg (by omega), hs _ (by omega)]
    omega

theorem varintLen_le (v : Nat) : 1 ≤ varintLen v ∧ varintLen v ≤ 5 := by
  unfold varintLen
  split_ifs <;> simp

theorem low_or_high (v shift : Nat) :
    ((v % 128) <<< shift) ||| ((v / 128) <<< (shift + 7)) = v <<< shift := by
  apply Nat.eq_of_testBit_eq
  intro i
  rw [show (128 : Nat) = 2 ^ 7 from rfl, ← Nat.shiftRight_eq_div_pow]
  simp only [Nat.testBit_or, Nat.testBit_shiftLeft, Nat.testBit_mod_two_pow,
    Nat.testBit_shiftRight]
  by_cases h1 : shift ≤ i
  · by_cases h2 : shift + 7 ≤ i
    · have : 7 + (i - (shift + 7)) = i - shift := by omega
      simp [h1, h2, this]
    · simp [h1, h2]
      omega
  · have h2 : ¬ shift + 7 ≤ i := by omega
    simp [h1, h2]

theorem getVarintLoop_putVarint (v value shift at_ : Nat) (rest : List UInt8) :
    getVarintLoop (putVarint v ++ rest) value shift at_ =
      .ok (value ||| (v <<< shift), at_ + (putVarint v).length) := by
  -- seven bits a step, so on the number itself
  induction v using Nat.strongRecOn generalizing value shift at_ with
  | ind v ih =>
    rcases Nat.lt_or_ge v 128 with h | h
    · have hb : (UInt8.ofNat v).toNat = v := by rw [UInt8.toNat_ofNat']; omega
      have htop : UInt8.ofNat v &&& 0x80 = 0 := (and80_eq_zero _).mpr (by omega)
      have hlow : v &&& 0x7f = v := by
        rw [show 0x7f = 2 ^ 7 - 1 from rfl, Nat.and_two_pow_sub_one_eq_mod]; omega
      rw [putVarint_small h, List.singleton_append, getVarintLoop]
      simp only [htop, if_true, hb, hlow, List.length_singleton]
    · have hb : (UInt8.ofNat (v % 128 + 128)).toNat = v % 128 + 128 := by
        rw [UInt8.toNat_ofNat']; omega
      have htop : ¬ UInt8.ofNat (v % 128 + 128) &&& 0x80 = 0 := by
        rw [and80_eq_zero, hb]; omega
      have hlow : v % 128 + 128 &&& 0x7f = v % 128 := by
        rw [show 0x7f = 2 ^ 7 - 1 from rfl, Nat.and_two_pow_sub_one_eq_mod]; omega
      rw [putVarint_big h, List.cons_append, getVarintLoop]
      simp only [htop, if_false, hb, hlow]
      rw [ih (v / 128) (by omega), Nat.or_assoc, low_or_high, List.length_cons]
      congr 2
      omega

theorem getVarint_putVarint (v : Nat) (rest : List UInt8) :
    getVarint (putVarint v ++ rest) = .ok (v, (putVarint v).length) := by
  rw [getVarint, getVarintLoop_putVarint]
  simp

/-! ## Writing -/

/-- Putting at the end of what is already there: what was left is overwritten
from its front. -/
theorem put_fill (done rest bs : List UInt8) :
    put (done ++ rest, done.length) bs =
      if bs.length ≤ rest.length then
        .ok ((done ++ bs) ++ rest.drop bs.length, (done ++ bs).length)
      else .error .bounds := by
  simp only [put, splice, List.length_append, Nat.add_le_add_iff_left]
  split
  · simp [List.drop_append]
  · rfl

/-- A run of puts. -/
def puts (cursor : List UInt8 × Nat) : List (List UInt8) → Exec (List UInt8 × Nat)
  | [] => pure cursor
  | bs :: more => do
    let cursor ← put cursor bs
    puts cursor more

theorem puts_fill (done rest : List UInt8) (bss : List (List UInt8)) :
    puts (done ++ rest, done.length) bss =
      if bss.flatten.length ≤ rest.length then
        .ok ((done ++ bss.flatten) ++ rest.drop bss.flatten.length, (done ++ bss.flatten).length)
      else .error .bounds := by
  induction bss generalizing done rest with
  | nil => simp [puts]
  | cons bs more ih =>
    simp only [puts, put_fill, List.flatten_cons, List.length_append]
    rcases Nat.lt_or_ge rest.length bs.length with hlt | hge
    · rw [if_neg (by omega), if_neg (by omega)]
      rfl
    · have ih := ih (done ++ bs) (rest.drop bs.length)
      rw [List.length_append, List.length_drop] at ih
      have hiff : more.flatten.length ≤ rest.length - bs.length ↔
          bs.length + more.flatten.length ≤ rest.length := by omega
      rw [if_pos hge, ok_bind, ih]
      simp only [hiff]
      split <;> simp

theorem put_nil {cursor : List UInt8 × Nat} (h : cursor.2 ≤ cursor.1.length) :
    put cursor [] = .ok cursor := by
  simp [put, splice, h]

theorem put_within {cursor c : List UInt8 × Nat} {bs : List UInt8} (h : put cursor bs = .ok c) :
    c.2 ≤ c.1.length := by
  obtain ⟨into, hs, hc⟩ := bind_ok_iff.mp h
  have hlen := splice_length hs
  obtain ⟨hle, -⟩ := splice_eq_ok.mp hs
  cases hc
  simp only [hlen]
  exact hle

/-- The pieces of an entry, in the order `write` puts them. -/
def pieces (v : View) : List (List UInt8) :=
  [[flagsOf v.key.length v.expiry.isSome v.userFlags.isSome],
    if v.key.length ≤ klenInline then [] else putVarint v.key.length,
    putVarint v.value.length, v.key, v.value, trail v.expiry, trail v.userFlags]

theorem pieces_flatten (v : View) : (pieces v).flatten = encode v := by
  simp [pieces, encode, header]

theorem putWord_eq {cursor : List UInt8 × Nat} (h : cursor.2 ≤ cursor.1.length)
    (word : Option UInt32) : putWord cursor word = put cursor (trail word) := by
  cases word with
  | none => rw [trail, put_nil h]; rfl
  | some w => rfl

theorem putKlen_eq {cursor : List UInt8 × Nat} (h : cursor.2 ≤ cursor.1.length) (klen : Nat) :
    putKlen cursor klen = put cursor (if klen ≤ klenInline then [] else putVarint klen) := by
  unfold putKlen
  rcases Nat.lt_or_ge klenInline klen with hk | hk
  · rw [if_pos hk, if_neg (by omega)]
  · rw [if_neg (by omega), if_pos hk, put_nil h]; rfl

/-- `write` puts the pieces one after another: the optional ones it skips are
empty. -/
theorem write_eq_puts (into : List UInt8) (v : View) :
    write into v.key v.value v.expiry v.userFlags =
      (puts (into, 0) (pieces v) >>= fun cursor => pure cursor.1) := by
  unfold write pieces
  simp only [puts]
  cases h1 : put (into, 0) [flagsOf v.key.length v.expiry.isSome v.userFlags.isSome] with
  | error e => rfl
  | ok c1 =>
    simp only [ok_bind, putKlen_eq (put_within h1)]
    cases put c1 (if v.key.length ≤ klenInline then [] else putVarint v.key.length) with
    | error e => rfl
    | ok c2 =>
      simp only [ok_bind]
      cases put c2 (putVarint v.value.length) with
      | error e => rfl
      | ok c3 =>
        simp only [ok_bind]
        cases put c3 v.key with
        | error e => rfl
        | ok c4 =>
          simp only [ok_bind]
          cases h5 : put c4 v.value with
          | error e => rfl
          | ok c5 =>
            simp only [ok_bind, putWord_eq (put_within h5)]
            cases h6 : put c5 (trail v.expiry) with
            | error e => rfl
            | ok c6 =>
              simp only [ok_bind, putWord_eq (put_within h6)]
              cases put c6 (trail v.userFlags) <;> rfl

@[simp] theorem trail_length (word : Option UInt32) :
    (trail word).length = if word.isSome then 4 else 0 := by
  cases word <;> simp [trail]

theorem header_length (v : View) : (header v).length =
    1 + (if v.key.length ≤ klenInline then 0 else (putVarint v.key.length).length)
      + (putVarint v.value.length).length := by
  unfold header
  rw [List.length_append, List.length_cons]
  by_cases h : v.key.length ≤ klenInline
  · rw [if_pos h, if_pos h, List.length_nil]
  · rw [if_neg h, if_neg h]
    omega

/-- The encoding has the size it was allocated, as far as the varints reach. -/
theorem encode_length {v : View} (h : Short v) : (encode v).length = v.size := by
  have hk := putVarint_length v.key.length
  have hv := putVarint_length v.value.length
  rw [if_pos h.1] at hk
  rw [if_pos h.2] at hv
  simp only [encode, List.length_append, header_length, trail_length, View.size, sizeOfEntry,
    klenLen, hk, hv]
  omega

/-- Past their reach it is longer. -/
theorem encode_length_long {v : View} (h : ¬ Short v) : v.size < (encode v).length := by
  have hk := putVarint_length v.key.length
  have hv := putVarint_length v.value.length
  have hinl : klenInline = 62 := rfl
  simp only [encode, List.length_append, header_length, trail_length, View.size, sizeOfEntry,
    klenLen]
  unfold Short at h
  split at hk <;> split at hv <;> split_ifs at * <;> omega

theorem write_fill {into : List UInt8} {v : View} (h : Short v) (hlen : v.size ≤ into.length) :
    write into v.key v.value v.expiry v.userFlags = .ok (encode v ++ into.drop v.size) := by
  have hfill := puts_fill [] into (pieces v)
  rw [pieces_flatten, encode_length h, if_pos hlen, List.nil_append, List.nil_append] at hfill
  rw [write_eq_puts]
  exact congrArg (· >>= fun cursor => pure cursor.1) hfill

theorem write_eq {into : List UInt8} {v : View} (h : Short v) (hlen : into.length = v.size) :
    write into v.key v.value v.expiry v.userFlags = .ok (encode v) := by
  rw [write_fill h (Nat.le_of_eq hlen.symm), List.drop_eq_nil_of_le (Nat.le_of_eq hlen), List.append_nil]

/-- A key or a value a five byte varint cannot describe runs off the end. -/
theorem write_long {into : List UInt8} {v : View} (h : ¬ Short v) (hlen : into.length = v.size) :
    write into v.key v.value v.expiry v.userFlags = .error .bounds := by
  have hfill := puts_fill [] into (pieces v)
  have := encode_length_long h
  rw [pieces_flatten, if_neg (by omega)] at hfill
  rw [write_eq_puts, show (into, 0) = (([] : List UInt8) ++ into, ([] : List UInt8).length) from rfl,
    hfill]
  rfl

/-! ## Reading -/

theorem flagsOf_inline {k : Nat} (h : k ≤ klenInline) (e u : Bool) :
    (flagsOf k e u &&& hasExpiry = 0 ↔ e = false) ∧
    (flagsOf k e u &&& hasUserFlags = 0 ↔ u = false) ∧
    (flagsOf k e u >>> klenShift).toNat = k + 1 := by
  have hall : ∀ (k : Fin 63) (e u : Bool),
      (flagsOf k e u &&& hasExpiry = 0 ↔ e = false) ∧
      (flagsOf k e u &&& hasUserFlags = 0 ↔ u = false) ∧
      (flagsOf k e u >>> klenShift).toNat = k + 1 := by
    decide +kernel
  exact hall ⟨k, Nat.lt_succ_of_le h⟩ e u

theorem flagsOf_long {k : Nat} (h : klenInline < k) (e u : Bool) :
    (flagsOf k e u &&& hasExpiry = 0 ↔ e = false) ∧
    (flagsOf k e u &&& hasUserFlags = 0 ↔ u = false) ∧
    (flagsOf k e u >>> klenShift).toNat = 0 := by
  simp only [flagsOf, if_neg (Nat.not_le.mpr h)]
  revert e u
  decide

theorem flagsOf_expiry (k : Nat) (e u : Bool) : flagsOf k e u &&& hasExpiry = 0 ↔ e = false := by
  rcases Nat.lt_or_ge klenInline k with h | h
  · exact (flagsOf_long h e u).1
  · exact (flagsOf_inline h e u).1

theorem flagsOf_userFlags (k : Nat) (e u : Bool) :
    flagsOf k e u &&& hasUserFlags = 0 ↔ u = false := by
  rcases Nat.lt_or_ge klenInline k with h | h
  · exact (flagsOf_long h e u).2.1
  · exact (flagsOf_inline h e u).2.1

@[simp] theorem View.head_timed (v : View) : v.head.timed = v.expiry.isSome := by
  have h := flagsOf_expiry v.key.length v.expiry.isSome v.userFlags.isSome
  simp only [Head.timed, View.head]
  cases hb : v.expiry.isSome <;> simp_all

theorem View.head_size {v : View} (h : Short v) : v.head.size = v.size := by
  have hlen := encode_length h
  have he := flagsOf_expiry v.key.length v.expiry.isSome v.userFlags.isSome
  have hu := flagsOf_userFlags v.key.length v.expiry.isSome v.userFlags.isSome
  simp only [encode, List.length_append, trail_length] at hlen
  simp only [Head.size, Head.trailer, View.head, ← hlen, ne_eq, he, hu]
  cases v.expiry.isSome <;> cases v.userFlags.isSome <;> simp <;> omega

theorem header_le {v : View} (h : Short v) : (header v).length ≤ 11 := by
  have hk := putVarint_length v.key.length
  have hv := putVarint_length v.value.length
  rw [if_pos h.1] at hk
  rw [if_pos h.2] at hv
  have hkl := varintLen_le v.key.length
  have hvl := varintLen_le v.value.length
  rw [header_length]
  split <;> omega

theorem head_header (v : View) (rest : List UInt8) : head (header v ++ rest) = .ok v.head := by
  have h0 : index (header v ++ rest) 0 =
      .ok (flagsOf v.key.length v.expiry.isSome v.userFlags.isSome) := by
    simp [header, index]
  simp only [head, h0, ok_bind]
  -- the key's length is behind the flags, or in them
  rcases Nat.lt_or_ge klenInline v.key.length with hk | hk
  · obtain ⟨-, -, hpack⟩ := flagsOf_long hk v.expiry.isSome v.userFlags.isSome
    have hhead : header v ++ rest = flagsOf v.key.length v.expiry.isSome v.userFlags.isSome ::
        (putVarint v.key.length ++ (putVarint v.value.length ++ rest)) := by
      simp [header, Nat.not_le.mpr hk]
    have hdrop : List.drop (1 + (putVarint v.key.length).length) (header v ++ rest) =
        putVarint v.value.length ++ rest := by
      rw [hhead, Nat.add_comm, List.drop_succ_cons, List.drop_left]
    rw [hpack, klenOf, if_pos rfl, hhead, List.drop_succ_cons, List.drop_zero,
      getVarint_putVarint, ok_bind, ← hhead, hdrop, getVarint_putVarint, ok_bind, pure_ok,
      View.head, header_length, if_neg (Nat.not_le.mpr hk)]
  · obtain ⟨-, -, hpack⟩ := flagsOf_inline hk v.expiry.isSome v.userFlags.isSome
    have hhead : header v ++ rest = flagsOf v.key.length v.expiry.isSome v.userFlags.isSome ::
        (putVarint v.value.length ++ rest) := by
      simp [header, hk]
    rw [hpack, klenOf, if_neg (by omega), pure_ok, ok_bind, hhead]
    simp only [Nat.add_zero, List.drop_succ_cons, List.drop_zero, getVarint_putVarint, ok_bind,
      pure_ok, View.head, header_length, if_pos hk, Nat.add_sub_cancel]

/-- A peek of eleven bytes describes the entry, whatever follows it. -/
theorem head_encode {v : View} (h : Short v) {n : Nat} (hn : 11 ≤ n) (rest : List UInt8) :
    head ((encode v ++ rest).take n) = .ok v.head := by
  have hle := header_le h
  rw [encode, List.append_assoc, List.take_append, List.take_of_length_le (by omega)]
  exact head_header v _

theorem slice_middle (pre mid post : List UInt8) :
    slice (pre ++ (mid ++ post)) pre.length (pre.length + mid.length) = .ok mid := by
  rw [slice_ok (by omega) (by simp), List.drop_left, Nat.add_sub_cancel_left, List.take_left]

theorem key_encode (v : View) : v.head.key (encode v) = .ok v.key :=
  slice_middle (header v) v.key _

theorem value_encode (v : View) : v.head.value (encode v) = .ok v.value := by
  have h := slice_middle (header v ++ v.key) v.value (trail v.expiry ++ trail v.userFlags)
  rw [List.length_append, List.append_assoc] at h
  exact h

theorem word_trail (pre post : List UInt8) (w : UInt32) :
    word (pre ++ (u32Bytes w ++ post)) pre.length = .ok w := by
  have h := slice_middle pre (u32Bytes w) post
  rw [u32Bytes_length] at h
  simp [word, h]

theorem expiry_encode (v : View) : v.head.expiry (encode v) = .ok v.expiry := by
  have hf := flagsOf_expiry v.key.length v.expiry.isSome v.userFlags.isSome
  unfold Head.expiry
  cases he : v.expiry with
  | none =>
    rw [if_pos (by simpa [View.head, he] using hf)]
    rfl
  | some w =>
    have hw := word_trail (header v ++ v.key ++ v.value) (trail v.userFlags) w
    have hsum : v.head.header + v.head.klen + v.head.vlen =
        (header v ++ v.key ++ v.value).length := by simp [View.head, Nat.add_assoc]
    have henc : encode v = header v ++ v.key ++ v.value ++ (u32Bytes w ++ trail v.userFlags) := by
      simp [encode, he, trail]
    rw [if_neg (by simpa [View.head, he] using hf), hsum, henc, hw]
    rfl

theorem userFlags_encode (v : View) : v.head.userFlags (encode v) = .ok v.userFlags := by
  have hf := flagsOf_expiry v.key.length v.expiry.isSome v.userFlags.isSome
  have hu := flagsOf_userFlags v.key.length v.expiry.isSome v.userFlags.isSome
  unfold Head.userFlags
  cases he : v.userFlags with
  | none =>
    rw [if_pos (by simpa [View.head, he] using hu)]
    rfl
  | some w =>
    have hw := word_trail (header v ++ v.key ++ v.value ++ trail v.expiry) [] w
    have hsum : v.head.header + v.head.klen + v.head.vlen +
        (if v.head.flags &&& hasExpiry ≠ 0 then 4 else 0) =
        (header v ++ v.key ++ v.value ++ trail v.expiry).length := by
      simp only [View.head, ne_eq, hf, List.length_append, trail_length]
      cases v.expiry.isSome <;> rfl
    have henc : encode v =
        header v ++ v.key ++ v.value ++ trail v.expiry ++ (u32Bytes w ++ []) := by
      simp [encode, he, trail]
    rw [if_neg (by simpa [View.head, he] using hu)]
    simp only [hsum]
    rw [henc, hw]
    rfl

/-- Decoding undoes encoding. -/
theorem view_encode (v : View) : v.head.view (encode v) = .ok v := by
  simp [Head.view, key_encode, value_encode, expiry_encode, userFlags_encode]

theorem splice_expiry {v : View} {was when : UInt32} (he : v.expiry = some was) :
    splice (encode v) (v.head.header + v.head.klen + v.head.vlen) (u32Bytes when) =
      .ok (encode { v with expiry := some when }) := by
  have hsum : v.head.header + v.head.klen + v.head.vlen =
      (header v ++ v.key ++ v.value).length := by simp [View.head, Nat.add_assoc]
  have hhead : header { v with expiry := some when } = header v := by simp [header, he]
  have henc : encode v = header v ++ v.key ++ v.value ++ (u32Bytes was ++ trail v.userFlags) := by
    simp [encode, he, trail]
  have hput := put_fill (header v ++ v.key ++ v.value) (u32Bytes was ++ trail v.userFlags)
    (u32Bytes when)
  rw [if_pos (by simp)] at hput
  obtain ⟨into, hs, hc⟩ := bind_ok_iff.mp hput
  rw [hsum, henc]
  have hinto := (Prod.mk.inj (Except.ok.inj hc)).1
  simp only at hs
  rw [hs, hinto, encode, hhead]
  simp [trail]

end Rugo.Entry
