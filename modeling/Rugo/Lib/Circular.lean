import Mathlib.Data.List.Rotate
import Mathlib.Data.Nat.Bits
import Mathlib.Tactic.Ring

/- A ring of slots between a counter that reads and one that writes. Both counters
   only ever grow; a slot is the counter modulo the size. `window slots start len`
   is what lies between them, oldest first: it grows at the end by the slot past
   it, unless the ring is full, and shrinks at the front. `Tail` says of a log of
   everything ever written that its end is in the ring.

   The counters themselves are words that wrap. With a size that is a power of
   two no larger than the word's range, masking the word finds the slot, and the
   wrapped difference of two words is the number of slots between them as long as
   that is less than the range. -/
namespace Circular

section window
variable {α : Type*} {slots : List α} {len : Nat}

/-- The `len` slots from counter `start` on. -/
def window (slots : List α) (start len : Nat) : List α := (slots.rotate start).take len

theorem window_length (h : len ≤ slots.length) (start : Nat) : (window slots start len).length = len := by
  rw [window, List.length_take, List.length_rotate, Nat.min_eq_left h]

theorem window_zero (slots : List α) (start : Nat) : window slots start 0 = [] := rfl

theorem window_getElem? (h : len ≤ slots.length) (start : Nat) {i : Nat} (hi : i < len) :
    (window slots start len)[i]? = slots[(start + i) % slots.length]? := by
  rw [window, List.getElem?_take_of_lt hi, List.getElem?_rotate (Nat.lt_of_lt_of_le hi h), Nat.add_comm]

/-- Counters less than a ring apart are in different slots. -/
theorem slot_ne {size i j : Nat} (hij : i < j) (hj : j < i + size) : i % size ≠ j % size := by
  intro heq
  have hmod : (j - i) % size = 0 := Nat.sub_mod_eq_zero_of_mod_eq heq.symm
  rw [Nat.mod_eq_of_lt (by omega)] at hmod
  omega

theorem window_set_out (h : len ≤ slots.length) {start at_ : Nat} (hat : start + len ≤ at_)
    (hlt : at_ < start + slots.length)
    (a : α) : window (slots.set (at_ % slots.length) a) start len = window slots start len := by
  apply List.ext_getElem?
  intro i
  by_cases hi : i < len
  · have hne : at_ % slots.length ≠ (start + i) % slots.length :=
      (slot_ne (show start + i < at_ by omega) (by omega)).symm
    rw [window_getElem? h _ hi, window_getElem? (by rw [List.length_set]; exact h) _ hi, List.length_set,
      List.getElem?_set_ne hne]
  · rw [List.getElem?_eq_none, List.getElem?_eq_none]
    · rw [window_length h]
      exact Nat.not_lt.mp hi
    · rw [window_length (by rw [List.length_set]; exact h)]
      exact Nat.not_lt.mp hi

theorem window_succ (h : len < slots.length) (start : Nat) : ∃ a, slots[start % slots.length]? = some a ∧
    window slots start (len + 1) = a :: window slots (start + 1) len := by
  have hlt : start % slots.length < slots.length := Nat.mod_lt _ (by omega)
  refine ⟨slots[start % slots.length], List.getElem?_eq_getElem hlt, ?_⟩
  apply List.ext_getElem?
  intro i
  cases i with
  | zero =>
    rw [window_getElem? h _ (Nat.succ_pos _), Nat.add_zero, List.getElem?_eq_getElem hlt]
    rfl
  | succ i =>
    rw [List.getElem?_cons_succ]
    by_cases hi : i < len
    · rw [window_getElem? h _ (Nat.succ_lt_succ hi), window_getElem? (Nat.le_of_lt h) _ hi]
      apply congrArg fun j => slots[j % slots.length]?
      omega
    · rw [List.getElem?_eq_none, List.getElem?_eq_none]
      · rw [window_length (Nat.le_of_lt h)]
        exact Nat.not_lt.mp hi
      · rw [window_length h]
        omega

theorem window_add {k : Nat} (h : k + len ≤ slots.length) (start : Nat) :
    window slots start (k + len) = window slots start k ++ window slots (start + k) len := by
  induction k generalizing start with
  | zero => rw [Nat.zero_add, window_zero, List.nil_append, Nat.add_zero]
  | succ k ih =>
    obtain ⟨a, ha, hall⟩ := window_succ (show k + len < slots.length by omega) start
    obtain ⟨b, hb, hfirst⟩ := window_succ (show k < slots.length by omega) start
    rw [ha, Option.some.injEq] at hb
    rw [Nat.add_right_comm k 1 len, hall, hfirst, ih (by omega) (start + 1), hb, List.cons_append]
    apply congrArg fun at_ => b :: (window slots (start + 1) k ++ window slots at_ len)
    omega

theorem window_put (h : len < slots.length) (start : Nat) (a : α) :
    window (slots.set ((start + len) % slots.length) a) start (len + 1) = window slots start len ++ [a] := by
  have hset : (slots.set ((start + len) % slots.length) a).length = slots.length := List.length_set
  have hlt : (start + len) % slots.length < slots.length := Nat.mod_lt _ (by omega)
  rw [window_add (by rw [hset]; exact h), window_set_out (Nat.le_of_lt h) (Nat.le_refl _) (by omega)]
  apply congrArg (window slots start len ++ ·)
  have hpos : 0 < (slots.set ((start + len) % slots.length) a).length := by
    rw [hset]
    omega
  obtain ⟨b, hb, hone⟩ := window_succ hpos (start + len)
  rw [hset, List.getElem?_set_self hlt, Option.some.injEq] at hb
  rw [hone, hb]
  rfl

end window

/-! ## The end of a log -/

section log
variable {α : Type*} {slots log : List α} {c n : Nat}

/-- A log from its entry `c` on, in the ring. -/
def Tail (slots log : List α) (c : Nat) : Prop := log.drop c = window slots c (log.length - c)

theorem Tail.read (h : Tail slots log c) (hsize : log.length - c ≤ slots.length) (hn : c ≤ n) (hlt : n < log.length) :
    slots[n % slots.length]? = log[n]? := by
  have hwindow := window_getElem? hsize c (show n - c < log.length - c by omega)
  rw [← h, List.getElem?_drop, Nat.add_sub_cancel' hn] at hwindow
  exact hwindow.symm

theorem Tail.push (h : Tail slots log c) (hc : c ≤ log.length) (hroom : log.length - c < slots.length) (a : α) :
    Tail (slots.set (log.length % slots.length) a) (log ++ [a]) c := by
  have hlength : (log ++ [a]).length - c = log.length - c + 1 := by
    rw [List.length_append, List.length_singleton, Nat.succ_sub hc]
  calc (log ++ [a]).drop c = log.drop c ++ [a] := List.drop_append_of_le_length hc
    _ = window slots c (log.length - c) ++ [a] := by rw [h]
    _ = window (slots.set ((c + (log.length - c)) % slots.length) a) c (log.length - c + 1) :=
      (window_put hroom c a).symm
    _ = window (slots.set (log.length % slots.length) a) c ((log ++ [a]).length - c) := by
      rw [Nat.add_sub_cancel' hc, hlength]

theorem Tail.dropLast (h : Tail slots log c) (hsize : log.length - c ≤ slots.length) (hc : c < log.length) :
    Tail slots log.dropLast c := by
  obtain ⟨m, hm⟩ : ∃ m, log.length - c = m + 1 := ⟨log.length - c - 1, by omega⟩
  have hshort : log.length - 1 - c = m := by omega
  calc log.dropLast.drop c = (log.drop c).take m := by rw [List.dropLast_eq_take, List.drop_take, hshort]
    _ = (window slots c m ++ window slots (c + m) 1).take m := by rw [h, hm, window_add (by omega)]
    _ = window slots c m := List.take_left' (window_length (by omega) c)
    _ = window slots c (log.dropLast.length - c) := by rw [List.length_dropLast, hshort]

theorem Tail.first (h : Tail slots log c) (hsize : log.length - c ≤ slots.length) (hn : c + n ≤ log.length) :
    log.take (c + n) = log.take c ++ window slots c n := by
  obtain ⟨rest, hrest⟩ : ∃ rest, log.length - c = n + rest := ⟨log.length - c - n, by omega⟩
  calc log.take (c + n) = log.take c ++ (log.drop c).take n := List.take_add
    _ = log.take c ++ (window slots c n ++ window slots (c + n) rest).take n := by rw [h, hrest, window_add (by omega)]
    _ = log.take c ++ window slots c n := by rw [List.take_left' (window_length (by omega) c)]

theorem Tail.pop (h : Tail slots log c) (hsize : log.length - c ≤ slots.length) (hn : c + n ≤ log.length) :
    Tail slots log (c + n) := by
  have hsplit : log.length - c = n + (log.length - (c + n)) := by omega
  calc log.drop (c + n) = (log.drop c).drop n := List.drop_drop.symm
    _ = (window slots c n ++ window slots (c + n) (log.length - (c + n))).drop n := by
      rw [h, hsplit, window_add (by omega)]
    _ = window slots (c + n) (log.length - (c + n)) := List.drop_left' (window_length (by omega) c)

end log

/-! ## Counters that wrap -/

section counters

theorem toNat_counter (c : Nat) : (UInt32.ofNat c).toNat = c % 2 ^ 32 := UInt32.toNat_ofNat'

theorem counter_succ (c : Nat) : UInt32.ofNat c + 1 = UInt32.ofNat (c + 1) := (UInt32.ofNat_add c 1).symm

theorem counter_slot {mask : UInt32} {size k : Nat} (hsize : size = 2 ^ k) (hk : k ≤ 32) (hmask : mask.toNat = size - 1)
    (c : Nat) : (UInt32.ofNat c &&& mask).toNat = c % size := by
  rw [UInt32.toNat_and, hmask, hsize, Nat.and_two_pow_sub_one_eq_mod, toNat_counter,
    Nat.mod_mod_of_dvd _ (Nat.pow_dvd_pow 2 hk)]

/-- The difference of two counters, wrapped or not. -/
theorem counter_sub {h t : Nat} (hle : h ≤ t) (hlt : t - h < 2 ^ 32) :
    (UInt32.ofNat t - UInt32.ofNat h).toNat = t - h := by
  rw [← UInt32.ofNat_sub hle, toNat_counter, Nat.mod_eq_of_lt hlt]

/-- Counters less than the word's range apart are one if their words are. -/
theorem counter_inj {h t : Nat} (hle : h ≤ t) (hlt : t - h < 2 ^ 32) : UInt32.ofNat h = UInt32.ofNat t ↔ h = t := by
  constructor
  · intro heq
    have hsub := counter_sub hle hlt
    rw [heq, UInt32.sub_self] at hsub
    have hzero : (0 : UInt32).toNat = 0 := rfl
    omega
  · exact congrArg UInt32.ofNat

end counters
end Circular
