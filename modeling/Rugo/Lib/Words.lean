import Mathlib.Data.List.Basic
import Mathlib.Tactic.Ring

/- Little-endian words. `leBytes n x` is `x` in `n` bytes, least significant
   first, and `leValue` reads any run of bytes back as a number: of a word that
   fits, the word, at every width. -/
namespace Words

def leBytes : Nat → Nat → List UInt8
  | 0, _ => []
  | n + 1, x => UInt8.ofNat x :: leBytes n (x / 256)

def leValue : List UInt8 → Nat
  | [] => 0
  | b :: bs => b.toNat + 256 * leValue bs

@[simp] theorem leBytes_length (n x : Nat) : (leBytes n x).length = n := by
  induction n generalizing x with
  | zero => rfl
  | succ n ih => simp [leBytes, ih]

theorem leValue_leBytes (n x : Nat) : leValue (leBytes n x) = x % 256 ^ n := by
  induction n generalizing x with
  | zero => simp [leBytes, leValue, Nat.mod_one]
  | succ n ih =>
    have hb : (UInt8.ofNat x).toNat = x % 256 := UInt8.toNat_ofNat'
    rw [leBytes, leValue, ih, hb, Nat.pow_succ, Nat.mul_comm (256 ^ n) 256, Nat.mod_mul]

/-- A property of bytes is checked on the 256 of them. -/
theorem forall_byte {P : UInt8 → Prop} (h : ∀ n : Fin 256, P (UInt8.ofNat n)) (b : UInt8) : P b := by
  have := h ⟨b.toNat, b.toNat_lt⟩
  rwa [show UInt8.ofNat (⟨b.toNat, b.toNat_lt⟩ : Fin 256) = b from UInt8.ofNat_toNat] at this

/-- The top bit of a byte. -/
theorem and80_eq_zero (b : UInt8) : b &&& 0x80 = 0 ↔ b.toNat < 128 :=
  forall_byte (P := fun b => b &&& 0x80 = 0 ↔ b.toNat < 128) (by decide +kernel) b

/-- A 32-bit word as its four bytes. -/
def u32Bytes (w : UInt32) : List UInt8 := leBytes 4 w.toNat

/-- The 32-bit word four bytes spell. -/
def u32OfBytes (bs : List UInt8) : UInt32 := UInt32.ofNat (leValue bs)

@[simp] theorem u32Bytes_length (w : UInt32) : (u32Bytes w).length = 4 := leBytes_length _ _

@[simp] theorem u32OfBytes_u32Bytes (w : UInt32) : u32OfBytes (u32Bytes w) = w := by
  have hw := w.toNat_lt
  apply UInt32.toNat_inj.mp
  rw [u32OfBytes, u32Bytes, leValue_leBytes, UInt32.toNat_ofNat']
  omega

end Words
