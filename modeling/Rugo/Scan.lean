import Rugo.Lib.Lanes
import Rugo.RespPrefix

/- The wide newline scan (`scan` of `rugo-resp/src/lib.rs`): a word at a time while a
   whole one is left, a byte at a time over the rest. A word is exclusive-ored with
   newlines, and the lane that is left with nothing is found by the subtraction of
   `Lanes`.

     1. `found_eq`: the lowest lane lit in a word is its first newline.
     2. `scan_newline`: the scan answers what `newline` does. -/
namespace Rugo.Resp
open Exec Words Lanes

/-- How wide the machine's words are. -/
inductive Usize where
  | bits32
  | bits64
  deriving DecidableEq, Repr

/-- `size_of::<usize>()`. -/
def Usize.step : Usize → Nat
  | bits32 => 4
  | bits64 => 8

/-- Bytes put into a word one by one, the next one being number `n`. -/
def gather {w : Nat} : List UInt8 → Nat → BitVec w → BitVec w
  | [], _, word => word
  | byte :: rest, n, word => gather rest (n + 1) (word ||| BitVec.ofNat w byte.toNat <<< (n * 8))

/-- What the subtraction leaves of a word: the lowest bit is the first newline's. -/
def found (usize : Usize) (bytes : List UInt8) : BitVec (8 * usize.step) :=
  let word : BitVec (8 * usize.step) := gather bytes 0 0#(8 * usize.step)
  -- a newline's lane is left with nothing
  let hit := word ^^^ (ones (8 * usize.step) * BitVec.ofNat (8 * usize.step) (10 : UInt8).toNat)
  (hit - ones (8 * usize.step)) &&& ~~~hit &&& highs (8 * usize.step)

def scanFrom (usize : Usize) (from_ : List UInt8) : Nat → Nat → Exec (Option Nat)
  | 0, _ => .error .spin
  | fuel + 1, at_ =>
    -- words while a whole one is left, then bytes
    if at_ + usize.step ≤ from_.length then do
      let bytes ← slice from_ at_ (at_ + usize.step)
      if found usize bytes ≠ 0#(8 * usize.step) then pure (some (at_ + trailingZeros (found usize bytes) / 8))
      else scanFrom usize from_ fuel (at_ + usize.step)
    else do
      let tail ← slice from_ at_ from_.length
      pure ((newline tail).map fun n => at_ + n)

/-- Where the first newline in `from_` is, read a machine word at a time. -/
def scan (usize : Usize) (from_ : List UInt8) : Exec (Option Nat) := scanFrom usize from_ (from_.length + 1) 0

/-! ## One word -/

theorem gather_eq {w : Nat} (bytes : List UInt8) (n : Nat) (m : BitVec w) :
    gather bytes n m = m ||| word w bytes <<< (n * 8) := by
  induction bytes generalizing n m with
  | nil => simp [gather, word, leValue]
  | cons byte bytes ih =>
    calc gather (byte :: bytes) n m
        = (m ||| BitVec.ofNat w byte.toNat <<< (n * 8)) ||| word w bytes <<< ((n + 1) * 8) := ih _ _
      _ = m ||| (BitVec.ofNat w byte.toNat ||| word w bytes <<< 8) <<< (n * 8) := by
        rw [BitVec.shiftLeft_or_distrib, ← BitVec.shiftLeft_add, BitVec.or_assoc,
          show 8 + n * 8 = (n + 1) * 8 by omega]
      _ = m ||| word w (byte :: bytes) <<< (n * 8) := by rw [word_cons]

/-- The lowest lane lit in a word is its first newline. -/
theorem found_eq (usize : Usize) {bytes : List UInt8} (h : bytes.length = usize.step) :
    newline bytes = if found usize bytes = 0#(8 * usize.step) then none
      else some (trailingZeros (found usize bytes) / 8) := by
  have hword : found usize bytes = trick (word (8 * usize.step) (bytes.map (· ^^^ 10))) := by
    rw [found, gather_eq, ones_mul]
    simp only [Nat.zero_mul, BitVec.shiftLeft_zero, BitVec.zero_or, word_xor h]
    rfl
  have hlanes : (bytes.map (· ^^^ 10)).length = usize.step := by rw [List.length_map, h]
  have hlowest := trick_lowest hlanes
  rw [hword, ← hlowest, newline, List.findIdx?_map]
  apply congrArg fun test => bytes.findIdx? test
  funext byte
  show (byte == 10) = (byte ^^^ 10 == 0)
  rw [Bool.eq_iff_iff, beq_iff_eq, beq_iff_eq, UInt8.xor_eq_zero_iff]

/-! ## The whole slice -/

theorem scanFrom_eq (usize : Usize) (from_ : List UInt8) {fuel at_ : Nat} (hat : at_ ≤ from_.length)
    (hfuel : from_.length - at_ < fuel) :
    scanFrom usize from_ fuel at_ = .ok ((newline (from_.drop at_)).map fun n => at_ + n) := by
  have hstep : 0 < usize.step := by cases usize <;> decide
  induction fuel generalizing at_ with
  | zero => exact absurd hfuel (Nat.not_lt_zero _)
  | succ fuel ih =>
    rw [scanFrom]
    by_cases hroom : at_ + usize.step ≤ from_.length
    · have htake : (from_.drop at_).take (at_ + usize.step - at_) = (from_.drop at_).take usize.step := by
        rw [Nat.add_sub_cancel_left]
      have hlength : ((from_.drop at_).take usize.step).length = usize.step := by
        rw [List.length_take, List.length_drop]
        omega
      have hsplit : from_.drop at_ = (from_.drop at_).take usize.step ++ from_.drop (at_ + usize.step) := by
        rw [← List.drop_drop, List.take_append_drop]
      have hone := found_eq usize hlength
      rw [if_pos hroom, slice_ok (Nat.le_add_right _ _) hroom, ok_bind, htake]
      conv_rhs => rw [hsplit, newline, List.findIdx?_append]
      rw [newline] at hone
      rw [hone]
      by_cases hdark : found usize ((from_.drop at_).take usize.step) = 0#(8 * usize.step)
      · -- no newline in this word: the rest is scanned, and its places are counted from here
        rw [if_neg (not_not.mpr hdark), if_pos hdark, ih hroom (by omega), hlength, newline, Option.none_or,
          Option.map_map]
        congr 2
        funext n
        show at_ + usize.step + n = at_ + (n + usize.step)
        omega
      · rw [if_pos hdark, if_neg hdark]
        rfl
    · rw [if_neg hroom, slice_ok hat (Nat.le_refl _), ok_bind, ← List.length_drop, List.take_length]
      rfl

/-- The wide scan answers what the plain one does. -/
theorem scan_newline (usize : Usize) (from_ : List UInt8) : scan usize from_ = .ok (newline from_) := by
  rw [scan, scanFrom_eq usize from_ (Nat.zero_le _) (by omega), List.drop_zero]
  cases newline from_ with
  | none => rfl
  | some n => rw [Option.map_some, Nat.zero_add]

end Rugo.Resp
