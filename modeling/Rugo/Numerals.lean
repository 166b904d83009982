import Mathlib.Data.List.Induction
import Rugo.Resp

/- Decimal numerals. `spelt n` is the digits of `n`, the first one first, and `reads`
   what a numeral comes to, read on from a number already read. A numeral that does
   not begin with a nought is the spelling of what it comes to. -/
namespace Rugo
open Resp

/-- The digits of a number, the first one first. -/
def spelt (n : Nat) : List UInt8 := (Encoder.digitsOf n).reverse

/-- A numeral, read on from `value`. -/
def reads : List UInt8 → Nat → Nat
  | [], value => value
  | byte :: rest, value => reads rest (value * 10 + (byte.toNat - 48))

/-- Nothing but digits. -/
def Numeral (text : List UInt8) : Prop := ∀ byte ∈ text, 48 ≤ byte.toNat ∧ byte.toNat ≤ 57

instance (text : List UInt8) : Decidable (Numeral text) :=
  List.decidableBAll (fun byte : UInt8 => 48 ≤ byte.toNat ∧ byte.toNat ≤ 57) text

theorem isDigit_iff {byte : UInt8} : isDigit byte = true ↔ 48 ≤ byte.toNat ∧ byte.toNat ≤ 57 := by
  rw [isDigit, decide_eq_true_iff]

theorem digit_toNat {n : Nat} (h : n < 10) : (UInt8.ofNat (48 + n)).toNat = 48 + n := by
  rw [UInt8.toNat_ofNat']
  omega

theorem spelt_one {n : Nat} (h : n < 10) : spelt n = [UInt8.ofNat (48 + n)] := by
  rw [spelt, Encoder.digitsOf, if_pos h, List.reverse_singleton]

theorem spelt_more {n : Nat} (h : ¬ n < 10) : spelt n = spelt (n / 10) ++ [UInt8.ofNat (48 + n % 10)] := by
  rw [spelt, Encoder.digitsOf, if_neg h, List.reverse_cons, spelt]

theorem spelt_cases (n : Nat) : (n < 10 ∧ spelt n = [UInt8.ofNat (48 + n)]) ∨
    (10 ≤ n ∧ spelt n = spelt (n / 10) ++ [UInt8.ofNat (48 + n % 10)]) := by
  by_cases h : n < 10
  · exact .inl ⟨h, spelt_one h⟩
  · exact .inr ⟨by omega, spelt_more h⟩

theorem spelt_numeral (n : Nat) : Numeral (spelt n) := by
  induction n using Nat.strong_induction_on with
  | _ n ih =>
    intro byte hbyte
    obtain ⟨hlt, heq⟩ | ⟨hge, heq⟩ := spelt_cases n
    · rw [heq, List.mem_singleton] at hbyte
      rw [hbyte, digit_toNat hlt]
      omega
    · rw [heq, List.mem_append, List.mem_singleton] at hbyte
      obtain hbyte | hbyte := hbyte
      · exact ih (n / 10) (by omega) byte hbyte
      · rw [hbyte, digit_toNat (Nat.mod_lt n (by omega))]
        omega

theorem spelt_ne_nil (n : Nat) : spelt n ≠ [] := by
  obtain ⟨-, heq⟩ | ⟨-, heq⟩ := spelt_cases n
  · simp [heq]
  · simp [heq]

/-! ## Reading -/

theorem reads_append (text : List UInt8) (more : List UInt8) (value : Nat) :
    reads (text ++ more) value = reads more (reads text value) := by
  induction text generalizing value with
  | nil => rfl
  | cons byte text ih => exact ih _

theorem le_reads (text : List UInt8) (value : Nat) : value ≤ reads text value := by
  induction text generalizing value with
  | nil => exact Nat.le_refl value
  | cons byte text ih =>
    calc value ≤ value * 10 + (byte.toNat - 48) := by omega
      _ ≤ reads text (value * 10 + (byte.toNat - 48)) := ih _

theorem reads_spelt (n : Nat) : reads (spelt n) 0 = n := by
  induction n using Nat.strong_induction_on with
  | _ n ih =>
    obtain ⟨hlt, heq⟩ | ⟨hge, heq⟩ := spelt_cases n
    · rw [heq]
      show 0 * 10 + ((UInt8.ofNat (48 + n)).toNat - 48) = n
      rw [digit_toNat hlt]
      omega
    · rw [heq, reads_append, ih (n / 10) (by omega)]
      show n / 10 * 10 + ((UInt8.ofNat (48 + n % 10)).toNat - 48) = n
      rw [digit_toNat (Nat.mod_lt n (by omega))]
      omega

theorem spelt_inj {a b : Nat} (h : spelt a = spelt b) : a = b := by
  calc a = reads (spelt a) 0 := (reads_spelt a).symm
    _ = reads (spelt b) 0 := by rw [h]
    _ = b := reads_spelt b

/-- A numeral that does not begin with a nought comes to something. -/
theorem reads_pos {text : List UInt8} (hnumeral : Numeral text) (hne : text ≠ []) (hlead : text.head? ≠ some 48) :
    0 < reads text 0 := by
  cases text with
  | nil => exact absurd rfl hne
  | cons byte text =>
    have hbyte := hnumeral byte List.mem_cons_self
    have hnought : byte.toNat ≠ 48 := by
      intro heq
      apply hlead
      show some byte = some 48
      rw [show byte = 48 from UInt8.toNat_inj.mp heq]
    calc 0 < 0 * 10 + (byte.toNat - 48) := by omega
      _ ≤ reads text (0 * 10 + (byte.toNat - 48)) := le_reads text _

/-- A numeral with no nought before its other digits is the spelling of what it comes
to. -/
theorem spelt_reads {text : List UInt8} (hnumeral : Numeral text) (hne : text ≠ [])
    (hlead : text.length = 1 ∨ text.head? ≠ some 48) : spelt (reads text 0) = text := by
  induction text using List.reverseRecOn with
  | nil => exact absurd rfl hne
  | append_singleton text byte ih =>
    have hbyte := hnumeral byte (by simp)
    have hlast : ∀ m, reads [byte] m = m * 10 + (byte.toNat - 48) := fun m => rfl
    have hspelt : UInt8.ofNat (48 + (byte.toNat - 48)) = byte := by
      rw [show 48 + (byte.toNat - 48) = byte.toNat by omega, UInt8.ofNat_toNat]
    rw [reads_append, hlast]
    by_cases hnil : text = []
    · rw [hnil]
      show spelt (0 * 10 + (byte.toNat - 48)) = [byte]
      rw [spelt_one (by omega), show 48 + (0 * 10 + (byte.toNat - 48)) = 48 + (byte.toNat - 48) by omega, hspelt]
    · have hhead : text.head? ≠ some 48 := by
        obtain hone | hhead := hlead
        · rw [List.length_append, List.length_singleton] at hone
          exact absurd (List.length_eq_zero_iff.mp (by omega)) hnil
        · rw [List.head?_append_of_ne_nil text hnil] at hhead
          exact hhead
      have hfirst : Numeral text := fun b hb => hnumeral b (List.mem_append_left _ hb)
      have hpos := reads_pos hfirst hnil hhead
      rw [spelt_more (by omega), show (reads text 0 * 10 + (byte.toNat - 48)) / 10 = reads text 0 by omega,
        ih hfirst hnil (.inr hhead), show (reads text 0 * 10 + (byte.toNat - 48)) % 10 = byte.toNat - 48 by omega,
        hspelt]

theorem spelt_lead (n : Nat) : (spelt n).length = 1 ∨ (spelt n).head? ≠ some 48 := by
  induction n using Nat.strong_induction_on with
  | _ n ih =>
    obtain ⟨hlt, heq⟩ | ⟨hge, heq⟩ := spelt_cases n
    · left
      rw [heq]
      rfl
    · right
      rw [heq, List.head?_append_of_ne_nil _ (spelt_ne_nil (n / 10))]
      obtain ⟨hlt', heq'⟩ | ⟨hge', heq'⟩ := spelt_cases (n / 10)
      · rw [heq']
        show some (UInt8.ofNat (48 + n / 10)) ≠ some 48
        intro h
        have hnought := congrArg UInt8.toNat (Option.some.inj h)
        rw [digit_toNat hlt'] at hnought
        have hvalue : (48 : UInt8).toNat = 48 := rfl
        omega
      · obtain hone | hlead := ih (n / 10) (by omega)
        · have hne := spelt_ne_nil (n / 10 / 10)
          rw [heq', List.length_append, List.length_singleton] at hone
          exact absurd (List.length_eq_zero_iff.mp (by omega)) hne
        · exact hlead

theorem spelt_head {n : Nat} (h : 0 < n) : (spelt n).head? ≠ some 48 := by
  intro hhead
  obtain hone | hlead := spelt_lead n
  · obtain ⟨byte, hbyte⟩ := List.length_eq_one_iff.mp hone
    rw [hbyte] at hhead
    have hnought : spelt n = spelt 0 := by
      rw [hbyte, Option.some.inj hhead, spelt_one (by decide)]
      rfl
    have hzero := spelt_inj hnought
    omega
  · exact hlead hhead

theorem spelt_length {n k : Nat} (h : n < 10 ^ (k + 1)) : (spelt n).length ≤ k + 1 := by
  induction k generalizing n with
  | zero =>
    rw [spelt_one (by omega)]
    exact Nat.le_refl 1
  | succ k ih =>
    obtain ⟨-, heq⟩ | ⟨-, heq⟩ := spelt_cases n
    · rw [heq]
      exact Nat.le_add_left 1 _
    · have hdiv : n / 10 < 10 ^ (k + 1) := by
        apply Nat.div_lt_of_lt_mul
        rw [Nat.pow_succ, Nat.mul_comm] at h
        exact h
      rw [heq, List.length_append, List.length_singleton]
      exact Nat.succ_le_succ (ih hdiv)

/-! ## Read into a word -/

/-- Digits are summed only as far as the range goes, and nothing else is. -/
theorem Resp.digitsFrom_cases (text : List UInt8) {value : Nat} (hvalue : value < 2 ^ 63) :
    (Numeral text ∧ reads text value < 2 ^ 63 ∧ digitsFrom text value = .ok (reads text value : Int)) ∨
      (¬ (Numeral text ∧ reads text value < 2 ^ 63) ∧ digitsFrom text value = .error .notANumber) := by
  induction text generalizing value with
  | nil => exact .inl ⟨nofun, hvalue, rfl⟩
  | cons byte text ih =>
    have hmin : Signed.i64Min = -2 ^ 63 := rfl
    have hmax : Signed.i64Max = 2 ^ 63 - 1 := rfl
    rw [digitsFrom]
    by_cases hbyte : 48 ≤ byte.toNat ∧ byte.toNat ≤ 57
    · have hcons : Numeral (byte :: text) ↔ Numeral text :=
        ⟨fun h b hb => h b (List.mem_cons_of_mem _ hb), fun h => List.forall_mem_cons.mpr ⟨hbyte, h⟩⟩
      rw [isDigit_iff.mpr hbyte, hcons, reads]
      simp only [Bool.not_true, Bool.false_eq_true, if_false]
      by_cases hfits : value * 10 + (byte.toNat - 48) < 2 ^ 63
      · have hmul : Signed.checkedMul (value : Int) 10 = some ((value : Int) * 10) :=
          Signed.fit_eq_some.mpr ⟨rfl, by omega, by omega⟩
        have hadd : Signed.checkedAdd ((value : Int) * 10) (byte.toNat - 48) =
            some ((value * 10 + (byte.toNat - 48) : Nat) : Int) :=
          Signed.fit_eq_some.mpr ⟨by omega, by omega, by omega⟩
        simp only [hmul, Option.bind_some, hadd]
        exact ih hfits
      · -- one of the two steps leaves the range, and reading on would not bring it back
        have hle := le_reads text (value * 10 + (byte.toNat - 48))
        have hnone : (Signed.checkedMul (value : Int) 10).bind (Signed.checkedAdd · (byte.toNat - 48)) = none := by
          rw [Option.bind_eq_none_iff]
          intro product hmul
          obtain ⟨rfl, -⟩ := Signed.fit_eq_some.mp hmul
          rw [Signed.checkedAdd, Signed.fit, if_neg]
          omega
        simp only [hnone]
        exact .inr ⟨fun h => by omega, trivial⟩
    · rw [Bool.eq_false_iff.mpr (fun h => hbyte (isDigit_iff.mp h))]
      exact .inr ⟨fun h => hbyte (h.1 byte List.mem_cons_self), by rw [Bool.not_false, if_pos rfl]⟩

end Rugo
