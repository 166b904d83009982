import Rugo.Decimals
import Rugo.Pipelines

/- Integers on the wire. `Spells` is what a signed decimal says, with no bound on it, and
   `integer` what the reader makes of one. The digits are summed before the sign is put
   on, so the number with no positive counterpart is one it cannot reach; the writer goes
   by the absolute value, and prints it.

     1. `number_ok_iff`: what is read is what is spelt, where the digits alone fit.
     2. `integer_reads_iff`: a text is read as it should be unless it spells the least
        number there is, and a number is read back unless it is that one. -/
namespace Rugo.Resp
open Exec Signed

/-- Read a signed decimal out of a client's argument. -/
def integer (text : List UInt8) : Except Bad Int := number text

/-- Write a decimal behind `out`, out of a buffer of twenty bytes. -/
def Encoder.numberOnto (out : List UInt8) (value : Int) : Exec (List UInt8) := do
  let (at_, digits) ← digitsLoop value.natAbs 20 (List.replicate 20 0)
  let out := if value < 0 then out ++ [45] else out
  let digits ← slice digits at_ digits.length
  pure (out ++ digits)

theorem Encoder.numberOnto_eq (out : List UInt8) {v : Int} (h : i64Min ≤ v ∧ v ≤ i64Max) :
    Encoder.numberOnto out v = .ok (out ++ Encoder.number v) := by
  have hspelt : (spelt v.natAbs).length ≤ 18 + 1 := spelt_length (natAbs_lt h)
  obtain ⟨buf, hloop, hlen, hdrop⟩ := digitsLoop_ok v.natAbs
    (show (List.replicate 20 (0 : UInt8)).drop 20 = [] by simp) (by simp) (by omega)
  rw [List.length_replicate] at hlen
  rw [List.append_nil] at hdrop
  have htake : (buf.drop (20 - (spelt v.natAbs).length)).take (buf.length - (20 - (spelt v.natAbs).length)) =
      spelt v.natAbs := by
    rw [← List.length_drop, List.take_length, hdrop]
  rw [Encoder.numberOnto, hloop]
  simp only [ok_bind, pure_ok, slice_ok (show 20 - (spelt v.natAbs).length ≤ buf.length by omega) (Nat.le_refl _),
    htake]
  rw [show Encoder.number v = (if v < 0 then [45] else []) ++ spelt v.natAbs from rfl]
  split
  · rw [List.append_assoc]
  · rw [List.nil_append]

/-! ## What a signed decimal says -/

/-- An optional sign and one digit or more, and the number they are. -/
inductive Spells : List UInt8 → Int → Prop
  | plain {digits} : Numeral digits → digits ≠ [] → Spells digits (reads digits 0)
  | plus {digits} : Numeral digits → digits ≠ [] → Spells (43 :: digits) (reads digits 0)
  | minus {digits} : Numeral digits → digits ≠ [] → Spells (45 :: digits) (-(reads digits 0 : Int))

theorem signed_cases (text : List UInt8) : (∃ rest, text = 45 :: rest ∧ signed text = (true, rest)) ∨
    (∃ rest, text = 43 :: rest ∧ signed text = (false, rest)) ∨ signed text = (false, text) := by
  rw [signed.eq_def]
  split
  · exact .inl ⟨_, rfl, rfl⟩
  · exact .inr (.inl ⟨_, rfl, rfl⟩)
  · exact .inr (.inr rfl)

theorem spells_iff {text : List UInt8} {v : Int} : Spells text v ↔
    Numeral (signed text).2 ∧ (signed text).2 ≠ [] ∧
      v = if (signed text).1 then -(reads (signed text).2 0 : Int) else reads (signed text).2 0 := by
  constructor
  · intro h
    cases h with
    | plain hnumeral hne =>
      rw [signed_numeral hnumeral]
      exact ⟨hnumeral, hne, rfl⟩
    | plus hnumeral hne => exact ⟨hnumeral, hne, rfl⟩
    | minus hnumeral hne => exact ⟨hnumeral, hne, rfl⟩
  · intro ⟨hnumeral, hne, hv⟩
    subst hv
    obtain ⟨rest, rfl, heq⟩ | ⟨rest, rfl, heq⟩ | heq := signed_cases text
    · rw [heq] at hnumeral hne ⊢
      exact .minus hnumeral hne
    · rw [heq] at hnumeral hne ⊢
      exact .plus hnumeral hne
    · rw [heq] at hnumeral hne ⊢
      exact .plain hnumeral hne

theorem Spells.unique {text : List UInt8} {v w : Int} (h : Spells text v) (h' : Spells text w) : v = w :=
  (spells_iff.mp h).2.2.trans (spells_iff.mp h').2.2.symm

theorem spells_number (v : Int) : Spells (Encoder.number v) v := by
  rw [show Encoder.number v = (if v < 0 then [45] else []) ++ spelt v.natAbs from rfl]
  have hnumeral := spelt_numeral v.natAbs
  have hne := spelt_ne_nil v.natAbs
  have hreads := reads_spelt v.natAbs
  split
  · have h := Spells.minus hnumeral hne
    rw [hreads, show -(v.natAbs : Int) = v by omega] at h
    exact h
  · have h := Spells.plain hnumeral hne
    rw [hreads, show (v.natAbs : Int) = v by omega] at h
    exact h

/-! ## What is read -/

/-- What is read is what is spelt, where the digits alone fit; nothing else is read, and
there is one error for it. -/
theorem number_cases (text : List UInt8) :
    (∃ v, Spells text v ∧ reads (signed text).2 0 < 2 ^ 63 ∧ number text = .ok v) ∨
      ((∀ v, Spells text v → ¬ reads (signed text).2 0 < 2 ^ 63) ∧ number text = .error .notANumber) := by
  by_cases hne : (signed text).2 = []
  · refine .inr ⟨fun v h => absurd hne (spells_iff.mp h).2.1, ?_⟩
    rw [number, show signed text = ((signed text).1, (signed text).2) from rfl, hne]
    rfl
  · have hempty : (signed text).2.isEmpty = false := List.isEmpty_eq_false_iff.mpr hne
    obtain ⟨hnumeral, hfits, hdigits⟩ | ⟨hnot, hdigits⟩ := digitsFrom_cases (signed text).2 (show 0 < 2 ^ 63 by decide)
    · refine .inl ⟨_, spells_iff.mpr ⟨hnumeral, hne, rfl⟩, hfits, ?_⟩
      rw [number]
      simp only [hempty, Bool.false_eq_true, if_false]
      rw [show digitsFrom (signed text).2 0 = _ from hdigits]
    · refine .inr ⟨fun v h hfits => hnot ⟨(spells_iff.mp h).1, hfits⟩, ?_⟩
      rw [number]
      simp only [hempty, Bool.false_eq_true, if_false]
      rw [show digitsFrom (signed text).2 0 = _ from hdigits]

theorem number_ok_iff {text : List UInt8} {v : Int} :
    number text = .ok v ↔ Spells text v ∧ reads (signed text).2 0 < 2 ^ 63 := by
  obtain ⟨w, hspells, hfits, hnumber⟩ | ⟨hnot, hnumber⟩ := number_cases text
  · rw [hnumber, Except.ok.injEq]
    exact ⟨fun h => h ▸ ⟨hspells, hfits⟩, fun h => hspells.unique h.1⟩
  · rw [hnumber]
    exact ⟨nofun, fun h => absurd h.2 (hnot v h.1)⟩

/-- The digits alone fit where the number does, the least one excepted. -/
theorem Spells.fits {text : List UInt8} {v : Int} (h : Spells text v) :
    reads (signed text).2 0 < 2 ^ 63 ↔ (i64Min ≤ v ∧ v ≤ i64Max) ∧ v ≠ i64Min := by
  have hmin : i64Min = -2 ^ 63 := rfl
  have hmax : i64Max = 2 ^ 63 - 1 := rfl
  have hv := (spells_iff.mp h).2.2
  split at hv
  · omega
  · omega

/-! ## The reader and the writer -/

/-- A text is read as what it spells, where that fits, and is refused where it does not. -/
structure ReadAs (text : List UInt8) : Prop where
  accepted : ∀ v, integer text = .ok v ↔ Spells text v ∧ i64Min ≤ v ∧ v ≤ i64Max
  refused : (∀ v, ¬ (Spells text v ∧ i64Min ≤ v ∧ v ≤ i64Max)) → integer text = .error .notANumber

/-- What the writer puts between the colon and the end of the line is read back. -/
def ReadBack (v : Int) : Prop :=
  ∀ digits, Encoder.integer v = 58 :: (digits ++ Encoder.crlf) → integer digits = .ok v

theorem readBack_iff_number {v : Int} : ReadBack v ↔ integer (Encoder.number v) = .ok v := by
  constructor
  · intro h
    exact h _ rfl
  · intro h digits hdigits
    rw [Encoder.integer] at hdigits
    rwa [← List.append_cancel_right (List.cons.inj hdigits).2]

/-- A text is read as it should be unless it spells the least number there is, and a number
is read back unless it is that one. -/
theorem integer_reads_iff (text : List UInt8) : (ReadAs text ↔ ¬ Spells text i64Min) ∧
    ∀ v, i64Min ≤ v → v ≤ i64Max → (ReadBack v ↔ v ≠ i64Min) := by
  constructor
  · constructor
    · intro h hleast
      have hread : integer text = .ok i64Min := (h.accepted i64Min).mpr ⟨hleast, by decide, by decide⟩
      exact (hleast.fits.mp (number_ok_iff.mp hread).2).2 rfl
    · intro hnot
      refine ⟨?_, ?_⟩
      · intro v
        rw [integer, number_ok_iff]
        refine and_congr_right ?_
        intro hspells
        rw [hspells.fits]
        exact and_iff_left fun hleast => hnot (hleast ▸ hspells)
      · intro hnone
        obtain ⟨v, hspells, hfits, -⟩ | ⟨-, hnumber⟩ := number_cases text
        · exact absurd ⟨hspells, (hspells.fits.mp hfits).1⟩ (hnone v)
        · exact hnumber
  · intro v hmin hmax
    rw [readBack_iff_number, integer, number_ok_iff]
    have hspells := spells_number v
    rw [hspells.fits]
    exact ⟨fun h => h.2.2, fun h => ⟨hspells, ⟨hmin, hmax⟩, h⟩⟩

theorem integer_reads_forty_two : ReadAs (ascii "-0042") ∧ ReadBack (-42) := by
  obtain ⟨hreads, hback⟩ := integer_reads_iff (ascii "-0042")
  refine ⟨hreads.mpr ?_, (hback (-42) (by decide) (by decide)).mpr (by decide)⟩
  intro h
  exact absurd (spells_iff.mp h).2.2 (by decide)

/-- The least number is printed, and what was printed is not a number. -/
theorem integer_least_refused : Spells (ascii "-9223372036854775808") i64Min ∧
    Encoder.integer i64Min = ascii ":-9223372036854775808\r\n" ∧
    integer (ascii "-9223372036854775808") = .error .notANumber ∧
    ¬ ReadAs (ascii "-9223372036854775808") ∧ ¬ ReadBack i64Min := by
  have hnumeral : Numeral (ascii "9223372036854775808") := by decide
  have hreads : reads (ascii "9223372036854775808") 0 = 2 ^ 63 := by decide
  have hdigits : spelt (2 ^ 63) = ascii "9223372036854775808" := by
    rw [← hreads]
    exact spelt_reads hnumeral (by decide) (.inr (by decide))
  have hnumber : Encoder.number i64Min = ascii "-9223372036854775808" := congrArg ([45] ++ ·) hdigits
  have hwrites : Encoder.integer i64Min = ascii ":-9223372036854775808\r\n" := by
    rw [Encoder.integer, hnumber]
    decide
  have hspells := spells_number i64Min
  have hrefused : integer (ascii "-9223372036854775808") = .error .notANumber := by decide
  rw [hnumber] at hspells
  refine ⟨hspells, hwrites, hrefused, ?_, ?_⟩
  · intro h
    rw [(h.accepted i64Min).mpr ⟨hspells, by decide, by decide⟩] at hrefused
    cases hrefused
  · intro h
    have hread := readBack_iff_number.mp h
    rw [hnumber, hrefused] at hread
    cases hread

end Rugo.Resp
