import Mathlib.Data.Rat.Floor
import Rugo.Commands

/- When an expiry lands. `second` is the moment a client means, as an exact number;
   `moment` is what the machine makes of it, and `stamp` what the map keeps.

     1. `expiry_exact_iff`: the machine's sum is the exact one, and saturates where the
        map's clock ends, exactly where the sum fits. -/
namespace Rugo.Commands
open Signed

/-- The second a client means: so many units from now, or from the epoch, rounded up. -/
def second (now : UInt32) (value scale : Int) (absolute : Bool) : Int :=
  ⌈(value : ℚ) / scale⌉ + if absolute then 0 else now.toNat

/-- What the map's clock has for it. -/
def clamped (at_ : Int) : Int := max 0 (min at_ (2 ^ 32 - 1))

/-- The expiry is the one that was meant, and one in the future is not in the past. -/
structure Exact (now : UInt32) (value scale : Int) (absolute : Bool) : Prop where
  moment : moment now value scale absolute = second now value scale absolute
  stamp : ((stamp (Commands.moment now value scale absolute)).toNat : Int) = clamped (second now value scale absolute)
  future : absolute = false → 0 < value → now.toNat < 2 ^ 32 - 1 →
    now.toNat < Commands.moment now value scale absolute ∧
    now < Commands.stamp (Commands.moment now value scale absolute)

/-- The sum fits: only a number of seconds from now can be too large for it. -/
def Sums (now : UInt32) (value scale : Int) (absolute : Bool) : Prop :=
  absolute = true ∨ scale = 1000 ∨ value ≤ i64Max - now.toNat

theorem ceil_eq {value scale : Int} (hscale : scale = 1 ∨ scale = 1000) :
    ⌈(value : ℚ) / scale⌉ = value / scale + if value % scale ≠ 0 then 1 else 0 := by
  obtain rfl | rfl := hscale
  · simp
  · have hceil := Rat.ceil_intCast_div_natCast value 1000
    have hcast : ((1000 : Nat) : ℚ) = ((1000 : Int) : ℚ) := by norm_num
    rw [hcast] at hceil
    rw [hceil]
    split
    · omega
    · omega

theorem stamp_toNat (at_ : Int) : ((stamp at_).toNat : Int) = clamped at_ := by
  rw [stamp, clamped]
  split
  · next hfits =>
    rw [UInt32.toNat_ofNat', Nat.mod_eq_of_lt hfits]
    omega
  · next hlarge =>
    have hmax : u32Max.toNat = 2 ^ 32 - 1 := rfl
    rw [hmax]
    omega

theorem wrap_eq {v : Int} (h : i64Min ≤ v ∧ v ≤ i64Max) : wrap v = v := by
  have hmin : i64Min = -2 ^ 63 := rfl
  have hmax : i64Max = 2 ^ 63 - 1 := rfl
  rw [wrap]
  omega

theorem moment_eq {now : UInt32} {value scale : Int} {absolute : Bool} (hscale : scale = 1 ∨ scale = 1000) :
    moment now value scale absolute =
      if absolute then second now value scale absolute else wrap (second now value scale absolute) := by
  rw [moment, second, ceil_eq hscale]
  cases absolute with
  | true => simp
  | false => simp [Int.add_comm]

section
variable {now : UInt32} {value scale : Int} {absolute : Bool} (hvalue : i64Min ≤ value ∧ value ≤ i64Max)
  (hscale : scale = 1 ∨ scale = 1000)
include hvalue hscale

theorem second_fits : Sums now value scale absolute ↔
    absolute = true ∨ (i64Min ≤ second now value scale absolute ∧ second now value scale absolute ≤ i64Max) := by
  have hmin : i64Min = -2 ^ 63 := rfl
  have hmax : i64Max = 2 ^ 63 - 1 := rfl
  have hnow := now.toNat_lt
  rw [Sums, second, ceil_eq hscale]
  cases absolute with
  | true => simp
  | false =>
    obtain rfl | rfl := hscale
    · simp
      omega
    · simp
      split
      · omega
      · omega

theorem exact_of_sums (h : Sums now value scale absolute) : Exact now value scale absolute := by
  have hmoment : moment now value scale absolute = second now value scale absolute := by
    rw [moment_eq hscale]
    obtain habsolute | hfits := (second_fits hvalue hscale).mp h
    · rw [if_pos habsolute]
    · rw [wrap_eq hfits, ite_self]
  have hstamp := stamp_toNat (second now value scale absolute)
  refine ⟨hmoment, by rw [hmoment, hstamp], ?_⟩
  intro habsolute hpos hnow
  have hlater : (now.toNat : Int) < second now value scale absolute := by
    rw [second, ceil_eq hscale, habsolute]
    obtain rfl | rfl := hscale
    · simp
      omega
    · simp
      split
      · omega
      · omega
  rw [hmoment]
  refine ⟨hlater, ?_⟩
  rw [UInt32.lt_iff_toNat_lt]
  rw [clamped] at hstamp
  omega

/-- A sum that does not fit is not the exact one, whatever it wraps to. -/
theorem sums_of_exact (h : moment now value scale absolute = second now value scale absolute) :
    Sums now value scale absolute := by
  rw [second_fits hvalue hscale]
  rw [moment_eq hscale] at h
  cases absolute with
  | true => exact .inl rfl
  | false =>
    right
    have hmin : i64Min = -2 ^ 63 := rfl
    have hmax : i64Max = 2 ^ 63 - 1 := rfl
    rw [if_neg Bool.false_ne_true, wrap] at h
    omega

end

theorem second_mono (now : UInt32) {value value' scale : Int} (absolute : Bool) (hscale : scale = 1 ∨ scale = 1000)
    (h : value ≤ value') : second now value scale absolute ≤ second now value' scale absolute := by
  rw [second, second, ceil_eq hscale, ceil_eq hscale]
  obtain rfl | rfl := hscale
  · simp
    exact h
  · split
    · split
      · omega
      · omega
    · split
      · omega
      · omega

theorem clamped_mono {a b : Int} (h : a ≤ b) : clamped a ≤ clamped b := by
  rw [clamped, clamped]
  omega

/-- The expiry is the one that was meant exactly where the sum fits; and among those it
lands the later the larger the number. -/
theorem expiry_exact_iff (now : UInt32) (value scale : Int) (absolute : Bool)
    (hvalue : i64Min ≤ value ∧ value ≤ i64Max) (hscale : scale = 1 ∨ scale = 1000) :
    (Exact now value scale absolute ↔ Sums now value scale absolute) ∧
    ∀ value', i64Min ≤ value' ∧ value' ≤ i64Max → Sums now value' scale absolute → value ≤ value' →
      stamp (moment now value scale absolute) ≤ stamp (moment now value' scale absolute) := by
  refine ⟨⟨fun h => sums_of_exact hvalue hscale h.moment, exact_of_sums hvalue hscale⟩, ?_⟩
  intro value' hvalue' hsums' hle
  have hsums : Sums now value scale absolute := by
    obtain habsolute | hmillis | hseconds := hsums'
    · exact .inl habsolute
    · exact .inr (.inl hmillis)
    · exact .inr (.inr (Int.le_trans hle hseconds))
  have hstamp := (exact_of_sums hvalue hscale hsums).stamp
  have hstamp' := (exact_of_sums hvalue' hscale hsums').stamp
  have hclamped := clamped_mono (second_mono now absolute hscale hle)
  rw [UInt32.le_iff_toNat_le]
  omega

theorem expiry_exact_minute : Exact 5 60 1 false :=
  (expiry_exact_iff 5 60 1 false (by decide) (.inl rfl)).1.mpr (.inr (.inr (by decide)))

/-- The largest number of seconds from now is a moment before the epoch, and its stamp
the epoch. -/
theorem moment_wraps : ¬ Exact 5 i64Max 1 false ∧ moment 5 i64Max 1 false < 0 ∧
    stamp (moment 5 i64Max 1 false) = 0 := by
  have hwraps : moment 5 i64Max 1 false < 0 := by decide
  refine ⟨?_, hwraps, by decide⟩
  intro h
  have hfuture := (h.future rfl (by decide) (by decide)).1
  omega

end Rugo.Commands
