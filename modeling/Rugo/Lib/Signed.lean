import Mathlib.Algebra.Group.Int.Defs
import Mathlib.Algebra.Group.Nat.Defs
import Mathlib.Data.Int.Basic

/- Signed 64-bit numbers, as integers in a range. An operation that would leave
   the range has no answer. -/
namespace Signed

def i64Min : Int := -2 ^ 63
def i64Max : Int := 2 ^ 63 - 1

def fit (v : Int) : Option Int := if i64Min ≤ v ∧ v ≤ i64Max then some v else none

def checkedMul (a b : Int) : Option Int := fit (a * b)
def checkedAdd (a b : Int) : Option Int := fit (a + b)
def checkedSub (a b : Int) : Option Int := fit (a - b)
def checkedNeg (a : Int) : Option Int := fit (-a)

/-- The number in the range that is the same modulo 2^64. -/
def wrap (v : Int) : Int := (v + 2 ^ 63) % 2 ^ 64 - 2 ^ 63

/-- What is left of a count too large for the range. -/
def clamp (n : Nat) : Int := min n i64Max.toNat

theorem fit_eq_some {v w : Int} : fit v = some w ↔ w = v ∧ i64Min ≤ v ∧ v ≤ i64Max := by
  by_cases h : i64Min ≤ v ∧ v ≤ i64Max
  · simp [fit, h, eq_comm]
  · simp only [fit, if_neg h, reduceCtorEq, false_iff]
    exact fun hw => h hw.2

end Signed
