import Mathlib.Data.List.Basic
import Mathlib.Data.Fintype.EquivFin
import Mathlib.Algebra.Group.Nat.Even
import Mathlib.Data.Nat.Prime.Basic
import Mathlib.Data.Nat.ModEq
import Mathlib.Tactic.Ring

/- The triangular walk over a power of two of places: one step, then two, then
   three, each time modulo the count. Every place is reached exactly once in the
   first `2^k` positions. Two positions `i < j` on one place would make
   `(j - i) * (i + j + 1)` a multiple of `2^(k+1)`; the two factors differ in
   parity, so one of them alone carries all the twos, and both are too small. A loop
   along the walk that would stop at some place therefore stops within one round
   (`walk_rule`). -/
namespace Triangular

/-- The place after `n` steps from `g`, where the `n`-th step is `n` long. -/
def walk (mask g : Nat) : Nat → Nat
  | 0 => g
  | n + 1 => (walk mask g n + (n + 1)) &&& mask

theorem walk_eq {k g : Nat} (hg : g < 2 ^ k) (n : Nat) :
    walk (2 ^ k - 1) g n = (g + n * (n + 1) / 2) % 2 ^ k := by
  induction n with
  | zero => simp [walk, Nat.mod_eq_of_lt hg]
  | succ n ih =>
    have htri : (n + 1) * (n + 1 + 1) / 2 = n * (n + 1) / 2 + (n + 1) := by
      have h : (n + 1) * (n + 1 + 1) = n * (n + 1) + (n + 1) * 2 := by ring
      rw [h, Nat.add_mul_div_right _ _ (by decide)]
    rw [walk, ih, Nat.and_two_pow_sub_one_eq_mod, Nat.mod_add_mod, htri, Nat.add_assoc]

theorem walk_lt {k g : Nat} (hg : g < 2 ^ k) (n : Nat) : walk (2 ^ k - 1) g n < 2 ^ k := by
  rw [walk_eq hg]
  exact Nat.mod_lt _ (Nat.two_pow_pos k)

theorem two_pow_dvd_of_odd {k a b : Nat} (h : 2 ^ k ∣ a * b) (hb : Odd b) : 2 ^ k ∣ a :=
  ((Nat.coprime_two_left.mpr hb).pow_left k).dvd_of_dvd_mul_right h

theorem two_mul_tri (n : Nat) : 2 * (n * (n + 1) / 2) = n * (n + 1) :=
  Nat.mul_div_cancel' (Nat.even_mul_succ_self n).two_dvd

theorem walk_ne {k g i j : Nat} (hg : g < 2 ^ k) (hij : i < j) (hj : j < 2 ^ k) :
    walk (2 ^ k - 1) g i ≠ walk (2 ^ k - 1) g j := by
  intro h
  rw [walk_eq hg, walk_eq hg] at h
  have hti := two_mul_tri i
  have htj := two_mul_tri j
  obtain ⟨d, rfl⟩ : ∃ d, j = i + d := ⟨j - i, by omega⟩
  have hprod : (i + d) * (i + d + 1) = i * (i + 1) + d * (2 * i + d + 1) := by ring
  -- The two triangular numbers differ by a multiple of the count.
  have hdvd : 2 ^ k ∣ (i + d) * (i + d + 1) / 2 - i * (i + 1) / 2 := by
    have hle : g + i * (i + 1) / 2 ≤ g + (i + d) * (i + d + 1) / 2 := by omega
    have := (Nat.modEq_iff_dvd' hle).mp h
    rwa [Nat.add_sub_add_left] at this
  have hdvd2 : 2 ^ (k + 1) ∣ d * (2 * i + d + 1) := by
    obtain ⟨c, hc⟩ := hdvd
    refine ⟨c, ?_⟩
    have : 2 ^ (k + 1) * c = 2 * (2 ^ k * c) := by ring
    omega
  have hpow : 2 ^ (k + 1) = 2 * 2 ^ k := by ring
  rcases Nat.even_or_odd d with hd | hd
  · have hodd : Odd (2 * i + d + 1) := by
      obtain ⟨e, he⟩ := hd
      exact ⟨i + e, by omega⟩
    have := Nat.le_of_dvd (by omega) (two_pow_dvd_of_odd hdvd2 hodd)
    omega
  · have := Nat.le_of_dvd (by omega) (two_pow_dvd_of_odd (Nat.mul_comm d _ ▸ hdvd2) hd)
    omega

theorem walk_injective {k g : Nat} (hg : g < 2 ^ k) :
    Function.Injective (fun n : Fin (2 ^ k) => walk (2 ^ k - 1) g n) := by
  intro i j h
  rcases Nat.lt_trichotomy i j with hlt | heq | hgt
  · exact absurd h (walk_ne hg hlt j.isLt)
  · exact Fin.ext heq
  · exact absurd h.symm (walk_ne hg hgt i.isLt)

/-- Every place is reached within one round, at exactly one position. -/
theorem walk_covers {k g : Nat} (hg : g < 2 ^ k) {p : Nat} (hp : p < 2 ^ k) :
    ∃ n < 2 ^ k, walk (2 ^ k - 1) g n = p := by
  have hinj : Function.Injective
      (fun n : Fin (2 ^ k) => (⟨walk (2 ^ k - 1) g n, walk_lt hg n⟩ : Fin (2 ^ k))) :=
    fun i j h => walk_injective hg (Fin.mk.inj h)
  obtain ⟨n, hn⟩ := Finite.surjective_of_injective hinj ⟨p, hp⟩
  exact ⟨n, n.isLt, congrArg Fin.val hn⟩

/-- Every place is reached exactly once in the first round. -/
theorem walk_once {k g : Nat} (hg : g < 2 ^ k) {p : Nat} (hp : p < 2 ^ k) :
    ∃! n, n < 2 ^ k ∧ walk (2 ^ k - 1) g n = p := by
  obtain ⟨n, hn, hwalk⟩ := walk_covers hg hp
  refine ⟨n, ⟨hn, hwalk⟩, ?_⟩
  rintro m ⟨hm, hwalk'⟩
  have hsame : (⟨m, hm⟩ : Fin (2 ^ k)) = ⟨n, hn⟩ := walk_injective hg (hwalk'.trans hwalk.symm)
  exact congrArg Fin.val hsame

/-- The rule of a loop along the walk, with fuel for one round. `I n` is what is known once
`n` places have been passed, which cannot be known of all of them; where the loop goes on
it goes on at the next place, with a longer step. -/
theorem walk_rule {k g : Nat} {I : Nat → Prop} {Q : Nat → Nat → Nat → Prop} (hstart : I 0) (hround : ¬ I (2 ^ k))
    (hstep : ∀ fuel n, n < 2 ^ k → I n →
      (I (n + 1) → Q fuel (walk (2 ^ k - 1) g (n + 1)) (n + 1 + 1)) →
      Q (fuel + 1) (walk (2 ^ k - 1) g n) (n + 1)) : Q (2 ^ k) g 1 := by
  have hall : ∀ fuel n, fuel + n = 2 ^ k → I n → Q fuel (walk (2 ^ k - 1) g n) (n + 1) := by
    intro fuel
    induction fuel with
    | zero =>
      intro n hn hI
      rw [Nat.zero_add] at hn
      exact absurd (hn ▸ hI) hround
    | succ fuel ih =>
      intro n hn hI
      exact hstep fuel n (by omega) hI (ih (n + 1) (by omega))
  exact hall (2 ^ k) 0 rfl hstart

end Triangular
