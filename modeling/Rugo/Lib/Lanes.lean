import Rugo.Lib.Words

/- A word as a row of byte lanes, the lowest first. One is taken from every lane at once
   by one subtraction, which borrows from the next lane where a lane has nothing
   (`subOnes`), and a lane that had nothing is told by its top bit. A borrow also lights a
   lane that had one and lent it (`trick_bit`). Such a lane is never below the first match
   (`trick_lowest`), and there is none unless a lane that has one is just above a match
   (`lent_ones_iff`). -/
namespace Lanes
open Words

/-! ## One from every lane -/

/-- What a lane owes the next once one, and `c`, are taken from it. -/
def borrow (c : Nat) (y : UInt8) : Nat := if y.toNat < 1 + c then 1 else 0

/-- One taken from each lane, each borrowing from the next. -/
def subOnes : Nat → List UInt8 → List UInt8
  | _, [] => []
  | c, y :: ys => UInt8.ofNat (y.toNat + 255 - c) :: subOnes (borrow c y) ys

theorem subOnes_length (c : Nat) (ys : List UInt8) : (subOnes c ys).length = ys.length := by
  induction ys generalizing c with
  | nil => rfl
  | cons y ys ih => rw [subOnes, List.length_cons, ih, List.length_cons]

theorem borrow_le (c : Nat) (y : UInt8) : borrow c y ≤ 1 := by unfold borrow; split <;> omega

theorem subOnes_value {c : Nat} (hc : c ≤ 1) (ys : List UInt8) :
    ∃ out ≤ 1, leValue (subOnes c ys) + leValue (List.replicate ys.length 1) + c =
      leValue ys + out * 256 ^ ys.length := by
  induction ys generalizing c with
  | nil => exact ⟨c, hc, by simp [subOnes, leValue]⟩
  | cons y ys ih =>
    obtain ⟨out, hout, h⟩ := ih (borrow_le c y)
    refine ⟨out, hout, ?_⟩
    have hy := y.toNat_lt
    have hlane : (UInt8.ofNat (y.toNat + 255 - c)).toNat + 1 + c = y.toNat + 256 * borrow c y := by
      rw [UInt8.toNat_ofNat', borrow]
      split <;> omega
    have hone : (1 : UInt8).toNat = 1 := rfl
    rw [List.length_cons, List.replicate_succ, subOnes, leValue, leValue, leValue, hone,
      Nat.pow_succ, Nat.mul_comm (256 ^ _) 256, Nat.mul_left_comm]
    omega

/-- What lane `i` has lent the lane below it, where the lowest has lent `c`. -/
def lent : Nat → List UInt8 → Nat → Nat
  | c, _, 0 => c
  | c, [], _ + 1 => c
  | c, y :: ys, i + 1 => lent (borrow c y) ys i

theorem lent_le {c : Nat} (hc : c ≤ 1) (ys : List UInt8) (i : Nat) : lent c ys i ≤ 1 := by
  induction ys generalizing c i with
  | nil => cases i <;> exact hc
  | cons y ys ih =>
    cases i with
    | zero => exact hc
    | succ i => exact ih (borrow_le c y) i

theorem lent_succ {c i : Nat} {ys : List UInt8} {y : UInt8} (h : ys[i]? = some y) :
    lent c ys (i + 1) = borrow (lent c ys i) y := by
  induction ys generalizing c i with
  | nil => cases h
  | cons y' ys ih =>
    cases i with
    | zero =>
      cases h
      cases ys <;> rfl
    | succ i => exact ih h

theorem subOnes_getElem? (c : Nat) (ys : List UInt8) (i : Nat) :
    (subOnes c ys)[i]? = ys[i]?.map fun y => UInt8.ofNat (y.toNat + 255 - lent c ys i) := by
  induction ys generalizing c i with
  | nil => rfl
  | cons y ys ih =>
    cases i with
    | zero => rfl
    | succ i => exact ih (borrow c y) i

/-- A lane borrows if it has nothing, or if it has one and has lent that. -/
theorem borrow_eq_one {c : Nat} (hc : c ≤ 1) (y : UInt8) : borrow c y = 1 ↔ y = 0 ∨ y = 1 ∧ c = 1 := by
  have hzero : y = 0 ↔ y.toNat = 0 := UInt8.toNat_inj.symm
  have hone : y = 1 ↔ y.toNat = 1 := UInt8.toNat_inj.symm
  rw [borrow, hzero, hone]
  split <;> omega

/-- Up to the first lane that has nothing there is no borrow. -/
theorem lent_before {ys : List UInt8} {i : Nat} (h : ∀ j < i, ys[j]? ≠ some 0) : lent 0 ys i = 0 := by
  induction ys generalizing i with
  | nil => cases i <;> rfl
  | cons y ys ih =>
    cases i with
    | zero => rfl
    | succ i =>
      have hy : ¬ borrow 0 y = 1 := by
        rw [borrow_eq_one (Nat.zero_le 1)]
        rintro (rfl | ⟨-, hno⟩)
        · exact h 0 (Nat.zero_lt_succ i) rfl
        · cases hno
      have hborrow : borrow 0 y = 0 := by
        have := borrow_le 0 y
        omega
      rw [lent, hborrow]
      apply ih
      intro j hj
      exact h (j + 1) (Nat.succ_lt_succ hj)

/-- No lane that has one has lent it, exactly where no such lane is just above one that
has nothing. -/
theorem lent_ones_iff {ys : List UInt8} :
    (∀ i : Nat, ys[i]? = some 1 → lent 0 ys i ≠ 1) ↔ ∀ i : Nat, ys[i]? = some 0 → ys[i + 1]? ≠ some 1 := by
  constructor
  · intro h i hzero hone
    apply h (i + 1) hone
    rw [lent_succ hzero, borrow_eq_one (lent_le (Nat.zero_le 1) ys i)]
    exact .inl rfl
  · intro h i
    -- a borrow goes up through lanes that have one, from a lane that has nothing
    induction i with
    | zero =>
      intro _ hlent
      cases ys <;> cases hlent
    | succ i ih =>
      intro hone hlent
      have hlt := (List.getElem?_eq_some_iff.mp hone).1
      have hbelow : ys[i]? = some ys[i] := List.getElem?_eq_getElem (Nat.lt_of_succ_lt hlt)
      rw [lent_succ hbelow, borrow_eq_one (lent_le (Nat.zero_le 1) ys i)] at hlent
      obtain heq | ⟨heq, hlent⟩ := hlent
      · rw [heq] at hbelow
        exact h i hbelow hone
      · rw [heq] at hbelow
        exact ih hbelow hlent

/-- One lane of the zero-byte trick: it lights if it has nothing, or if it has one and has
lent that. -/
theorem trick_lane (y : UInt8) {c : Nat} (hc : c ≤ 1) :
    ((UInt8.ofNat (y.toNat + 255 - c)).toBitVec.getLsbD 7 = true ∧ y.toBitVec.getLsbD 7 = false) ↔
      y = 0 ∨ y = 1 ∧ c = 1 := by
  have hall : ∀ c : Fin 2, ((UInt8.ofNat (y.toNat + 255 - c)).toBitVec.getLsbD 7 = true ∧
      y.toBitVec.getLsbD 7 = false) ↔ y = 0 ∨ y = 1 ∧ c.val = 1 :=
    forall_byte (P := fun y => ∀ c : Fin 2, ((UInt8.ofNat (y.toNat + 255 - c)).toBitVec.getLsbD 7 = true ∧
      y.toBitVec.getLsbD 7 = false) ↔ y = 0 ∨ y = 1 ∧ c.val = 1) (by decide +kernel) y
  exact hall ⟨c, by omega⟩

/-! ## Lanes of a word -/

/-- Bytes as a word of `w` bits. -/
def word (w : Nat) (bs : List UInt8) : BitVec w := BitVec.ofNat w (leValue bs)

/-- One in the low bit of each lane: all ones over the ones of a byte. -/
def ones (w : Nat) : BitVec w := BitVec.allOnes w / 0xff

/-- One in the top bit of each lane. -/
def highs (w : Nat) : BitVec w := ones w <<< 7

def trailingZeros {w : Nat} (m : BitVec w) : Nat := ((List.range w).find? fun i => m.getLsbD i).getD w

theorem trailingZeros_eq {w n : Nat} {m : BitVec w} (hn : m.getLsbD n = true) (h : ∀ b < n, m.getLsbD b = false) :
    trailingZeros m = n := by
  have hfind : (List.range w).find? (fun i => m.getLsbD i) = some n := by
    rw [List.find?_range_eq_some]
    refine ⟨hn, List.mem_range.mpr (BitVec.lt_of_getLsbD hn), ?_⟩
    intro b hb
    rw [h b hb]
    rfl
  rw [trailingZeros, hfind]
  rfl

theorem testBit_leValue (bs : List UInt8) (b : Nat) :
    (leValue bs).testBit b = (bs[b / 8]?.map fun y => y.toBitVec.getLsbD (b % 8)).getD false := by
  induction bs generalizing b with
  | nil => simp [leValue]
  | cons y bs ih =>
    have hy : y.toNat < 2 ^ 8 := y.toNat_lt
    rw [leValue, show y.toNat + 256 * leValue bs = 2 ^ 8 * leValue bs + y.toNat by omega,
      Nat.testBit_two_pow_mul_add _ hy, ih]
    by_cases hb : b < 8
    · rw [if_pos hb, Nat.div_eq_of_lt hb, Nat.mod_eq_of_lt hb]
      rfl
    · rw [if_neg hb, show b / 8 = (b - 8) / 8 + 1 by omega, show b % 8 = (b - 8) % 8 by omega]
      rfl

theorem getLsbD_word {k : Nat} {bs : List UInt8} (h : bs.length = k) (b : Nat) :
    (word (8 * k) bs).getLsbD b = (bs[b / 8]?.map fun y => y.toBitVec.getLsbD (b % 8)).getD false := by
  rw [word, BitVec.getLsbD_ofNat, testBit_leValue]
  by_cases hb : b < 8 * k
  · simp [hb]
  · rw [List.getElem?_eq_none (by omega)]
    simp

theorem word_cons (w : Nat) (y : UInt8) (bs : List UInt8) :
    word w (y :: bs) = BitVec.ofNat w y.toNat ||| word w bs <<< 8 := by
  have hy : y.toNat < 2 ^ 8 := y.toNat_lt
  apply BitVec.eq_of_getLsbD_eq
  intro b hb
  rw [word, word, BitVec.getLsbD_or, BitVec.getLsbD_shiftLeft, BitVec.getLsbD_ofNat, BitVec.getLsbD_ofNat,
    BitVec.getLsbD_ofNat, leValue, show y.toNat + 256 * leValue bs = 2 ^ 8 * leValue bs + y.toNat by omega,
    Nat.testBit_two_pow_mul_add _ hy]
  by_cases hlow : b < 8
  · simp [hb, hlow]
  · have hhigh : y.toNat.testBit b = false :=
      Nat.testBit_lt_two_pow (Nat.lt_of_lt_of_le hy (Nat.pow_le_pow_right (by decide) (by omega)))
    simp [hb, hlow, hhigh]
    omega

theorem leValue_replicate (k : Nat) (y : UInt8) :
    leValue (List.replicate k y) = y.toNat * leValue (List.replicate k 1) := by
  induction k with
  | zero => rfl
  | succ k ih =>
    have hone : (1 : UInt8).toNat = 1 := rfl
    rw [List.replicate_succ, List.replicate_succ, leValue, leValue, ih, hone]
    ring

theorem leValue_ones (k : Nat) : 255 * leValue (List.replicate k 1) + 1 = 256 ^ k := by
  induction k with
  | zero => rfl
  | succ k ih =>
    have hone : (1 : UInt8).toNat = 1 := rfl
    rw [List.replicate_succ, leValue, hone, Nat.pow_succ]
    omega

theorem two_pow_lanes (k : Nat) : 2 ^ (8 * k) = 256 ^ k := Nat.pow_mul 2 8 k

theorem ones_eq (k : Nat) : ones (8 * k) = word (8 * k) (List.replicate k 1) := by
  cases k with
  | zero =>
    apply BitVec.eq_of_getLsbD_eq
    intro b hb
    exact absurd hb (Nat.not_lt_zero b)
  | succ k =>
    have hones := leValue_ones (k + 1)
    have hpow : 256 ≤ 256 ^ (k + 1) := Nat.le_self_pow (by omega) 256
    have hff : (0xff : BitVec (8 * (k + 1))).toNat = 255 := by
      show (BitVec.ofNat (8 * (k + 1)) 255).toNat = 255
      rw [BitVec.toNat_ofNat, two_pow_lanes, Nat.mod_eq_of_lt (by omega)]
    apply BitVec.eq_of_toNat_eq
    rw [ones, BitVec.toNat_udiv, BitVec.toNat_allOnes, hff, word, BitVec.toNat_ofNat, two_pow_lanes, ← hones,
      Nat.add_sub_cancel, Nat.mul_div_cancel_left _ (by decide), Nat.mod_eq_of_lt (by omega)]

theorem ones_mul (k : Nat) (y : UInt8) :
    ones (8 * k) * BitVec.ofNat (8 * k) y.toNat = word (8 * k) (List.replicate k y) := by
  rw [ones_eq, word, word, leValue_replicate k y, BitVec.ofNat_mul, BitVec.mul_comm]

theorem getLsbD_highs {k b : Nat} (hb : b < 8 * k) : (highs (8 * k)).getLsbD b = decide (b % 8 = 7) := by
  have hone : ∀ j < 8, (1 : UInt8).toBitVec.getLsbD j = decide (j = 0) := by decide
  rw [highs, BitVec.getLsbD_shiftLeft, ones_eq, getLsbD_word List.length_replicate,
    List.getElem?_replicate_of_lt (by omega), Option.map_some, Option.getD_some, hone _ (Nat.mod_lt _ (by decide))]
  by_cases hb7 : b < 7
  · simp [hb7]
    omega
  · simp [hb, hb7]
    omega

theorem word_xor {k : Nat} {bs : List UInt8} (h : bs.length = k) (y : UInt8) :
    word (8 * k) bs ^^^ word (8 * k) (List.replicate k y) = word (8 * k) (bs.map (· ^^^ y)) := by
  apply BitVec.eq_of_getLsbD_eq
  intro b hb
  rw [BitVec.getLsbD_xor, getLsbD_word h, getLsbD_word List.length_replicate,
    getLsbD_word (by rw [List.length_map, h]), List.getElem?_replicate_of_lt (by omega), List.getElem?_map,
    List.getElem?_eq_getElem (by omega)]
  simp

theorem word_sub_ones {k : Nat} {ys : List UInt8} (h : ys.length = k) :
    word (8 * k) ys - ones (8 * k) = word (8 * k) (subOnes 0 ys) := by
  obtain ⟨out, -, hvalue⟩ := subOnes_value (Nat.zero_le 1) ys
  have hsum : word (8 * k) ys = word (8 * k) (subOnes 0 ys) + ones (8 * k) := by
    rw [ones_eq, word, word, word, ← BitVec.ofNat_add]
    apply BitVec.eq_of_toNat_eq
    rw [h, Nat.add_zero] at hvalue
    rw [BitVec.toNat_ofNat, BitVec.toNat_ofNat, hvalue, two_pow_lanes, Nat.add_mul_mod_self_right]
  rw [hsum, BitVec.add_sub_cancel]

/-! ## The lane that had nothing -/

/-- The top bit of each lane that had nothing, and of some above one. -/
def trick {w : Nat} (m : BitVec w) : BitVec w := (m - ones w) &&& ~~~m &&& highs w

/-- The bits that light: the top one of each lane that had nothing, or had one and lent it. -/
theorem trick_bit {k : Nat} {ys : List UInt8} (h : ys.length = k) (b : Nat) :
    (trick (word (8 * k) ys)).getLsbD b = true ↔
      b % 8 = 7 ∧ (ys[b / 8]? = some 0 ∨ ys[b / 8]? = some 1 ∧ lent 0 ys (b / 8) = 1) := by
  by_cases hb : b < 8 * k
  · have hlt : b / 8 < ys.length := by omega
    rw [trick, word_sub_ones h, BitVec.getLsbD_and, BitVec.getLsbD_and, BitVec.getLsbD_not,
      getLsbD_word (by rw [subOnes_length, h]), getLsbD_word h, getLsbD_highs hb, subOnes_getElem?,
      List.getElem?_eq_getElem hlt]
    have hlane := trick_lane ys[b / 8] (lent_le (Nat.zero_le 1) ys (b / 8))
    simp only [Option.map_some, Option.getD_some, Bool.and_eq_true, decide_eq_true_eq, Bool.not_eq_true', hb, true_and,
      Option.some.injEq]
    constructor
    · intro ⟨⟨hlit, hdark⟩, htop⟩
      rw [htop] at hlit hdark
      exact ⟨htop, hlane.mp ⟨hlit, hdark⟩⟩
    · intro ⟨htop, hhad⟩
      rw [htop]
      exact ⟨hlane.mpr hhad, rfl⟩
  · have hnone : ys[b / 8]? = none := List.getElem?_eq_none (by omega)
    rw [BitVec.getLsbD_of_ge _ _ (Nat.le_of_not_lt hb), hnone]
    simp

theorem trick_before {k : Nat} {ys : List UInt8} (h : ys.length = k) {b : Nat}
    (hbefore : ∀ j < b / 8, ys[j]? ≠ some 0) :
    (trick (word (8 * k) ys)).getLsbD b = true ↔ b % 8 = 7 ∧ ys[b / 8]? = some 0 := by
  rw [trick_bit h, lent_before hbefore]
  simp

theorem trick_lowest {k : Nat} {ys : List UInt8} (h : ys.length = k) :
    ys.findIdx? (· == 0) =
      if trick (word (8 * k) ys) = 0#(8 * k) then none else some (trailingZeros (trick (word (8 * k) ys)) / 8) := by
  cases hfirst : ys.findIdx? (· == 0) with
  | none =>
    rw [List.findIdx?_eq_none_iff] at hfirst
    have hnone : ∀ j : Nat, ys[j]? ≠ some 0 := by
      intro j hj
      have hfalse := hfirst 0 (List.mem_of_getElem? hj)
      cases hfalse
    rw [if_pos]
    apply BitVec.eq_of_getLsbD_eq
    intro b hb
    rw [BitVec.getLsbD_zero, Bool.eq_false_iff]
    intro hlit
    exact hnone _ ((trick_before h fun j _ => hnone j).mp hlit).2
  | some i =>
    obtain ⟨hi, hzero, hbefore⟩ := List.findIdx?_eq_some_iff_getElem.mp hfirst
    have hat : ys[i]? = some 0 := by
      rw [List.getElem?_eq_getElem hi]
      exact congrArg some (by simpa using hzero)
    have hnot : ∀ j < i, ys[j]? ≠ some 0 := by
      intro j hj heq
      rw [List.getElem?_eq_getElem (by omega)] at heq
      exact hbefore j hj (by simpa using heq)
    have hlit : (trick (word (8 * k) ys)).getLsbD (8 * i + 7) = true := by
      rw [trick_before h (by rwa [show (8 * i + 7) / 8 = i by omega])]
      exact ⟨by omega, by rwa [show (8 * i + 7) / 8 = i by omega]⟩
    -- below the first zero the trick lights nothing
    have hdark : ∀ b < 8 * i + 7, (trick (word (8 * k) ys)).getLsbD b = false := by
      intro b hb
      rw [Bool.eq_false_iff]
      intro hb'
      obtain ⟨htop, hlane⟩ := (trick_before h fun j hj => hnot j (by omega)).mp hb'
      exact hnot (b / 8) (by omega) hlane
    rw [if_neg, trailingZeros_eq hlit hdark, show (8 * i + 7) / 8 = i by omega]
    intro heq
    rw [heq, BitVec.getLsbD_zero] at hlit
    cases hlit

end Lanes
