import Mathlib
import Rugo.MapSteps

/- What the binary is asked to do, by the words on its command line. A command line is
   read as a list of settings, each spelt by a flag and what may come after it; of those that
   are about the same thing the last is heeded, whatever stands between them.

     1. `bytes_iff`: the sizes that are understood, and what each of them comes to.
     2. `parse_iff`: what each command line asks for, or why it is refused.
     3. `parse_order`: only the order of settings about the same thing matters.
     4. `shards_in_force`: how many shards the map has that a command line asks for. -/
namespace Rugo

/-! ## Text -/

/-- A `str`, as its characters. -/
abbrev Text := List Char

namespace Text

/-- `char::is_whitespace`. -/
def isWhitespace (c : Char) : Bool :=
  (9 ≤ c.toNat && c.toNat ≤ 13) || c.toNat == 32 || c.toNat == 133 || c.toNat == 160 || c.toNat == 5760 ||
    (8192 ≤ c.toNat && c.toNat ≤ 8202) || c.toNat == 8232 || c.toNat == 8233 || c.toNat == 8239 ||
    c.toNat == 8287 || c.toNat == 12288

def trim (text : Text) : Text := (text.dropWhile isWhitespace).rdropWhile isWhitespace

def toAsciiLowercase (text : Text) : Text := text.map Char.toLower

def stripSuffix (text suffix : Text) : Option Text :=
  if suffix <:+ text then some (text.take (text.length - suffix.length)) else none

/-- The digits that are left, after those that come to `n`, of a number below `bound`. -/
def digits (bound : Nat) : Text → Nat → Option Nat
  | [], n => some n
  | c :: rest, n =>
    if c.isDigit = true ∧ 10 * n + (c.toNat - '0'.toNat) < bound then digits bound rest (10 * n + (c.toNat - '0'.toNat))
    else none

def parse (bound : Nat) : Text → Option Nat
  | [] => none
  | '+' :: rest => if rest = [] then none else digits bound rest 0
  | text => digits bound text 0

/-- What a number is written as: digits, and a sign before them or not. -/
def Decimal (text : Text) (n : Nat) : Prop :=
  ∃ sign figures : Text, text = sign ++ figures ∧ (sign = [] ∨ sign = ['+']) ∧ figures ≠ [] ∧
    (∀ c ∈ figures, c.isDigit = true) ∧ n = Nat.ofDigitChars 10 figures 0

theorem le_ofDigitChars (text : Text) (m : Nat) : m ≤ Nat.ofDigitChars 10 text m := by
  rw [Nat.ofDigitChars_eq_ofDigitChars_zero]
  have hpos : 0 < 10 ^ text.length := Nat.pow_pos (by decide)
  have hle : m ≤ 10 ^ text.length * m := Nat.le_mul_of_pos_left m hpos
  omega

theorem digits_iff {bound : Nat} {text : Text} {m n : Nat} : digits bound text m = some n ↔
    (∀ c ∈ text, c.isDigit = true) ∧ n = Nat.ofDigitChars 10 text m ∧ (text = [] ∨ n < bound) := by
  induction text generalizing m with
  | nil =>
    rw [digits, Option.some.injEq, Nat.ofDigitChars_nil]
    exact ⟨fun heq => ⟨List.forall_mem_nil _, heq.symm, .inl rfl⟩, fun h => h.2.1.symm⟩
  | cons c rest ih =>
    rw [digits, Option.ite_none_right_eq_some, ih, Nat.ofDigitChars_cons]
    constructor
    · rintro ⟨⟨hc, hless⟩, hrest, rfl, hbound⟩
      refine ⟨List.forall_mem_cons.mpr ⟨hc, hrest⟩, rfl, .inr ?_⟩
      obtain rfl | hbound := hbound
      · exact hless
      · exact hbound
    · rintro ⟨hall, rfl, hnil | hbound⟩
      · cases hnil
      · obtain ⟨hc, hrest⟩ := List.forall_mem_cons.mp hall
        exact ⟨⟨hc, Nat.lt_of_le_of_lt (le_ofDigitChars rest _) hbound⟩, hrest, rfl, .inr hbound⟩

theorem plus_not_digit : ¬ '+'.isDigit = true := by decide

theorem parse_decimal {bound : Nat} {text : Text} {n : Nat} :
    parse bound text = some n ↔ Decimal text n ∧ n < bound := by
  constructor
  · intro h
    unfold parse at h
    split at h
    · cases h
    · next rest =>
      rw [Option.ite_none_left_eq_some, digits_iff] at h
      obtain ⟨hne, hdigits, hn, hbound⟩ := h
      exact ⟨⟨['+'], rest, rfl, .inr rfl, hne, hdigits, hn⟩, hbound.resolve_left hne⟩
    · next hne _ =>
      obtain ⟨hdigits, hn, hbound⟩ := digits_iff.mp h
      exact ⟨⟨[], text, rfl, .inl rfl, hne, hdigits, hn⟩, hbound.resolve_left hne⟩
  · rintro ⟨⟨sign, figures, rfl, rfl | rfl, hne, hdigits, hn⟩, hbound⟩
    · have hread := digits_iff.mpr ⟨hdigits, hn, .inr hbound⟩
      cases figures with
      | nil => exact absurd rfl hne
      | cons c rest =>
        have hplus : c ≠ '+' := by
          rintro rfl
          exact plus_not_digit (hdigits '+' (List.mem_cons_self ..))
        rw [List.nil_append, parse.eq_3 bound (c :: rest) (List.cons_ne_nil c rest)]
        · exact hread
        · intro rest' heq
          exact hplus (List.cons.inj heq).1
    · rw [List.singleton_append, parse, if_neg hne]
      exact digits_iff.mpr ⟨hdigits, hn, .inr hbound⟩

theorem Decimal.unique {text : Text} {m n : Nat} (hm : Decimal text m) (hn : Decimal text n) : m = n := by
  have hm' : parse (max m n + 1) text = some m := parse_decimal.mpr ⟨hm, by omega⟩
  have hn' : parse (max m n + 1) text = some n := parse_decimal.mpr ⟨hn, by omega⟩
  exact Option.some.inj (hm'.symm.trans hn')

theorem decimal_toDigits (n : Nat) : Decimal (Nat.toDigits 10 n) n :=
  ⟨[], Nat.toDigits 10 n, rfl, .inl rfl, Nat.toDigits_ne_nil,
    fun _ hc => Nat.isDigit_of_mem_toDigits (by decide) (by decide) hc, Nat.ofDigitChars_ten_toDigits.symm⟩

/-! ## What is around it -/

/-- Text that is all white space. -/
def Blank (text : Text) : Prop := ∀ c ∈ text, isWhitespace c = true

def Tight (text : Text) : Prop :=
  (∀ c ∈ text.head?, isWhitespace c = false) ∧ ∀ c ∈ text.getLast?, isWhitespace c = false

theorem dropWhile_tight {text rest : Text} (hblank : Blank text) (htight : ∀ c ∈ rest.head?, isWhitespace c = false) :
    (text ++ rest).dropWhile isWhitespace = rest := by
  rw [List.dropWhile_append_of_pos hblank]
  cases rest with
  | nil => rfl
  | cons c rest =>
    have hc := htight c rfl
    rw [List.dropWhile_cons_of_neg (by rw [hc]; exact Bool.false_ne_true)]

theorem trim_eq {before core after : Text} (hbefore : Blank before) (hcore : Tight core) (hafter : Blank after) :
    trim (before ++ core ++ after) = core := by
  rw [trim, List.rdropWhile, List.append_assoc]
  cases hempty : core with
  | nil =>
    have hblank : Blank (before ++ after) := fun c hc => (List.mem_append.mp hc).elim (hbefore c) (hafter c)
    rw [List.nil_append, List.dropWhile_eq_nil_iff.mpr hblank]
    rfl
  | cons c rest =>
    have hhead : ∀ c' ∈ (core ++ after).head?, isWhitespace c' = false := by
      intro c' hc'
      apply hcore.1
      rw [hempty] at hc' ⊢
      exact hc'
    have hlast : ∀ c' ∈ core.reverse.head?, isWhitespace c' = false := by
      rw [List.head?_reverse]
      exact hcore.2
    rw [← hempty, dropWhile_tight hbefore hhead, List.reverse_append,
      dropWhile_tight (fun c hc => hafter c (List.mem_reverse.mp hc)) hlast, List.reverse_reverse]

theorem trim_split (text : Text) : Tight (trim text) ∧ ∃ before after, Blank before ∧ Blank after ∧
    text = before ++ trim text ++ after := by
  have hfront : ∀ c ∈ (text.dropWhile isWhitespace).head?, isWhitespace c = false := by
    intro c hc
    have hnot := List.head?_dropWhile_not isWhitespace text
    rw [hc] at hnot
    simpa using hnot
  refine ⟨⟨?_, ?_⟩, text.takeWhile isWhitespace, (text.dropWhile isWhitespace).rtakeWhile isWhitespace, ?_, ?_, ?_⟩
  · intro c hc
    apply hfront
    obtain ⟨rest, hrest⟩ := List.rdropWhile_prefix isWhitespace (text.dropWhile isWhitespace)
    rw [← hrest, List.head?_append]
    rw [trim] at hc
    rw [hc]
    rfl
  · intro c hc
    by_contra hblank
    obtain ⟨hne, rfl⟩ := List.mem_getLast?_eq_getLast hc
    exact List.rdropWhile_last_not isWhitespace _ hne (eq_true_of_ne_false hblank)
  · exact fun c hc => List.mem_takeWhile_imp hc
  · exact fun c hc => List.mem_rtakeWhile_imp hc
  · rw [trim, List.append_assoc, List.rdropWhile_append_rtakeWhile, List.takeWhile_append_dropWhile]

/-! ## Letters -/

theorem blank_not_alpha {c : Char} (h : isWhitespace c = true) : c.isAlpha = false := by
  simp only [isWhitespace, Bool.or_eq_true, Bool.and_eq_true, decide_eq_true_eq, beq_iff_eq] at h
  have hval : c.val.toNat = c.toNat := rfl
  simp [Char.isAlpha, Char.isUpper, Char.isLower, UInt32.le_iff_toNat_le, hval]
  omega

theorem digit_not_alpha {c : Char} (h : c.isDigit = true) : c.isAlpha = false := by
  simp [Char.isDigit, UInt32.le_iff_toNat_le] at h
  simp [Char.isAlpha, Char.isUpper, Char.isLower, UInt32.le_iff_toNat_le]
  omega

theorem digit_not_blank {c : Char} (h : c.isDigit = true) : isWhitespace c = false := by
  simp [Char.isDigit, UInt32.le_iff_toNat_le] at h
  simp [isWhitespace]
  omega

theorem Decimal.plain {text : Text} {n : Nat} (h : Decimal text n) :
    text ≠ [] ∧ ∀ c ∈ text, c.isAlpha = false ∧ isWhitespace c = false := by
  obtain ⟨sign, figures, rfl, hsign, hne, hdigits, -⟩ := h
  refine ⟨fun hnil => hne (List.append_eq_nil_iff.mp hnil).2, ?_⟩
  intro c hc
  obtain hc | hc := List.mem_append.mp hc
  · obtain rfl | rfl := hsign
    · cases hc
    · rw [List.mem_singleton.mp hc]
      decide
  · exact ⟨digit_not_alpha (hdigits c hc), digit_not_blank (hdigits c hc)⟩

theorem Decimal.tight {text : Text} {n : Nat} (h : Decimal text n) : Tight text :=
  ⟨fun c hc => (h.plain.2 c (List.mem_of_head? hc)).2, fun c hc => (h.plain.2 c (List.mem_of_getLast? hc)).2⟩

theorem toLower_not_alpha {c : Char} (h : c.isAlpha = false) : c.toLower = c := by
  unfold Char.toLower
  split
  · next hupper =>
    simp [Char.isAlpha, Char.isUpper, UInt32.le_iff_toNat_le] at h hupper
    omega
  · rfl

theorem toLower_of_not_alpha {c : Char} (h : c.toLower.isAlpha = false) : c.toLower = c := by
  unfold Char.toLower at h ⊢
  split
  · next hupper =>
    rw [dif_pos hupper] at h
    simp only [ge_iff_le, UInt32.le_iff_toNat_le] at hupper
    simp [Char.isAlpha, Char.isUpper, Char.isLower, UInt32.le_iff_toNat_le] at h hupper
    omega
  · rfl

theorem toAsciiLowercase_eq {text : Text} (h : ∀ c ∈ toAsciiLowercase text, c.isAlpha = false) :
    toAsciiLowercase text = text := by
  rw [toAsciiLowercase] at h ⊢
  calc text.map Char.toLower = text.map id :=
        List.map_congr_left fun c hc => toLower_of_not_alpha (h _ (List.mem_map_of_mem hc))
    _ = text := List.map_id text

theorem suffix_letters {text word other : Text} (htext : ∀ c ∈ text.getLast?, c.isAlpha = false)
    (hword : ∀ c ∈ other, c.isAlpha = true) : other <:+ text ++ word ↔ other <:+ word := by
  constructor
  · intro h
    obtain hless | ⟨more, rfl⟩ := List.suffix_or_suffix_of_suffix h (List.suffix_append text word)
    · exact hless
    · obtain ⟨before, hbefore⟩ := h
      rw [← List.append_assoc] at hbefore
      have htail := List.append_cancel_right hbefore
      cases hlast : more.getLast? with
      | none =>
        rw [List.getLast?_eq_none_iff.mp hlast]
        exact List.suffix_refl _
      | some c =>
        have hmem : c ∈ more := List.mem_of_getLast? hlast
        have halpha := hword c (List.mem_append_left _ hmem)
        rw [htext c (by rw [← htail, List.getLast?_append, hlast]; rfl)] at halpha
        cases halpha
  · intro h
    exact h.trans (List.suffix_append text word)

theorem stripSuffix_append (text suffix : Text) : stripSuffix (text ++ suffix) suffix = some text := by
  rw [stripSuffix, if_pos (List.suffix_append text suffix), List.length_append, Nat.add_sub_cancel, List.take_left]

theorem stripSuffix_eq_some {text suffix rest : Text} (h : stripSuffix text suffix = some rest) :
    text = rest ++ suffix := by
  rw [stripSuffix, Option.ite_none_right_eq_some] at h
  obtain ⟨⟨before, rfl⟩, h⟩ := h
  rw [List.length_append, Nat.add_sub_cancel, List.take_left, Option.some.injEq] at h
  rw [h]

end Text

namespace Config
open Text

structure Bad where
  text : Text
deriving DecidableEq

/-! ## Sizes -/

/-- The first number that is too large for a machine word. -/
def usizeEnd : Nat := 2 ^ 64

/-- The units that a size may carry, as they are tried, and what each of them is worth. -/
def units : List (Text × Nat) :=
  [("kb".toList, 1024), ("mb".toList, 1024 * 1024), ("gb".toList, 1024 * 1024 * 1024), ("k".toList, 1000),
    ("m".toList, 1000000), ("g".toList, 1000000000), ("b".toList, 1)]

/-- What stands before the unit of a size, and what the unit is worth. -/
def unitOf (lower : Text) : Text × Nat :=
  (units.findSome? fun unit => (lower.stripSuffix unit.1).map fun rest => (rest, unit.2)).getD (lower, 1)

def bytes (text : Text) : Except Bad Nat :=
  let (digits, scale) := unitOf text.trim.toAsciiLowercase
  match parse usizeEnd digits.trim with
  | none => .error ⟨"--maxmemory takes a size, not ".toList ++ text⟩
  | some count =>
    if count * scale < usizeEnd then .ok (count * scale)
    else .error ⟨"--maxmemory of ".toList ++ text ++ " does not fit in a machine word".toList⟩

/-- A unit, in either case, or none. -/
def Scales (unit : Text) (scale : Nat) : Prop := (toAsciiLowercase unit, scale) ∈ units ∨ unit = [] ∧ scale = 1

/-- What a size is written as: so many of a unit. -/
def Sized (text : Text) (count scale : Nat) : Prop :=
  ∃ before figures between unit after : Text, text = before ++ (figures ++ between ++ unit) ++ after ∧ Blank before ∧
    Blank between ∧ Blank after ∧ Decimal figures count ∧ Scales unit scale

theorem units_letters : ∀ unit ∈ units, unit.1 ≠ [] ∧ ∀ c ∈ unit.1, c.isAlpha = true := by simp [units]

theorem units_pos : ∀ unit ∈ units, 0 < unit.2 := by decide

/-- None that is tried before another is what that ends in. -/
theorem units_order : units.Pairwise fun unit other => ¬ unit.1 <:+ other.1 := by decide

theorem stripSuffix_letters {text word other : Text} (htext : ∀ c ∈ text.getLast?, c.isAlpha = false)
    (hword : ∀ c ∈ other, c.isAlpha = true) (hnot : ¬ other <:+ word) : (text ++ word).stripSuffix other = none := by
  rw [stripSuffix, if_neg]
  rwa [suffix_letters htext hword]

theorem unitOf_append {text unit : Text} {scale : Nat} (htext : ∀ c ∈ text.getLast?, c.isAlpha = false)
    (hunit : (unit, scale) ∈ units ∨ unit = [] ∧ scale = 1) : unitOf (text ++ unit) = (text, scale) := by
  rw [unitOf]
  obtain hmem | ⟨rfl, rfl⟩ := hunit
  · obtain ⟨before, after, hsplit⟩ := List.append_of_mem hmem
    have horder := units_order
    rw [hsplit, List.pairwise_append] at horder
    have hfound : (units.findSome? fun unit' => ((text ++ unit).stripSuffix unit'.1).map fun rest => (rest, unit'.2)) =
        some (text, scale) := by
      apply List.findSome?_eq_some_iff.mpr
      refine ⟨before, (unit, scale), after, hsplit, ?_, ?_⟩
      · rw [stripSuffix_append]
        rfl
      · intro other hother
        have hletters := units_letters other (hsplit ▸ List.mem_append_left _ hother)
        rw [stripSuffix_letters htext hletters.2 (horder.2.2 other hother _ (List.mem_cons_self ..))]
        rfl
    rw [hfound]
    rfl
  · have hnone :
        (units.findSome? fun unit' => ((text ++ []).stripSuffix unit'.1).map fun rest => (rest, unit'.2)) = none := by
      apply List.findSome?_eq_none_iff.mpr
      intro other hother
      have hletters := units_letters other hother
      rw [stripSuffix_letters htext hletters.2 (fun h => hletters.1 (List.suffix_nil.mp h))]
      rfl
    rw [hnone, List.append_nil]
    rfl

theorem unitOf_split (lower : Text) : ∃ unit, lower = (unitOf lower).1 ++ unit ∧
    ((unit, (unitOf lower).2) ∈ units ∨ unit = [] ∧ (unitOf lower).2 = 1) := by
  rw [unitOf]
  cases hfound : units.findSome? fun unit => (lower.stripSuffix unit.1).map fun rest => (rest, unit.2) with
  | none => exact ⟨[], (List.append_nil lower).symm, .inr ⟨rfl, rfl⟩⟩
  | some found =>
    obtain ⟨unit, hmem, hunit⟩ := List.exists_of_findSome?_eq_some hfound
    obtain ⟨rest, hrest, rfl⟩ := Option.map_eq_some_iff.mp hunit
    exact ⟨unit.1, stripSuffix_eq_some hrest, .inl hmem⟩

theorem Scales.letters {unit : Text} {scale : Nat} (h : Scales unit scale) : ∀ c ∈ unit, c.isAlpha = true := by
  intro c hc
  obtain hmem | ⟨rfl, -⟩ := h
  · by_contra hnot
    have halpha := (units_letters _ hmem).2 c.toLower (List.mem_map_of_mem hc)
    rw [toLower_not_alpha (eq_false_of_ne_true hnot)] at halpha
    exact hnot halpha
  · cases hc

theorem sized_iff {text : Text} {count scale : Nat} : Sized text count scale ↔
    (unitOf text.trim.toAsciiLowercase).2 = scale ∧ Decimal (unitOf text.trim.toAsciiLowercase).1.trim count := by
  constructor
  · rintro ⟨before, figures, between, unit, after, rfl, hbefore, hbetween, hafter, hcount, hunit⟩
    -- without a unit what is between is at the end
    obtain ⟨gap, hgap, htrim⟩ : ∃ gap, Blank gap ∧
        trim (before ++ (figures ++ between ++ unit) ++ after) = figures ++ gap ++ unit := by
      have hhead : ∀ more : Text, ∀ c ∈ (figures ++ more).head?, isWhitespace c = false := by
        intro more c hc
        obtain ⟨c', rest, hcons⟩ := List.exists_cons_of_ne_nil hcount.plain.1
        rw [hcons, List.cons_append, List.head?_cons, Option.mem_some_iff] at hc
        exact (hcount.plain.2 c (by rw [hcons, ← hc]; exact List.mem_cons_self ..)).2
      by_cases hnil : unit = []
      · subst hnil
        have hends : Blank (between ++ after) := fun c hc => (List.mem_append.mp hc).elim (hbetween c) (hafter c)
        refine ⟨[], List.forall_mem_nil _, ?_⟩
        rw [List.append_nil, List.append_nil, List.append_nil, List.append_assoc, List.append_assoc,
          ← List.append_assoc]
        exact trim_eq hbefore hcount.tight hends
      · refine ⟨between, hbetween, trim_eq hbefore ⟨?_, ?_⟩ hafter⟩
        · rw [List.append_assoc]
          exact hhead (between ++ unit)
        · intro c hc
          rw [List.getLast?_append_of_ne_nil _ hnil] at hc
          by_contra hblank
          have halpha := hunit.letters c (List.mem_of_getLast? hc)
          rw [blank_not_alpha (eq_true_of_ne_false hblank)] at halpha
          cases halpha
    have hplain : ∀ c ∈ figures ++ gap, c.isAlpha = false := by
      intro c hc
      obtain hc | hc := List.mem_append.mp hc
      · exact (hcount.plain.2 c hc).1
      · exact blank_not_alpha (hgap c hc)
    have hlower : toAsciiLowercase (figures ++ gap ++ unit) = (figures ++ gap) ++ toAsciiLowercase unit := by
      rw [toAsciiLowercase, List.map_append]
      apply congrArg (· ++ unit.map Char.toLower)
      calc (figures ++ gap).map Char.toLower = (figures ++ gap).map id :=
            List.map_congr_left fun c hc => toLower_not_alpha (hplain c hc)
        _ = figures ++ gap := List.map_id _
    have hlast : ∀ c ∈ (figures ++ gap).getLast?, c.isAlpha = false := fun c hc => hplain c (List.mem_of_getLast? hc)
    have hfound : (toAsciiLowercase unit, scale) ∈ units ∨ toAsciiLowercase unit = [] ∧ scale = 1 :=
      hunit.imp_right fun h => ⟨by rw [h.1]; rfl, h.2⟩
    have hfigures : trim (figures ++ gap) = figures := trim_eq (List.forall_mem_nil _) hcount.tight hgap
    rw [htrim, hlower, unitOf_append hlast hfound, hfigures]
    exact ⟨rfl, hcount⟩
  · rintro ⟨rfl, hcount⟩
    obtain ⟨-, before, after, hbefore, hafter, htext⟩ := trim_split text
    obtain ⟨word, hlower, hword⟩ := unitOf_split text.trim.toAsciiLowercase
    obtain ⟨rest, unit, hcore, hrest, hunit⟩ := List.map_eq_append_iff.mp hlower
    generalize (unitOf text.trim.toAsciiLowercase).1 = left at hcount hrest
    obtain ⟨-, front, back, hfront, hback, hleft⟩ := trim_split left
    have hsame : rest = left := by
      have hplain : ∀ c ∈ toAsciiLowercase rest, c.isAlpha = false := by
        rw [toAsciiLowercase, hrest, hleft]
        intro c hc
        obtain hc | hc := List.mem_append.mp hc
        · obtain hc | hc := List.mem_append.mp hc
          · exact blank_not_alpha (hfront c hc)
          · exact (hcount.plain.2 c hc).1
        · exact blank_not_alpha (hback c hc)
      exact (toAsciiLowercase_eq hplain).symm.trans hrest
    refine ⟨before ++ front, left.trim, back, unit, after, ?_, ?_, hback, hafter, hcount, ?_⟩
    · calc text = before ++ (rest ++ unit) ++ after := by rw [← hcore]; exact htext
        _ = before ++ (front ++ left.trim ++ back ++ unit) ++ after := by rw [hsame, ← hleft]
        _ = before ++ front ++ (left.trim ++ back ++ unit) ++ after := by simp only [List.append_assoc]
    · exact fun c hc => (List.mem_append.mp hc).elim (hbefore c) (hfront c)
    · obtain hmem | ⟨hnil, hone⟩ := hword
      · rw [← hunit] at hmem
        exact .inl hmem
      · rw [hnil, List.map_eq_nil_iff] at hunit
        exact .inr ⟨hunit, hone⟩

/-- A size that is not too large is the number that it tells of its unit; and why any other is refused. -/
theorem bytes_cases (text : Text) :
    (∃ count scale, Sized text count scale ∧ count < usizeEnd ∧ count * scale < usizeEnd ∧
      bytes text = .ok (count * scale)) ∨
    (∃ count scale, Sized text count scale ∧ count < usizeEnd ∧ usizeEnd ≤ count * scale ∧
      bytes text = .error ⟨"--maxmemory of ".toList ++ text ++ " does not fit in a machine word".toList⟩) ∨
    ((∀ count scale, Sized text count scale → usizeEnd ≤ count) ∧
      bytes text = .error ⟨"--maxmemory takes a size, not ".toList ++ text⟩) := by
  cases hread : parse usizeEnd (unitOf text.trim.toAsciiLowercase).1.trim with
  | none =>
    refine .inr (.inr ⟨?_, by simp only [bytes, hread]⟩)
    intro count scale hsized
    by_contra hless
    have hsome := Text.parse_decimal.mpr ⟨(sized_iff.mp hsized).2, Nat.lt_of_not_le hless⟩
    rw [hread] at hsome
    cases hsome
  | some count =>
    obtain ⟨hcount, hless⟩ := Text.parse_decimal.mp hread
    have hsized : Sized text count (unitOf text.trim.toAsciiLowercase).2 := sized_iff.mpr ⟨rfl, hcount⟩
    by_cases hfits : count * (unitOf text.trim.toAsciiLowercase).2 < usizeEnd
    · exact .inl ⟨count, _, hsized, hless, hfits, by simp only [bytes, hread, if_pos hfits]⟩
    · exact .inr (.inl ⟨count, _, hsized, hless, Nat.le_of_not_lt hfits, by simp only [bytes, hread, if_neg hfits]⟩)

theorem Scales.pos {unit : Text} {scale : Nat} (h : Scales unit scale) : 0 < scale := by
  obtain hmem | ⟨-, rfl⟩ := h
  · exact units_pos _ hmem
  · exact Nat.one_pos

theorem Sized.unique {text : Text} {count scale count' scale' : Nat} (h : Sized text count scale)
    (h' : Sized text count' scale') : count = count' ∧ scale = scale' := by
  obtain ⟨hscale, hcount⟩ := sized_iff.mp h
  obtain ⟨hscale', hcount'⟩ := sized_iff.mp h'
  exact ⟨hcount.unique hcount', hscale.symm.trans hscale'⟩

theorem bytes_ok {text : Text} {count scale : Nat} (hsized : Sized text count scale)
    (hfits : count * scale < usizeEnd) : bytes text = .ok (count * scale) := by
  have hpos : 0 < scale := by
    obtain ⟨_, _, _, _, _, _, _, _, _, _, hunit⟩ := hsized
    exact hunit.pos
  have hcount : count ≤ count * scale := Nat.le_mul_of_pos_right count hpos
  obtain ⟨count', scale', hsized', -, -, hbytes⟩ | ⟨count', scale', hsized', -, hlarge, -⟩ | ⟨hnone, -⟩ :=
    bytes_cases text
  · obtain ⟨rfl, rfl⟩ := hsized.unique hsized'
    exact hbytes
  · obtain ⟨rfl, rfl⟩ := hsized.unique hsized'
    exact absurd hfits (Nat.not_lt_of_le hlarge)
  · exact absurd (Nat.lt_of_le_of_lt hcount hfits) (Nat.not_lt_of_le (hnone count scale hsized))

/-- A size is understood if it is a number, with a unit after it or not, in either case and with any white
space around them; and if as many bytes can be counted. -/
theorem bytes_iff {text : Text} {n : Nat} :
    bytes text = .ok n ↔ ∃ count scale, Sized text count scale ∧ n = count * scale ∧ n < 2 ^ 64 := by
  constructor
  · intro h
    obtain ⟨count, scale, hsized, -, hfits, hbytes⟩ | ⟨count, scale, -, -, -, hbytes⟩ | ⟨-, hbytes⟩ := bytes_cases text
    · rw [h] at hbytes
      cases hbytes
      exact ⟨count, scale, hsized, rfl, hfits⟩
    · rw [h] at hbytes
      cases hbytes
    · rw [h] at hbytes
      cases hbytes
  · rintro ⟨count, scale, hsized, rfl, hfits⟩
    exact bytes_ok hsized hfits

example : bytes "32gb".toList = .ok (32 * 1024 * 1024 * 1024) := by decide

end Config

/-! ## The command line -/

/-- Whether to use `io_uring`, when there is one to use. -/
inductive Config.Uring
  | auto | yes | no
deriving DecidableEq

/-- How the server was configured. -/
structure Config where
  threads : Nat
  port : Option Nat
  unixsocket : Option Text
  maxmemory : Nat
  shards : Nat
  uring : Config.Uring
deriving DecidableEq

namespace Config
open Text

/-- What the arguments asked for. -/
inductive Asked
  | serve (config : Config)
  | version
  | usage
deriving DecidableEq

def defaultPort : Nat := 6379

/-- The first number that is no port. -/
def portEnd : Nat := 2 ^ 16

def shardsPerThread : Nat := 16

def minShards : Nat := 64

/-- How many shards a map gets when nobody asks, for so many threads. -/
def shardsFor (threads : Nat) : Nat :=
  nextPowerOfTwo (min (max (min (threads * shardsPerThread) (usizeEnd - 1)) minShards) maxShards)

/-- The configuration that nothing is asked of, on a machine that says that it has so many cores or
does not say. -/
def default (cores : Option {n : Nat // 0 < n}) : Config where
  threads := cores.elim 1 Subtype.val
  port := some defaultPort
  unixsocket := none
  maxmemory := 0
  shards := shardsFor (cores.elim 1 Subtype.val)
  uring := .no

/-- What an argument can be about. -/
inductive Flag
  | version | help | noPort | port | threads | shards | unixsocket | maxmemory | uring
deriving DecidableEq

def Flag.of (arg : Text) : Option Flag :=
  if arg = "--version".toList ∨ arg = "-v".toList then some .version
  else if arg = "--help".toList ∨ arg = "-h".toList then some .help
  else if arg = "--no-port".toList then some .noPort
  else if arg = "--port".toList ∨ arg = "-p".toList then some .port
  else if arg = "--threads".toList then some .threads
  else if arg = "--shards".toList then some .shards
  else if arg = "--unixsocket".toList then some .unixsocket
  else if arg = "--maxmemory".toList then some .maxmemory
  else if arg = "--uring".toList then some .uring
  else none

def number (bound : Nat) (text flag : Text) : Except Bad Nat :=
  match Text.parse bound text with
  | some n => .ok n
  | none => .error ⟨flag ++ " takes a number, not ".toList ++ text⟩

def Uring.of (text : Text) : Option Uring :=
  if text = "auto".toList then some .auto
  else if text = "yes".toList ∨ text = "true".toList ∨ text = "1".toList then some .yes
  else if text = "no".toList ∨ text = "false".toList ∨ text = "0".toList then some .no
  else none

/-- What has been read so far. How many shards there are to be is held aside, and so is whether there is
to be no port. -/
structure Reading where
  config : Config
  shards : Option Nat
  noPort : Bool

/-- What a flag that takes a value makes of it. -/
def Reading.take (r : Reading) (flag : Flag) (arg text : Text) : Except Bad Reading :=
  match flag with
  | .port => do
    let n ← number portEnd text arg
    pure { r with config := { r.config with port := some n } }
  | .threads => do
    let n ← number usizeEnd text arg
    pure { r with config := { r.config with threads := max n 1 } }
  | .shards => do
    let n ← number usizeEnd text arg
    pure { r with shards := some (max n 1) }
  | .unixsocket => pure { r with config := { r.config with unixsocket := some text } }
  | .maxmemory => do
    let n ← bytes text
    pure { r with config := { r.config with maxmemory := n } }
  | .uring =>
    match Uring.of text with
    | some uring => pure { r with config := { r.config with uring } }
    | none => .error ⟨"--uring takes auto, yes or no, not ".toList ++ text⟩
  | .version | .help | .noPort => pure r

/-- What is settled once the arguments have been read. -/
def Reading.settle (r : Reading) : Config :=
  { r.config with
    shards := r.shards.getD (shardsFor r.config.threads)
    port := if r.noPort then none else r.config.port }

def Reading.finish (r : Reading) : Except Bad Asked :=
  if r.settle.port = none ∧ r.settle.unixsocket = none then
    .error ⟨"--no-port with no --unixsocket leaves nothing to listen on".toList⟩
  else .ok (.serve r.settle)

def parseFrom : List Text → Reading → Except Bad Asked
  | [], r => r.finish
  | arg :: args, r =>
    match Flag.of arg with
    | none => .error ⟨"unknown option ".toList ++ arg⟩
    | some .version => .ok .version
    | some .help => .ok .usage
    | some .noPort => parseFrom args { r with noPort := true }
    | some flag =>
      match args with
      | [] => .error ⟨arg ++ " needs a value".toList⟩
      | text :: args =>
        match r.take flag arg text with
        | .error bad => .error bad
        | .ok r => parseFrom args r

/-- Read the arguments, without the program's name. -/
def parse (cores : Option {n : Nat // 0 < n}) (args : List Text) : Except Bad Asked :=
  parseFrom args ⟨default cores, none, false⟩

/-! ## Settings -/

/-- Something that a command line can ask for. -/
inductive Setting
  | noPort
  | port (n : Nat)
  | threads (n : Nat)
  | shards (n : Nat)
  | unixsocket (path : Text)
  | maxmemory (n : Nat)
  | uring (uring : Uring)
deriving DecidableEq

def Setting.about : Setting → Flag
  | .noPort => .noPort
  | .port _ => .port
  | .threads _ => .threads
  | .shards _ => .shards
  | .unixsocket _ => .unixsocket
  | .maxmemory _ => .maxmemory
  | .uring _ => .uring

/-- The words that ask for it. -/
inductive Spells : Setting → List Text → Prop
  | noPort {arg} : Flag.of arg = some .noPort → Spells .noPort [arg]
  | port {arg text n} : Flag.of arg = some .port → Decimal text n → n < portEnd → Spells (.port n) [arg, text]
  | threads {arg text n} : Flag.of arg = some .threads → Decimal text n → n < usizeEnd → Spells (.threads n) [arg, text]
  | shards {arg text n} : Flag.of arg = some .shards → Decimal text n → n < usizeEnd → Spells (.shards n) [arg, text]
  | unixsocket {arg path} : Flag.of arg = some .unixsocket → Spells (.unixsocket path) [arg, path]
  | maxmemory {arg text count scale} : Flag.of arg = some .maxmemory → Sized text count scale →
    count * scale < usizeEnd →
      Spells (.maxmemory (count * scale)) [arg, text]
  | uring {arg text uring} : Flag.of arg = some .uring → Uring.of text = some uring → Spells (.uring uring) [arg, text]

inductive Line : List Setting → List Text → Prop
  | nil : Line [] []
  | cons {setting settings words args} : Spells setting words → Line settings args →
      Line (setting :: settings) (words ++ args)

/-- The last that they say about something. -/
def lastOf {α : Type} (f : Setting → Option α) (settings : List Setting) : Option α := settings.reverse.findSome? f

/-- What such settings come to. -/
def settled (cores : Option {n : Nat // 0 < n}) (settings : List Setting) : Config :=
  let threads := (lastOf (fun | .threads n => some (max n 1) | _ => none) settings).getD (cores.elim 1 Subtype.val)
  { threads
    port := if .noPort ∈ settings then none
      else some ((lastOf (fun | .port n => some n | _ => none) settings).getD defaultPort)
    unixsocket := lastOf (fun | .unixsocket path => some path | _ => none) settings
    maxmemory := (lastOf (fun | .maxmemory n => some n | _ => none) settings).getD 0
    shards := (lastOf (fun | .shards n => some (max n 1) | _ => none) settings).getD (shardsFor threads)
    uring := (lastOf (fun | .uring uring => some uring | _ => none) settings).getD .no }

/-- A server that listens to nothing. -/
def Deaf (config : Config) : Prop := config.port = none ∧ config.unixsocket = none

instance (config : Config) : Decidable config.Deaf := inferInstanceAs (Decidable (_ ∧ _))

/-- What is the matter with arguments that begin with no setting. -/
inductive Faulty : List Text → Bad → Prop
  | unknown {arg args} : Flag.of arg = none → Faulty (arg :: args) ⟨"unknown option ".toList ++ arg⟩
  | bare {arg flag} : Flag.of arg = some flag → flag ∉ [.version, .help, .noPort] →
      Faulty [arg] ⟨arg ++ " needs a value".toList⟩
  | number {arg text args flag end_} : Flag.of arg = some flag →
      (flag, end_) ∈ [(.port, portEnd), (.threads, usizeEnd), (.shards, usizeEnd)] →
      (∀ n, Decimal text n → end_ ≤ n) → Faulty (arg :: text :: args) ⟨arg ++ " takes a number, not ".toList ++ text⟩
  | size {arg text args} : Flag.of arg = some .maxmemory → (∀ count scale, Sized text count scale → usizeEnd ≤ count) →
      Faulty (arg :: text :: args) ⟨"--maxmemory takes a size, not ".toList ++ text⟩
  | large {arg text args count scale} : Flag.of arg = some .maxmemory → Sized text count scale → count < usizeEnd →
      usizeEnd ≤ count * scale →
      Faulty (arg :: text :: args) ⟨"--maxmemory of ".toList ++ text ++ " does not fit in a machine word".toList⟩
  | uring {arg text args} : Flag.of arg = some .uring → Uring.of text = none →
      Faulty (arg :: text :: args) ⟨"--uring takes auto, yes or no, not ".toList ++ text⟩

/-- What a command line asks for, or why it is refused. What comes after a version that is asked for, or
after what is the matter, is not looked at. -/
inductive Asks (cores : Option {n : Nat // 0 < n}) : List Text → Except Bad Asked → Prop
  | serve {settings args} : Line settings args → ¬ (settled cores settings).Deaf →
      Asks cores args (.ok (.serve (settled cores settings)))
  | deaf {settings args} : Line settings args → (settled cores settings).Deaf →
      Asks cores args (.error ⟨"--no-port with no --unixsocket leaves nothing to listen on".toList⟩)
  | version {settings args arg rest} : Line settings args → Flag.of arg = some .version →
      Asks cores (args ++ arg :: rest) (.ok .version)
  | usage {settings args arg rest} : Line settings args → Flag.of arg = some .help →
      Asks cores (args ++ arg :: rest) (.ok .usage)
  | faulty {settings args rest bad} : Line settings args → Faulty rest bad → Asks cores (args ++ rest) (.error bad)

/-! ## Reading them -/

/-- What a setting makes of what has been read. -/
def Setting.read (r : Reading) : Setting → Reading
  | .noPort => { r with noPort := true }
  | .port n => { r with config := { r.config with port := some n } }
  | .threads n => { r with config := { r.config with threads := max n 1 } }
  | .shards n => { r with shards := some (max n 1) }
  | .unixsocket path => { r with config := { r.config with unixsocket := some path } }
  | .maxmemory n => { r with config := { r.config with maxmemory := n } }
  | .uring how => { r with config := { r.config with uring := how } }

theorem number_ok {bound n : Nat} {text : Text} (hcount : Decimal text n) (hless : n < bound) (flag : Text) :
    number bound text flag = .ok n := by
  rw [number, Text.parse_decimal.mpr ⟨hcount, hless⟩]

theorem parseFrom_take {arg text : Text} {flag : Flag} {rest : List Text} {r : Reading}
    (hflag : Flag.of arg = some flag)
    (hvalue : flag ∉ [.version, .help, .noPort]) : parseFrom (arg :: text :: rest) r =
      match r.take flag arg text with
      | .error bad => .error bad
      | .ok r => parseFrom rest r := by
  cases flag with
  | version | help | noPort => exact absurd (by decide) hvalue
  | _ => simp only [parseFrom, hflag]

theorem Spells.reads {setting : Setting} {words : List Text} (h : Spells setting words) (rest : List Text)
    (r : Reading) : parseFrom (words ++ rest) r = parseFrom rest (setting.read r) := by
  cases h with
  | noPort hflag => simp only [List.singleton_append, parseFrom, hflag, Setting.read]
  | port hflag hcount hless | threads hflag hcount hless | shards hflag hcount hless =>
    rw [List.cons_append, List.singleton_append, parseFrom_take hflag (by decide)]
    simp only [Reading.take, number_ok hcount hless]
    rfl
  | unixsocket hflag =>
    rw [List.cons_append, List.singleton_append, parseFrom_take hflag (by decide)]
    rfl
  | maxmemory hflag hsized hfits =>
    rw [List.cons_append, List.singleton_append, parseFrom_take hflag (by decide)]
    simp only [Reading.take, bytes_ok hsized hfits]
    rfl
  | uring hflag huring =>
    rw [List.cons_append, List.singleton_append, parseFrom_take hflag (by decide)]
    simp only [Reading.take, huring]
    rfl

theorem Line.reads {settings : List Setting} {args : List Text} (h : Line settings args) (rest : List Text)
    (r : Reading) : parseFrom (args ++ rest) r = parseFrom rest (settings.foldl Setting.read r) := by
  induction h generalizing r with
  | nil => rfl
  | cons hspells _ ih => rw [List.append_assoc, hspells.reads, ih, List.foldl_cons]

theorem number_error {bound : Nat} {text : Text} (hnone : ∀ n, Decimal text n → bound ≤ n) (flag : Text) :
    number bound text flag = .error ⟨flag ++ " takes a number, not ".toList ++ text⟩ := by
  cases hread : Text.parse bound text with
  | none => rw [number, hread]
  | some n =>
    obtain ⟨hcount, hless⟩ := Text.parse_decimal.mp hread
    exact absurd hless (Nat.not_lt_of_le (hnone n hcount))

theorem Faulty.reads {rest : List Text} {bad : Bad} (h : Faulty rest bad) (r : Reading) :
    parseFrom rest r = .error bad := by
  cases h with
  | unknown hflag => simp only [parseFrom, hflag]
  | @bare arg flag hflag hvalue =>
    cases flag with
    | version | help | noPort => exact absurd (by decide) hvalue
    | _ => simp only [parseFrom, hflag]
  | number hflag hend hnone =>
    simp only [List.mem_cons, Prod.mk.injEq, List.not_mem_nil, or_false] at hend
    -- the port, the threads or the shards
    obtain ⟨rfl, rfl⟩ | ⟨rfl, rfl⟩ | ⟨rfl, rfl⟩ := hend <;> rw [parseFrom_take hflag (by decide)] <;>
      simp only [Reading.take, number_error hnone] <;> rfl
  | @size arg text args hflag hnone =>
    have hbytes : bytes text = .error ⟨"--maxmemory takes a size, not ".toList ++ text⟩ := by
      obtain ⟨count, scale, hsized, hless, -⟩ | ⟨count, scale, hsized, hless, -⟩ | ⟨-, hbytes⟩ := bytes_cases text
      · exact absurd hless (Nat.not_lt_of_le (hnone count scale hsized))
      · exact absurd hless (Nat.not_lt_of_le (hnone count scale hsized))
      · exact hbytes
    rw [parseFrom_take hflag (by decide)]
    simp only [Reading.take, hbytes]
    rfl
  | @large arg text args count scale hflag hsized hless hlarge =>
    have hbytes : bytes text =
        .error ⟨"--maxmemory of ".toList ++ text ++ " does not fit in a machine word".toList⟩ := by
      obtain ⟨count', scale', hsized', -, hfits, -⟩ | ⟨count', scale', -, -, -, hbytes⟩ | ⟨hnone, -⟩ := bytes_cases text
      · obtain ⟨rfl, rfl⟩ := hsized.unique hsized'
        exact absurd hfits (Nat.not_lt_of_le hlarge)
      · exact hbytes
      · exact absurd hless (Nat.not_lt_of_le (hnone count scale hsized))
    rw [parseFrom_take hflag (by decide)]
    simp only [Reading.take, hbytes]
    rfl
  | uring hflag hnone =>
    rw [parseFrom_take hflag (by decide)]
    simp only [Reading.take, hnone]

/-! ## What they come to -/

@[simp] theorem lastOf_nil {α : Type} (f : Setting → Option α) : lastOf f [] = none := rfl

@[simp] theorem lastOf_cons {α : Type} (f : Setting → Option α) (setting : Setting) (settings : List Setting) :
    lastOf f (setting :: settings) = (lastOf f settings).or (f setting) := by
  rw [lastOf, List.reverse_cons, List.findSome?_append]
  cases hlast : lastOf f settings with
  | none =>
    rw [lastOf] at hlast
    simp [hlast]
  | some a =>
    rw [lastOf] at hlast
    simp [hlast]

/-- Read one after another, the last that is said about each thing stands. -/
theorem foldl_read (settings : List Setting) (r : Reading) : settings.foldl Setting.read r =
    { config :=
        { threads := (lastOf (fun | .threads n => some (max n 1) | _ => none) settings).getD r.config.threads
          port := (lastOf (fun | .port n => some n | _ => none) settings).or r.config.port
          unixsocket := (lastOf (fun | .unixsocket path => some path | _ => none) settings).or r.config.unixsocket
          maxmemory := (lastOf (fun | .maxmemory n => some n | _ => none) settings).getD r.config.maxmemory
          shards := r.config.shards
          uring := (lastOf (fun | .uring uring => some uring | _ => none) settings).getD r.config.uring }
      shards := (lastOf (fun | .shards n => some (max n 1) | _ => none) settings).or r.shards
      noPort := decide (.noPort ∈ settings) || r.noPort } := by
  induction settings generalizing r with
  | nil => rfl
  | cons setting settings ih =>
    rw [List.foldl_cons, ih]
    cases setting <;> simp [Setting.read]

theorem foldl_settle (cores : Option {n : Nat // 0 < n}) (settings : List Setting) :
    (settings.foldl Setting.read ⟨default cores, none, false⟩).settle = settled cores settings := by
  rw [foldl_read, Reading.settle, settled]
  simp [default]

theorem decimal_cases (text : Text) (bound : Nat) :
    (∃ n, Decimal text n ∧ n < bound) ∨ ∀ n, Decimal text n → bound ≤ n := by
  by_cases h : ∃ n, Decimal text n ∧ n < bound
  · exact .inl h
  · exact .inr fun n hcount => Nat.le_of_not_lt fun hless => h ⟨n, hcount, hless⟩

theorem value_cases {arg : Text} {flag : Flag} (hflag : Flag.of arg = some flag)
    (hvalue : flag ∉ [.version, .help, .noPort])
    (text : Text) : (∃ setting, Spells setting [arg, text]) ∨ ∀ rest, ∃ bad, Faulty (arg :: text :: rest) bad := by
  cases flag with
  | version | help | noPort => exact absurd (by decide) hvalue
  | port =>
    obtain ⟨n, hcount, hless⟩ | hnone := decimal_cases text portEnd
    · exact .inl ⟨_, .port hflag hcount hless⟩
    · exact .inr fun rest => ⟨_, .number hflag (by simp) hnone⟩
  | threads =>
    obtain ⟨n, hcount, hless⟩ | hnone := decimal_cases text usizeEnd
    · exact .inl ⟨_, .threads hflag hcount hless⟩
    · exact .inr fun rest => ⟨_, .number hflag (by simp) hnone⟩
  | shards =>
    obtain ⟨n, hcount, hless⟩ | hnone := decimal_cases text usizeEnd
    · exact .inl ⟨_, .shards hflag hcount hless⟩
    · exact .inr fun rest => ⟨_, .number hflag (by simp) hnone⟩
  | unixsocket => exact .inl ⟨_, .unixsocket hflag⟩
  | maxmemory =>
    obtain ⟨count, scale, hsized, -, hfits, -⟩ | ⟨count, scale, hsized, hless, hlarge, -⟩ | ⟨hnone, -⟩ :=
      bytes_cases text
    · exact .inl ⟨_, .maxmemory hflag hsized hfits⟩
    · exact .inr fun rest => ⟨_, .large hflag hsized hless hlarge⟩
    · exact .inr fun rest => ⟨_, .size hflag hnone⟩
  | uring =>
    cases huring : Uring.of text with
    | none => exact .inr fun rest => ⟨_, .uring hflag huring⟩
    | some uring => exact .inl ⟨_, .uring hflag huring⟩

/-- Every command line is settings, and then nothing, or what stops the reading. -/
theorem line_total (args : List Text) : ∃ settings front rest, args = front ++ rest ∧ Line settings front ∧
    (rest = [] ∨ (∃ arg more, rest = arg :: more ∧ (Flag.of arg = some .version ∨ Flag.of arg = some .help)) ∨
      ∃ bad, Faulty rest bad) := by
  induction hlength : args.length using Nat.strong_induction_on generalizing args with
  | _ length ih =>
    cases args with
    | nil => exact ⟨[], [], [], rfl, .nil, .inl rfl⟩
    | cons arg args =>
      rw [List.length_cons] at hlength
      cases hflag : Flag.of arg with
      | none => exact ⟨[], [], _, rfl, .nil, .inr (.inr ⟨_, .unknown hflag⟩)⟩
      | some flag =>
        by_cases hvalue : flag ∈ [.version, .help, .noPort]
        · simp only [List.mem_cons, List.not_mem_nil, or_false] at hvalue
          obtain rfl | rfl | rfl := hvalue
          · exact ⟨[], [], _, rfl, .nil, .inr (.inl ⟨arg, args, rfl, .inl hflag⟩)⟩
          · exact ⟨[], [], _, rfl, .nil, .inr (.inl ⟨arg, args, rfl, .inr hflag⟩)⟩
          · obtain ⟨settings, front, rest, rfl, hline, hrest⟩ := ih args.length (by omega) args rfl
            exact ⟨_, _, rest, rfl, .cons (.noPort hflag) hline, hrest⟩
        · cases args with
          | nil => exact ⟨[], [], _, rfl, .nil, .inr (.inr ⟨_, .bare hflag hvalue⟩)⟩
          | cons text args =>
            rw [List.length_cons] at hlength
            obtain ⟨setting, hspells⟩ | hfaulty := value_cases hflag hvalue text
            · obtain ⟨settings, front, rest, rfl, hline, hrest⟩ := ih args.length (by omega) args rfl
              exact ⟨_, _, rest, rfl, .cons hspells hline, hrest⟩
            · exact ⟨[], [], _, rfl, .nil, .inr (.inr (hfaulty args))⟩

theorem Asks.parse_eq {cores : Option {n : Nat // 0 < n}} {args : List Text} {outcome : Except Bad Asked}
    (h : Asks cores args outcome) : parse cores args = outcome := by
  cases h with
  | serve hline hhears =>
    have hread := hline.reads [] ⟨default cores, none, false⟩
    rw [List.append_nil] at hread
    rw [parse, hread, parseFrom, Reading.finish, foldl_settle]
    exact if_neg hhears
  | deaf hline hdeaf =>
    have hread := hline.reads [] ⟨default cores, none, false⟩
    rw [List.append_nil] at hread
    rw [parse, hread, parseFrom, Reading.finish, foldl_settle]
    exact if_pos hdeaf
  | version hline hflag | usage hline hflag =>
    rw [parse, hline.reads]
    simp only [parseFrom, hflag]
  | faulty hline hfaulty => rw [parse, hline.reads, hfaulty.reads]

theorem asks_parse (cores : Option {n : Nat // 0 < n}) (args : List Text) : Asks cores args (parse cores args) := by
  have hsome : ∃ outcome, Asks cores args outcome := by
    obtain ⟨settings, front, rest, rfl, hline, rfl | ⟨arg, more, rfl, hflag | hflag⟩ | ⟨bad, hfaulty⟩⟩ :=
      line_total args
    · rw [List.append_nil]
      by_cases hdeaf : (settled cores settings).Deaf
      · exact ⟨_, .deaf hline hdeaf⟩
      · exact ⟨_, .serve hline hdeaf⟩
    · exact ⟨_, .version hline hflag⟩
    · exact ⟨_, .usage hline hflag⟩
    · exact ⟨_, .faulty hline hfaulty⟩
  obtain ⟨outcome, h⟩ := hsome
  rw [h.parse_eq]
  exact h

/-- What each command line asks for, or why it is refused: as its settings come to, of which the last about each
thing stands, or for what first is the matter. -/
theorem parse_iff (cores : Option {n : Nat // 0 < n}) (args : List Text) (outcome : Except Bad Asked) :
    parse cores args = outcome ↔ Asks cores args outcome := by
  constructor
  · rintro rfl
    exact asks_parse cores args
  · exact Asks.parse_eq

/-! ## Their order -/

theorem lastOf_about {α : Type} {f : Setting → Option α} {flag : Flag}
    (hf : ∀ setting, setting.about ≠ flag → f setting = none)
    (settings : List Setting) : lastOf f settings = lastOf f (settings.filter fun setting => setting.about = flag) := by
  induction settings with
  | nil => rfl
  | cons setting settings ih =>
    by_cases habout : setting.about = flag
    · rw [List.filter_cons_of_pos (by simpa using habout), lastOf_cons, lastOf_cons, ih]
    · rw [List.filter_cons_of_neg (by simpa using habout), lastOf_cons, ih, hf setting habout, Option.or_none]

/-- What is said last about a thing is told by the settings that are about it. -/
theorem lastOf_order {α : Type} (f : Setting → Option α) {flag : Flag}
    (hf : ∀ setting, setting.about ≠ flag → f setting = none) {settings settings' : List Setting}
    (hsame : (settings.filter fun setting => setting.about = flag) =
      settings'.filter fun setting => setting.about = flag) : lastOf f settings = lastOf f settings' := by
  rw [lastOf_about hf settings, lastOf_about hf settings', hsame]

theorem read_order {settings settings' : List Setting} (hsame : ∀ flag,
    (settings.filter fun setting => setting.about = flag) = settings'.filter fun setting => setting.about = flag)
    (r : Reading) : settings.foldl Setting.read r = settings'.foldl Setting.read r := by
  have hport : (.noPort ∈ settings ↔ .noPort ∈ settings') := by
    have hmem : ∀ settings : List Setting,
        .noPort ∈ settings ↔ .noPort ∈ settings.filter fun setting => setting.about = Flag.noPort := by
      intro settings
      simp [Setting.about]
    rw [hmem, hmem settings', hsame]
  have hthreads := lastOf_order (fun | .threads n => some (max n 1) | _ => none)
    (by rintro (_ | _ | _ | _ | _ | _ | _) <;> simp [Setting.about]) (hsame .threads)
  have hports := lastOf_order (fun | .port n => some n | _ => none)
    (by rintro (_ | _ | _ | _ | _ | _ | _) <;> simp [Setting.about]) (hsame .port)
  have hshards := lastOf_order (fun | .shards n => some (max n 1) | _ => none)
    (by rintro (_ | _ | _ | _ | _ | _ | _) <;> simp [Setting.about]) (hsame .shards)
  have hunixsocket := lastOf_order (fun | .unixsocket path => some path | _ => none)
    (by rintro (_ | _ | _ | _ | _ | _ | _) <;> simp [Setting.about]) (hsame .unixsocket)
  have hmaxmemory := lastOf_order (fun | .maxmemory n => some n | _ => none)
    (by rintro (_ | _ | _ | _ | _ | _ | _) <;> simp [Setting.about]) (hsame .maxmemory)
  have huring := lastOf_order (fun | .uring uring => some uring | _ => none)
    (by rintro (_ | _ | _ | _ | _ | _ | _) <;> simp [Setting.about]) (hsame .uring)
  rw [foldl_read, foldl_read, hthreads, hports, hshards, hunixsocket, hmaxmemory, huring]
  simp only [hport]

/-- Settings about different things may be asked for in any order, whatever comes after them. -/
theorem parse_order (cores : Option {n : Nat // 0 < n}) {settings settings' : List Setting} {args args' : List Text}
    (hline : Line settings args) (hline' : Line settings' args') (hsame : ∀ flag,
      (settings.filter fun setting => setting.about = flag) = settings'.filter fun setting => setting.about = flag)
    (rest : List Text) : parse cores (args ++ rest) = parse cores (args' ++ rest) := by
  rw [parse, parse, hline.reads, hline'.reads, read_order hsame]

theorem parse_order_port :
    parse none (["--port".toList, "7777".toList, "--no-port".toList] ++ ["--unixsocket".toList, "/tmp/s".toList]) =
      parse none (["--no-port".toList, "--port".toList, "7777".toList] ++
        ["--unixsocket".toList, "/tmp/s".toList]) := by
  have hnoPort : Spells .noPort ["--no-port".toList] := .noPort (by decide)
  have hport : Spells (.port 7777) ["--port".toList, "7777".toList] :=
    .port (by decide) (decimal_toDigits 7777) (by decide)
  have hsame : ∀ flag, ([.port 7777, .noPort].filter fun setting : Setting => setting.about = flag) =
      [.noPort, .port 7777].filter fun setting : Setting => setting.about = flag := by
    intro flag
    cases flag <;> rfl
  exact parse_order none (.cons hport (.cons hnoPort .nil)) (.cons hnoPort (.cons hport .nil)) hsame _

/-! ## Shards -/

theorem nextPowerOfTwo_least {n : Nat} (hpos : 0 < n) : ∃ k, nextPowerOfTwo n = 2 ^ k ∧ n ≤ 2 ^ k ∧ 2 ^ k < 2 * n := by
  rw [nextPowerOfTwo]
  split
  · exact ⟨0, rfl, by omega, by omega⟩
  · next hmany =>
    refine ⟨_, rfl, ?_, ?_⟩
    · have hless := Nat.lt_log2_self (n := n - 1)
      omega
    · have hle : 2 ^ (n - 1).log2 ≤ n - 1 := Nat.log2_self_le (by omega)
      rw [Nat.pow_succ]
      omega

theorem nextPowerOfTwo_pow (k : Nat) : nextPowerOfTwo (2 ^ k) = 2 ^ k := by
  obtain ⟨j, hj, hle, hless⟩ := nextPowerOfTwo_least (Nat.two_pow_pos k)
  have hkj : k ≤ j := (Nat.pow_le_pow_iff_right (by decide)).mp hle
  have hjk : j < k + 1 := (Nat.pow_lt_pow_iff_right (a := 2) (by decide)).mp (by rw [Nat.pow_succ]; omega)
  rw [hj, Nat.le_antisymm (Nat.le_of_lt_succ hjk) hkj]

theorem lastOf_mem {α : Type} {f : Setting → Option α} {settings : List Setting} {a : α}
    (h : lastOf f settings = some a) : ∃ setting ∈ settings, f setting = some a := by
  obtain ⟨setting, hmem, ha⟩ := List.exists_of_findSome?_eq_some h
  exact ⟨setting, List.mem_reverse.mp hmem, ha⟩

theorem settled_threads (cores : Option {n : Nat // 0 < n}) (settings : List Setting) :
    1 ≤ (settled cores settings).threads := by
  rw [settled]
  cases hlast : lastOf (fun | .threads n => some (max n 1) | _ => none) settings with
  | none =>
    cases cores with
    | none => exact Nat.le_refl 1
    | some cores => exact cores.property
  | some threads =>
    obtain ⟨setting, -, hthreads⟩ := lastOf_mem hlast
    cases setting with
    | threads n => exact Option.some.inj hthreads ▸ Nat.le_max_right n 1
    | _ => cases hthreads

theorem shardsFor_inForce (threads : Nat) : ∃ k, shardsFor threads = 2 ^ k ∧
    Map.shardCount (shardsFor threads) = 2 ^ k ∧
    min (max (threads * shardsPerThread) minShards) maxShards ≤ 2 ^ k ∧
    2 ^ k < 2 * min (max (threads * shardsPerThread) minShards) maxShards := by
  have hclamp : min (max (min (threads * shardsPerThread) (usizeEnd - 1)) minShards) maxShards =
      min (max (threads * shardsPerThread) minShards) maxShards := by
    rw [usizeEnd, minShards, maxShards]
    omega
  have hpos : 0 < min (max (threads * shardsPerThread) minShards) maxShards := by
    rw [minShards, maxShards]
    omega
  obtain ⟨k, hk, hle, hless⟩ := nextPowerOfTwo_least hpos
  have hcount : min (max (2 ^ k) 1) maxShards = 2 ^ k := by
    have hmax : 2 ^ k < 2 ^ 13 := Nat.lt_of_lt_of_le hless (Nat.mul_le_mul_left 2 (Nat.min_le_right _ maxShards))
    have hexp : k ≤ 12 := Nat.le_of_lt_succ ((Nat.pow_lt_pow_iff_right (a := 2) (by decide)).mp hmax)
    have htop : 2 ^ k ≤ maxShards := Nat.pow_le_pow_right (by decide) hexp
    rw [Nat.max_eq_left (Nat.two_pow_pos k), Nat.min_eq_left htop]
  refine ⟨k, ?_, ?_, hle, hless⟩
  · rw [shardsFor, hclamp, hk]
  · rw [shardsFor, hclamp, hk, Map.shardCount, hcount, nextPowerOfTwo_pow]

/-- How many shards are wanted: as many as were asked for, or so many for each thread. -/
def wanted (settings : List Setting) (threads : Nat) : Nat :=
  (lastOf (fun | .shards n => some (max n 1) | _ => none) settings).getD (max (threads * shardsPerThread) minShards)

/-- A map gets the least power of two that is no smaller than what is wanted and what it can have; and when
nobody asked, that is what the configuration tells. -/
theorem shards_in_force {cores : Option {n : Nat // 0 < n}} {args : List Text} {config : Config}
    (h : parse cores args = .ok (.serve config)) (seed : UInt64) :
    1 ≤ config.threads ∧ ∃ settings, Line settings args ∧ config = settled cores settings ∧
      ∃ k, (Map.withSeed config.shards config.maxmemory seed).shards.length = 2 ^ k ∧
        min (wanted settings config.threads) maxShards ≤ 2 ^ k ∧
        2 ^ k < 2 * min (wanted settings config.threads) maxShards ∧
        ((∀ n, .shards n ∉ settings) → config.shards = 2 ^ k) := by
  have hasks := asks_parse cores args
  rw [h] at hasks
  cases hasks with
  | @serve settings _ hline _ =>
    refine ⟨settled_threads cores settings, settings, hline, rfl, ?_⟩
    rw [Map.withSeed, List.length_replicate, wanted]
    have hsettled : (settled cores settings).shards =
        (lastOf (fun | .shards n => some (max n 1) | _ => none) settings).getD
          (shardsFor (settled cores settings).threads) := rfl
    cases hlast : lastOf (fun | .shards n => some (max n 1) | _ => none) settings with
    | none =>
      rw [hlast, Option.getD_none] at hsettled
      obtain ⟨k, hpick, hcount, hle, hless⟩ := shardsFor_inForce (settled cores settings).threads
      rw [hsettled]
      exact ⟨k, hcount, hle, hless, fun _ => hpick⟩
    | some asked =>
      rw [hlast, Option.getD_some] at hsettled
      obtain ⟨setting, hmem, hsetting⟩ := lastOf_mem hlast
      cases setting with
      | shards n =>
        have hasked : max n 1 = asked := Option.some.inj hsetting
        have hmax : max asked 1 = asked := by omega
        have hpos : 0 < min asked maxShards := Nat.lt_min.mpr ⟨by omega, by decide⟩
        obtain ⟨k, hk, hle, hless⟩ := nextPowerOfTwo_least hpos
        rw [hsettled, Map.shardCount, hmax]
        exact ⟨k, hk, hle, hless, fun hnone => absurd hmem (hnone n)⟩
      | _ => cases hsetting

theorem shards_in_force_threads : 1 ≤ 16 ∧ ∃ settings, Line settings ["--threads".toList, "16".toList] ∧
    (⟨16, some 6379, none, 0, 256, .no⟩ : Config) = settled none settings ∧
      ∃ k, (Map.withSeed 256 0 7).shards.length = 2 ^ k ∧ min (wanted settings 16) maxShards ≤ 2 ^ k ∧
        2 ^ k < 2 * min (wanted settings 16) maxShards ∧ ((∀ n, .shards n ∉ settings) → 256 = 2 ^ k) := by
  have hparse : parse none ["--threads".toList, "16".toList] =
      .ok (.serve ⟨16, some 6379, none, 0, 256, .no⟩) := by decide
  exact shards_in_force hparse 7

end Config
end Rugo
