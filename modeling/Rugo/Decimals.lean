import Rugo.Map
import Rugo.Numerals

/- The counters of a map: `decimal` reads one and `digits` writes one, into a buffer of
   twenty bytes that it fills from the back (`digitsInto`).

     1. `decimal_digits`: what one writes the other reads back, and reads nothing else. -/
namespace Rugo
open Exec Signed Resp

/-! ## Writing -/

/-- The loop of `digits`: a digit before the last one written, until none is left. -/
def digitsLoop (left at_ : Nat) (buf : List UInt8) : Exec (Nat × List UInt8) := do
  let at_ ← minus at_ 1
  let buf ← update buf at_ (UInt8.ofNat (48 + left % 10))
  if left / 10 = 0 then pure (at_, buf) else digitsLoop (left / 10) at_ buf
termination_by left

/-- Write a number as decimal at the front of `into`, returning how many bytes it took. -/
def digitsInto (into : List UInt8) (value : Int) : Exec (Nat × List UInt8) := do
  let (at_, buf) ← digitsLoop value.natAbs 20 (List.replicate 20 0)
  let (at_, buf) ← if value < 0 then do
      let at_ ← minus at_ 1
      let buf ← update buf at_ 45
      pure (at_, buf)
    else pure (at_, buf)
  let len ← minus buf.length at_
  let into ← splice into 0 (buf.drop at_)
  pure (len, into)

theorem digits_eq (v : Int) : digits v = (if v < 0 then [45] else []) ++ spelt v.natAbs := rfl

theorem set_before {buf back : List UInt8} {at_ : Nat} (byte : UInt8) (hat : 0 < at_)
    (hbuf : buf.drop at_ = back) (hlen : at_ ≤ buf.length) :
    (buf.set (at_ - 1) byte).drop (at_ - 1) = byte :: back := by
  rw [List.drop_set, if_neg (Nat.lt_irrefl _), Nat.sub_self,
    List.drop_eq_getElem_cons (by omega : at_ - 1 < buf.length),
    List.set_cons_zero, Nat.sub_add_cancel hat, hbuf]

theorem digitsLoop_ok (left : Nat) {at_ : Nat} {buf back : List UInt8} (hbuf : buf.drop at_ = back)
    (hlen : at_ ≤ buf.length) (hroom : (spelt left).length ≤ at_) :
    ∃ buf', digitsLoop left at_ buf = .ok (at_ - (spelt left).length, buf') ∧ buf'.length = buf.length ∧
      buf'.drop (at_ - (spelt left).length) = spelt left ++ back := by
  induction left using Nat.strong_induction_on generalizing at_ buf back with
  | _ left ih =>
    have hpos : 0 < at_ := Nat.lt_of_lt_of_le (List.length_pos_of_ne_nil (spelt_ne_nil left)) hroom
    have hset := set_before (UInt8.ofNat (48 + left % 10)) hpos hbuf hlen
    have hupdate := update_ok (l := buf) (i := at_ - 1) (a := UInt8.ofNat (48 + left % 10)) (by omega)
    rw [digitsLoop, minus_ok hpos]
    simp only [ok_bind, hupdate]
    obtain ⟨hlt, heq⟩ | ⟨hge, heq⟩ := spelt_cases left
    · rw [if_pos (by omega : left / 10 = 0), heq]
      refine ⟨_, rfl, List.length_set, ?_⟩
      rw [List.length_singleton, hset, Nat.mod_eq_of_lt hlt]
      rfl
    · rw [heq, List.length_append, List.length_singleton] at hroom
      obtain ⟨buf', hloop, hlen', hdrop⟩ := ih (left / 10) (by omega) hset
        (by rw [List.length_set]; omega) (by omega)
      rw [if_neg (by omega : ¬ left / 10 = 0), heq, List.length_append, List.length_singleton]
      rw [show at_ - ((spelt (left / 10)).length + 1) = at_ - 1 - (spelt (left / 10)).length by omega]
      refine ⟨buf', hloop, hlen'.trans List.length_set, ?_⟩
      rw [hdrop, List.append_assoc]
      rfl

/-- The widest number there is takes twenty bytes. -/
theorem digits_length {v : Int} (h : v.natAbs < 10 ^ 19) : (digits v).length ≤ 20 := by
  have hspelt : (spelt v.natAbs).length ≤ 18 + 1 := spelt_length h
  rw [digits_eq, List.length_append]
  split
  · rw [List.length_singleton]
    omega
  · rw [List.length_nil]
    omega

theorem natAbs_lt {v : Int} (h : i64Min ≤ v ∧ v ≤ i64Max) : v.natAbs < 10 ^ 19 := by
  have hmin : i64Min = -2 ^ 63 := rfl
  have hmax : i64Max = 2 ^ 63 - 1 := rfl
  omega

theorem digitsInto_ok {v : Int} (h : v.natAbs < 10 ^ 19) {into : List UInt8} (hinto : into.length = 20) :
    digitsInto into v = .ok ((digits v).length, digits v ++ into.drop (digits v).length) := by
  have hroom := digits_length h
  have hspelt : (spelt v.natAbs).length ≤ 18 + 1 := spelt_length h
  obtain ⟨buf, hloop, hlen, hdrop⟩ := digitsLoop_ok v.natAbs
    (show (List.replicate 20 (0 : UInt8)).drop 20 = [] by simp) (by simp) (by omega)
  rw [List.length_replicate] at hlen
  rw [List.append_nil] at hdrop
  rw [digitsInto, hloop]
  simp only [ok_bind]
  have hcopy : ∀ (at_ : Nat) (buf text : List UInt8), buf.length = 20 → at_ ≤ 20 → buf.drop at_ = text →
      (do
        let len ← minus buf.length at_
        let into ← splice into 0 (buf.drop at_)
        pure (len, into) : Exec (Nat × List UInt8)) = .ok (text.length, text ++ into.drop text.length) := by
    intro at_ buf text hbuf hat htext
    have hlength : text.length = 20 - at_ := by rw [← htext, List.length_drop, hbuf]
    rw [minus_ok (by omega), htext, splice_ok (by omega)]
    simp only [ok_bind, pure_ok, List.take_zero, List.nil_append, Nat.zero_add, hlength, hbuf]
  rw [digits_eq] at hroom ⊢
  by_cases hneg : v < 0
  · rw [if_pos hneg, List.length_append, List.length_singleton] at hroom
    have hset := set_before 45 (by omega) hdrop (by omega)
    have hupdate := update_ok (l := buf) (i := 20 - (spelt v.natAbs).length - 1) (a := 45) (by omega)
    rw [if_pos hneg, if_pos hneg, minus_ok (by omega)]
    simp only [ok_bind, hupdate, pure_ok]
    exact hcopy _ _ _ (List.length_set.trans hlen) (by omega) hset
  · rw [if_neg hneg, if_neg hneg]
    simp only [pure_ok, ok_bind]
    exact hcopy _ _ _ hlen (by omega) hdrop

/-! ## Reading -/

/-- What was read of a numeral stays in range as long as the whole of it does. -/
theorem decimalFrom_ok {text : List UInt8} {value : Nat} (hnumeral : Numeral text)
    (hfits : reads text value ≤ 2 ^ 63) : decimalFrom text (-(value : Int)) = some (-(reads text value : Int)) := by
  induction text generalizing value with
  | nil => rfl
  | cons byte text ih =>
    have hbyte := hnumeral byte List.mem_cons_self
    have hle := le_reads text (value * 10 + (byte.toNat - 48))
    have hmin : i64Min = -2 ^ 63 := rfl
    have hmax : i64Max = 2 ^ 63 - 1 := rfl
    rw [reads] at hfits
    have hmul : checkedMul (-(value : Int)) 10 = some (-(value : Int) * 10) :=
      fit_eq_some.mpr ⟨rfl, by omega, by omega⟩
    have hsub : checkedSub (-(value : Int) * 10) (byte.toNat - 48) =
      some (-((value * 10 + (byte.toNat - 48) : Nat) : Int)) :=
      fit_eq_some.mpr ⟨by omega, by omega, by omega⟩
    rw [decimalFrom, isDigit_iff.mpr hbyte]
    simp only [Bool.not_true, Bool.false_eq_true, if_false, hmul, Option.bind_some, hsub]
    exact ih (fun b hb => hnumeral b (List.mem_cons_of_mem _ hb)) hfits

theorem decimalFrom_some {text : List UInt8} {value : Nat} {v : Int} (hvalue : value ≤ 2 ^ 63)
    (h : decimalFrom text (-(value : Int)) = some v) :
    Numeral text ∧ v = -(reads text value : Int) ∧ reads text value ≤ 2 ^ 63 := by
  induction text generalizing value with
  | nil =>
    cases h
    exact ⟨nofun, rfl, hvalue⟩
  | cons byte text ih =>
    rw [decimalFrom] at h
    cases hdigit : isDigit byte with
    | false => simp [hdigit] at h
    | true =>
      have hbyte := isDigit_iff.mp hdigit
      have hmin : i64Min = -2 ^ 63 := rfl
      simp only [hdigit, Bool.not_true, Bool.false_eq_true, if_false] at h
      cases hnext : (checkedMul (-(value : Int)) 10).bind (checkedSub · (byte.toNat - 48)) with
      | none => simp [hnext] at h
      | some next =>
        simp only [hnext] at h
        obtain ⟨product, hmul, hsub⟩ := Option.bind_eq_some_iff.mp hnext
        obtain ⟨rfl, hlow, -⟩ := fit_eq_some.mp hmul
        obtain ⟨rfl, hlow', -⟩ := fit_eq_some.mp hsub
        have heq : -(value : Int) * 10 - (byte.toNat - 48) = -((value * 10 + (byte.toNat - 48) : Nat) : Int) := by omega
        rw [heq] at h hlow'
        obtain ⟨hnumeral, hv, hfits⟩ := ih (by omega) h
        refine ⟨?_, hv, hfits⟩
        intro b hb
        obtain rfl | hb := List.mem_cons.mp hb
        · exact hbyte
        · exact hnumeral b hb

theorem minusOf_cons (rest : List UInt8) : minusOf (45 :: rest) = (true, rest) := rfl

theorem minusOf_numeral {text : List UInt8} (h : Numeral text) : minusOf text = (false, text) := by
  rw [minusOf]
  intro rest heq
  rw [heq] at h
  have hbyte := h 45 List.mem_cons_self
  exact absurd hbyte (by decide)

theorem minusOf_eq (text : List UInt8) : text = (if (minusOf text).1 then [45] else []) ++ (minusOf text).2 := by
  generalize hparts : minusOf text = parts
  rw [minusOf.eq_def] at hparts
  split at hparts
  · rw [← hparts]
    rfl
  · rw [← hparts]
    rfl

theorem decimal_spelt {v : Int} (h : i64Min ≤ v ∧ v ≤ i64Max) : decimal (digits v) = some v := by
  have hmin : i64Min = -2 ^ 63 := rfl
  have hmax : i64Max = 2 ^ 63 - 1 := rfl
  have hnumeral := spelt_numeral v.natAbs
  have hreads := reads_spelt v.natAbs
  have hne := spelt_ne_nil v.natAbs
  have hread := decimalFrom_ok hnumeral (show reads _ 0 ≤ 2 ^ 63 by omega)
  have hlength := digits_length (natAbs_lt h)
  -- twenty bytes are enough for any of them
  have hempty : ¬ ((digits v).isEmpty = true ∨ (digits v).length > 20) := by
    rw [digits_eq] at hlength ⊢
    simp [hne]
    simpa using hlength
  rw [decimal, if_neg hempty, digits_eq]
  by_cases hneg : v < 0
  · have hgood : ¬ ((spelt v.natAbs).isEmpty = true ∨
        (spelt v.natAbs).head? = some 48 ∧ (true = true ∨ (spelt v.natAbs).length > 1)) := by
      rintro (hnil | ⟨hhead, -⟩)
      · exact hne (List.isEmpty_iff.mp hnil)
      · exact spelt_head (by omega) hhead
    rw [if_pos hneg, List.singleton_append, minusOf_cons]
    dsimp only
    rw [if_neg hgood]
    rw [show (0 : Int) = -((0 : Nat) : Int) from rfl, hread, hreads]
    simp only [if_true, Option.some.injEq]
    omega
  · have hgood : ¬ ((spelt v.natAbs).isEmpty = true ∨
        (spelt v.natAbs).head? = some 48 ∧ (false = true ∨ (spelt v.natAbs).length > 1)) := by
      rintro (hnil | ⟨hhead, hmany⟩)
      · exact hne (List.isEmpty_iff.mp hnil)
      · obtain hfalse | hmany := hmany
        · cases hfalse
        · obtain hone | hlead := spelt_lead v.natAbs
          · omega
          · exact hlead hhead
    rw [if_neg hneg, List.nil_append, minusOf_numeral hnumeral]
    dsimp only
    rw [if_neg hgood]
    rw [show (0 : Int) = -((0 : Nat) : Int) from rfl, hread, hreads]
    simp only [Bool.false_eq_true, if_false]
    exact fit_eq_some.mpr ⟨by omega, by omega, by omega⟩

theorem decimal_some {text : List UInt8} {v : Int} (h : decimal text = some v) :
    text = digits v ∧ i64Min ≤ v ∧ v ≤ i64Max := by
  have hmin : i64Min = -2 ^ 63 := rfl
  have hmax : i64Max = 2 ^ 63 - 1 := rfl
  have htext := minusOf_eq text
  rw [decimal] at h
  split at h
  · cases h
  generalize minusOf text = parts at h htext
  obtain ⟨negative, spelling⟩ := parts
  simp only at h htext
  split at h
  · cases h
  next hgood =>
    have hne : spelling ≠ [] := by
      intro hnil
      exact hgood (.inl (List.isEmpty_iff.mpr hnil))
    cases hread : decimalFrom spelling 0 with
    | none => simp [hread] at h
    | some read =>
      simp only [hread] at h
      -- read downwards from nought, so that the least of them fits
      obtain ⟨hnumeral, rfl, hfits⟩ := decimalFrom_some (show 0 ≤ 2 ^ 63 by omega) hread
      cases negative with
      | true =>
        have hlead : spelling.head? ≠ some 48 := fun hhead => hgood (.inr ⟨hhead, .inl rfl⟩)
        have hpos := reads_pos hnumeral hne hlead
        have hspelt := spelt_reads hnumeral hne (.inr hlead)
        simp only [if_true, Option.some.injEq] at h htext
        refine ⟨?_, by omega, by omega⟩
        rw [digits_eq, if_pos (by omega), ← h, Int.natAbs_neg, Int.natAbs_natCast, hspelt, htext]
      | false =>
        have hlead : spelling.length = 1 ∨ spelling.head? ≠ some 48 := by
          by_cases hmany : spelling.length > 1
          · exact .inr fun hhead => hgood (.inr ⟨hhead, .inr hmany⟩)
          · have hpos := List.length_pos_of_ne_nil hne
            exact .inl (by omega)
        have hspelt := spelt_reads hnumeral hne hlead
        simp only [Bool.false_eq_true, if_false, List.nil_append] at h htext
        obtain ⟨rfl, hlow, hhigh⟩ := fit_eq_some.mp h
        refine ⟨?_, hlow, hhigh⟩
        rw [digits_eq, if_neg (by omega), Int.neg_neg, Int.natAbs_natCast, hspelt, htext]
        rfl

/-- Every counter written is read back, and a text is read only as the counter that is
written so; the twenty bytes are never too few. -/
theorem decimal_digits :
    (∀ v, i64Min ≤ v → v ≤ i64Max → decimal (digits v) = some v ∧ ∀ into : List UInt8, into.length = 20 →
      digitsInto into v = .ok ((digits v).length, digits v ++ into.drop (digits v).length)) ∧
    ∀ text v, decimal text = some v → text = digits v ∧ i64Min ≤ v ∧ v ≤ i64Max := by
  refine ⟨?_, ?_⟩
  · intro v hlow hhigh
    exact ⟨decimal_spelt ⟨hlow, hhigh⟩, fun into hinto => digitsInto_ok (natAbs_lt ⟨hlow, hhigh⟩) hinto⟩
  · intro text v h
    exact decimal_some h

theorem decimal_digits_min : decimal (digits i64Min) = some i64Min :=
    (decimal_digits.1 i64Min (by decide) (by decide)).1

end Rugo
