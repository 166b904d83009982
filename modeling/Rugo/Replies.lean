import Rugo.Numerals

/- What a client reads. `Values d n` is the bytes of `n` complete values, one after
   another, in the dialect `d`: a line, a bulk string of the length announced, a null,
   or as many values as an aggregate announces. Where one value ends and the next
   begins is the bytes' alone (`values_unique`). -/
namespace Rugo.Resp
open Exec

/-! ## Numbers -/

theorem number_eq (v : Int) : Encoder.number v = (if v < 0 then [45] else []) ++ spelt v.natAbs := rfl

/-- A number has one spelling, and a spelling one number. -/
theorem number_inj {a b : Int} (h : Encoder.number a = Encoder.number b) : a = b := by
  have hsign : ∀ m n : Nat, 45 :: spelt m ≠ spelt n := by
    intro m n heq
    have hmem : (45 : UInt8) ∈ spelt n := by
      rw [← heq]
      exact List.mem_cons_self
    have hdigit := spelt_numeral n 45 hmem
    exact absurd hdigit (by decide)
  rw [number_eq, number_eq] at h
  by_cases ha : a < 0
  · by_cases hb : b < 0
    · rw [if_pos ha, if_pos hb] at h
      have habs := spelt_inj (List.append_cancel_left h)
      omega
    · rw [if_pos ha, if_neg hb] at h
      exact absurd h (hsign _ _)
  · by_cases hb : b < 0
    · rw [if_neg ha, if_pos hb] at h
      exact absurd h.symm (hsign _ _)
    · rw [if_neg ha, if_neg hb] at h
      have habs := spelt_inj (List.append_cancel_left h)
      omega

/-! ## Lines -/

/-- Neither CR nor LF. -/
def Plain (text : List UInt8) : Prop := ∀ byte ∈ text, byte ≠ 13 ∧ byte ≠ 10

instance (text : List UInt8) : Decidable (Plain text) :=
  List.decidableBAll (fun byte => byte ≠ 13 ∧ byte ≠ 10) text

theorem Plain.append {a b : List UInt8} (ha : Plain a) (hb : Plain b) : Plain (a ++ b) := by
  intro byte hbyte
  obtain hbyte | hbyte := List.mem_append.mp hbyte
  · exact ha byte hbyte
  · exact hb byte hbyte

theorem plain_number (v : Int) : Plain (Encoder.number v) := by
  rw [number_eq]
  apply Plain.append
  · split <;> decide
  · intro byte hbyte
    have hdigit := spelt_numeral _ byte hbyte
    constructor
    · intro heq
      rw [heq] at hdigit
      exact absurd hdigit (by decide)
    · intro heq
      rw [heq] at hdigit
      exact absurd hdigit (by decide)

/-- A line ends where its first CR is. -/
theorem Plain.unique {a b x y : List UInt8} (ha : Plain a) (hb : Plain b)
    (h : a ++ Encoder.crlf ++ x = b ++ Encoder.crlf ++ y) : a = b ∧ x = y := by
  induction a generalizing b with
  | nil =>
    cases b with
    | nil => exact ⟨rfl, List.append_cancel_left h⟩
    | cons byte b =>
      have hhead := (List.cons.inj h).1
      exact absurd hhead.symm (hb byte List.mem_cons_self).1
  | cons byte a ih =>
    cases b with
    | nil =>
      have hhead := (List.cons.inj h).1
      exact absurd hhead (ha byte List.mem_cons_self).1
    | cons byte' b =>
      obtain ⟨rfl, htail⟩ := List.cons.inj h
      obtain ⟨rfl, hrest⟩ := ih (fun c hc => ha c (List.mem_cons_of_mem _ hc))
        (fun c hc => hb c (List.mem_cons_of_mem _ hc)) htail
      exact ⟨rfl, hrest⟩

/-! ## Values -/

/-- The bytes of `n` complete values. -/
inductive Values (d : Dialect) : Nat → List UInt8 → Prop
  | nil : Values d 0 []
  /-- A simple string, an error or an integer. -/
  | line {n kind text rest} : kind ∈ [43, 45, 58] → Plain text → Values d n rest →
      Values d (n + 1) (kind :: (text ++ Encoder.crlf ++ rest))
  | bulk {n rest} (body : List UInt8) : Values d n rest →
      Values d (n + 1) (36 :: (Encoder.number body.length ++ Encoder.crlf ++ (body ++ (Encoder.crlf ++ rest))))
  | null2 {n rest} : d = .resp2 → Values d n rest →
      Values d (n + 1) (36 :: (Encoder.number (-1) ++ Encoder.crlf ++ rest))
  | null3 {n rest} : d = .resp3 → Values d n rest → Values d (n + 1) (95 :: (Encoder.crlf ++ rest))
  | array {n k bytes rest} : Values d k bytes → Values d n rest →
      Values d (n + 1) (42 :: (Encoder.number (k : Nat) ++ Encoder.crlf ++ (bytes ++ rest)))
  /-- A map of `k` pairs. -/
  | map {n k bytes rest} : d = .resp3 → Values d (2 * k) bytes → Values d n rest →
      Values d (n + 1) (37 :: (Encoder.number (k : Nat) ++ Encoder.crlf ++ (bytes ++ rest)))

namespace Values
variable {d d' : Dialect}

theorem append {n k : Nat} {a b : List UInt8} (ha : Values d n a) (hb : Values d k b) :
    Values d (n + k) (a ++ b) := by
  induction ha with
  | nil =>
    rw [Nat.zero_add]
    exact hb
  | @line n kind text rest hkind hplain _ ih =>
    rw [Nat.add_right_comm, List.cons_append, List.append_assoc]
    exact .line hkind hplain ih
  | @bulk n rest body _ ih =>
    rw [Nat.add_right_comm]
    have hbulk := Values.bulk body ih
    simp only [List.append_assoc, List.cons_append] at hbulk ⊢
    exact hbulk
  | @null2 n rest hd _ ih =>
    rw [Nat.add_right_comm, List.cons_append, List.append_assoc]
    exact .null2 hd ih
  | @null3 n rest hd _ ih =>
    rw [Nat.add_right_comm, List.cons_append, List.append_assoc]
    exact .null3 hd ih
  | @array n k bytes rest hbytes _ _ ih =>
    rw [Nat.add_right_comm]
    have harray := Values.array hbytes ih
    simp only [List.append_assoc, List.cons_append] at harray ⊢
    exact harray
  | @map n k bytes rest hd hbytes _ _ ih =>
    rw [Nat.add_right_comm]
    have hmap := Values.map hd hbytes ih
    simp only [List.append_assoc, List.cons_append] at hmap ⊢
    exact hmap

theorem le_length {n : Nat} {a : List UInt8} (h : Values d n a) : n ≤ a.length := by
  induction h with
  | nil => exact Nat.le_refl 0
  | line _ _ _ ih => simp only [List.length_cons, List.length_append]; omega
  | bulk _ _ ih => simp only [List.length_cons, List.length_append]; omega
  | null2 _ _ ih => simp only [List.length_cons, List.length_append]; omega
  | null3 _ _ ih => simp only [List.length_cons, List.length_append]; omega
  | array _ _ _ ih => simp only [List.length_cons, List.length_append]; omega
  | map _ _ _ _ ih => simp only [List.length_cons, List.length_append]; omega

/-- What follows the first line of a value, by the line's kind and text. -/
inductive After (d : Dialect) (n : Nat) (kind : UInt8) (text tail : List UInt8) : Prop
  | line : kind ∈ [43, 45, 58] → Values d n tail → After d n kind text tail
  | bulk {body rest} : kind = 36 → text = Encoder.number body.length → tail = body ++ (Encoder.crlf ++ rest) →
      Values d n rest → After d n kind text tail
  | null2 : kind = 36 → text = Encoder.number (-1) → Values d n tail → After d n kind text tail
  | null3 : kind = 95 → Values d n tail → After d n kind text tail
  | array {k bytes rest} : kind = 42 → text = Encoder.number (k : Nat) → tail = bytes ++ rest →
      Values d k bytes → Values d n rest → After d n kind text tail
  | map {k bytes rest} : kind = 37 → text = Encoder.number (k : Nat) → tail = bytes ++ rest →
      Values d (2 * k) bytes → Values d n rest → After d n kind text tail

theorem head {n : Nat} {b : List UInt8} (h : Values d (n + 1) b) :
    ∃ kind text tail, b = kind :: (text ++ Encoder.crlf ++ tail) ∧ Plain text ∧ After d n kind text tail := by
  cases h with
  | line hkind hplain hrest => exact ⟨_, _, _, rfl, hplain, .line hkind hrest⟩
  | bulk body hrest => exact ⟨36, _, _, rfl, plain_number _, .bulk rfl rfl rfl hrest⟩
  | null2 _ hrest => exact ⟨36, _, _, rfl, plain_number _, .null2 rfl rfl hrest⟩
  | @null3 _ rest _ hrest => exact ⟨95, [], rest, rfl, by decide, .null3 rfl hrest⟩
  | array hbytes hrest => exact ⟨42, _, _, rfl, plain_number _, .array rfl rfl rfl hbytes hrest⟩
  | map _ hbytes hrest => exact ⟨37, _, _, rfl, plain_number _, .map rfl rfl rfl hbytes hrest⟩

end Values

namespace Encoder
variable {d : Dialect}

theorem count_eq {n : Nat} (h : n < 2 ^ 63) : Encoder.count n = Encoder.number n := by
  have hmax : Signed.i64Max.toNat = 2 ^ 63 - 1 := rfl
  have hmin : min (n : Int) (Signed.i64Max.toNat : Int) = n := by omega
  rw [Encoder.count, hmin]

theorem line_values {kind : UInt8} {text : List UInt8} (hkind : kind ∈ [43, 45, 58]) (hplain : Plain text) :
    Values d 1 (kind :: (text ++ Encoder.crlf)) := by
  have hline := Values.line (d := d) hkind hplain .nil
  rw [List.append_nil] at hline
  exact hline

theorem simple_values {text : List UInt8} (h : Plain text) : Values d 1 (Encoder.simple text) :=
  line_values (by decide) h

theorem error_values {text : List UInt8} (h : Plain text) : Values d 1 (Encoder.error text) :=
  line_values (by decide) h

theorem integer_values (v : Int) : Values d 1 (Encoder.integer v) :=
  line_values (by decide) (plain_number v)

theorem bulk_values {body : List UInt8} (h : body.length < 2 ^ 63) : Values d 1 (Encoder.bulk body) := by
  have hbulk := Values.bulk (d := d) body .nil
  rw [Encoder.bulk, count_eq h]
  simp only [List.append_assoc, List.append_nil] at hbulk ⊢
  exact hbulk

theorem null_bytes : Encoder.null .resp2 = 36 :: (Encoder.number (-1) ++ Encoder.crlf ++ []) := by decide +kernel

theorem null_values : Values d 1 (Encoder.null d) := by
  cases d with
  | resp2 =>
    rw [null_bytes]
    exact .null2 rfl .nil
  | resp3 => exact .null3 rfl .nil

theorem array_values {k : Nat} {bytes : List UInt8} (hk : k < 2 ^ 63) (h : Values d k bytes) :
    Values d 1 (Encoder.array k ++ bytes) := by
  have harray := Values.array h .nil
  rw [Encoder.array, count_eq hk]
  simp only [List.append_assoc, List.append_nil, List.cons_append] at harray ⊢
  exact harray

theorem map_values {k : Nat} {bytes : List UInt8} (hk : 2 * k < 2 ^ 63) (h : Values d (2 * k) bytes) :
    Values d 1 (Encoder.map d k ++ bytes) := by
  cases d with
  | resp2 =>
    rw [Encoder.map, Nat.mul_comm]
    exact array_values hk h
  | resp3 =>
    have hmap := Values.map rfl h .nil
    rw [Encoder.map, count_eq (by omega)]
    simp only [List.append_assoc, List.append_nil, List.cons_append] at hmap ⊢
    exact hmap

end Encoder

end Rugo.Resp
