import Mathlib.Data.List.Sort
import Rugo.Group

/- The contract of the three probes (`rugo-map/src/group.rs`): a comparison of a group
   comes to the lanes that hold what was looked for, in ascending order and each once,
   and `any` and `lowest` say the same of it.

     1. `stands_iff`: a mask stands for the lanes that it yields, and for no others.
     2. `contract_iff`: NEON and SSE2 keep the contract. The word at a time keeps it
        where no lane holding the byte has, just above it, the byte one bit away, and
        nowhere else; and there only do the three report the same lanes. -/
namespace Rugo.Imp
open Lanes

/-- A mask that stands for these lanes: it yields them, and its other answers are of them. -/
structure Stands (imp : Imp) (m : BitMask) (ls : List Nat) : Prop where
  yields : Yields imp m ls
  any : Imp.any m = !ls.isEmpty
  lowest : Imp.lowest imp m = ls.head?

/-- The lanes whose byte `p` is true of, the lowest first. -/
def holding (p : UInt8 → Bool) (g : List UInt8) : List Nat :=
  (List.range g.length).filter fun i => g[i]?.any p

/-- The contract, of one group and one byte. -/
structure Keeps (imp : Imp) (g : List UInt8) (byte : UInt8) : Prop where
  matched : Stands imp (matchByte imp g byte) (holding (· == byte) g)
  empty : Stands imp (matchEmpty imp g) (holding (· == Ctrl.empty) g)
  free : Stands imp (matchFree imp g) (holding (fun b => b == Ctrl.empty || b == Ctrl.deleted) g)

/-- No lane holding the byte has the byte one bit away just above it. -/
def Apart (g : List UInt8) (byte : UInt8) : Prop :=
  ∀ i < g.length, g[i]? = some byte → g[i + 1]? ≠ some (byte ^^^ 1)

instance (g : List UInt8) (byte : UInt8) : Decidable (Apart g byte) :=
  inferInstanceAs (Decidable (∀ i < g.length, g[i]? = some byte → g[i + 1]? ≠ some (byte ^^^ 1)))

/-- The lanes a target reports of a row of control bytes, group after group. -/
def reported (imp : Imp) (pick : List UInt8 → BitMask) (bytes : List UInt8) : List Nat :=
  (List.range (bytes.length / imp.width)).flatMap fun n =>
    (lanes imp (pick (nth imp bytes n))).map fun lane => n * imp.width + lane

/-- Whatever the target, the same lanes are reported. -/
structure Alike (bytes : List UInt8) (byte : UInt8) : Prop where
  matched : ∀ imp imp' : Imp, reported imp (imp.matchByte · byte) bytes = reported imp' (imp'.matchByte · byte) bytes
  empty : ∀ imp imp' : Imp, reported imp imp.matchEmpty bytes = reported imp' imp'.matchEmpty bytes
  free : ∀ imp imp' : Imp, reported imp imp.matchFree bytes = reported imp' imp'.matchFree bytes

/-! ## What a mask stands for -/

theorem Yields.unique {imp : Imp} {m : BitMask} {ls ls' : List Nat} (h : Yields imp m ls) (h' : Yields imp m ls') :
    ls = ls' := by
  apply List.Pairwise.eq_of_mem_iff h.spec.1 h'.spec.1
  intro i
  rw [h.spec.2, h'.spec.2]

theorem any_lanes (imp : Imp) (m : BitMask) : any m = !(lanes imp m).isEmpty := by
  rw [Bool.eq_iff_iff, any_iff_lit imp, Bool.not_eq_true', List.isEmpty_eq_false_iff_exists_mem]
  simp only [mem_lanes]

theorem lowest_lanes (imp : Imp) (m : BitMask) : lowest imp m = (lanes imp m).head? := by
  rw [lanes, lanesWithin]
  cases hlow : lowest imp m <;> simp [next, hlow]

theorem stands_iff {imp : Imp} {m : BitMask} {ls : List Nat} : Stands imp m ls ↔ lanes imp m = ls := by
  constructor
  · intro h
    exact (yields_lanes imp m).unique h.yields
  · rintro rfl
    exact ⟨yields_lanes imp m, any_lanes imp m, lowest_lanes imp m⟩

/-! ## What it should stand for -/

theorem mem_holding {p : UInt8 → Bool} {g : List UInt8} {i : Nat} :
    i ∈ holding p g ↔ ∃ b, g[i]? = some b ∧ p b = true := by
  rw [holding, List.mem_filter, List.mem_range, Option.any_eq_true]
  constructor
  · exact And.right
  · intro ⟨b, hb, hp⟩
    exact ⟨(List.getElem?_eq_some_iff.mp hb).1, b, hb, hp⟩

theorem lanes_eq_iff {imp : Imp} {m : BitMask} {p : UInt8 → Bool} {g : List UInt8} :
    lanes imp m = holding p g ↔ ∀ i : Nat, lit imp m i = true ↔ ∃ b, g[i]? = some b ∧ p b = true := by
  constructor
  · intro h i
    rw [← mem_lanes, h, mem_holding]
  · intro h
    apply List.Pairwise.eq_of_mem_iff (lanes_sorted imp m) (List.pairwise_lt_range.filter _)
    intro i
    rw [mem_lanes, h, ← mem_holding, holding]

theorem free_iff {b : UInt8} (h : Ctrl.Valid b) :
    (b == Ctrl.empty || b == Ctrl.deleted) = !Ctrl.isFull b := by
  obtain rfl | rfl | hfull := h
  · rfl
  · rfl
  · have hempty : b ≠ Ctrl.empty := by
      rintro rfl
      simp [Ctrl.isFull_empty] at hfull
    have hdeleted : b ≠ Ctrl.deleted := by
      rintro rfl
      simp [Ctrl.isFull_deleted] at hfull
    simp [hempty, hdeleted, hfull]

section group
variable {imp : Imp} {g : List UInt8}

theorem lanes_matchEmpty (h : g.length = imp.width) (hg : ∀ b ∈ g, Ctrl.Valid b) :
    lanes imp (matchEmpty imp g) = holding (· == Ctrl.empty) g := by
  rw [lanes_eq_iff]
  intro i
  rw [lit_matchEmpty h hg]
  simp

theorem lanes_matchFree (h : g.length = imp.width) (hg : ∀ b ∈ g, Ctrl.Valid b) :
    lanes imp (matchFree imp g) = holding (fun b => b == Ctrl.empty || b == Ctrl.deleted) g := by
  rw [lanes_eq_iff]
  intro i
  rw [lit_matchFree h]
  cases hb : g[i]? with
  | none => simp
  | some b =>
    have hfree := free_iff (hg b (List.mem_of_getElem? hb))
    simp only [Option.map_some, Option.getD_some, Option.some.injEq, exists_eq_left', hfree]

/-- A lane of the word lights wrongly where the byte one bit away was borrowed from. -/
theorem word_exact_iff (h : g.length = 8) (byte : UInt8) :
    (∀ i : Nat, lit word (matchByte word g byte) i = true ↔ g[i]? = some byte) ↔ Apart g byte := by
  have hzero : ∀ i : Nat, (g.map (· ^^^ byte))[i]? = some 0 ↔ g[i]? = some byte := by
    intro i
    rw [List.getElem?_map]
    cases g[i]? with
    | none => simp
    | some b => simp only [Option.map_some, Option.some.injEq, UInt8.xor_eq_zero_iff]
  have hone : ∀ i : Nat, (g.map (· ^^^ byte))[i]? = some 1 ↔ g[i]? = some (byte ^^^ 1) := by
    intro i
    rw [List.getElem?_map]
    cases g[i]? <;> simp [xor_eq_one]
  have hne : byte ≠ byte ^^^ 1 := by
    intro heq
    have hself := xor_eq_one.mpr heq
    rw [UInt8.xor_self] at hself
    simp at hself
  -- the lanes lit wrongly are those with one that they have lent
  have hwrong : (∀ i : Nat, lit word (matchByte word g byte) i = true ↔ g[i]? = some byte) ↔
      ∀ i : Nat, (g.map (· ^^^ byte))[i]? = some 1 → lent 0 (g.map (· ^^^ byte)) i ≠ 1 := by
    apply forall_congr'
    intro i
    rw [lit_trick h, hone]
    constructor
    · intro hexact hi hlent
      have hbyte := hexact.mp (.inr ⟨hi, hlent⟩)
      rw [hi] at hbyte
      exact hne (Option.some.inj hbyte).symm
    · intro hno
      exact ⟨fun hl => hl.resolve_right fun ⟨hi, hlent⟩ => hno hi hlent, .inl⟩
  rw [hwrong, lent_ones_iff]
  simp only [ne_eq, hzero, hone, Apart]
  constructor
  · intro hall i _
    exact hall i
  · intro hall i hi
    exact hall i (List.getElem?_eq_some_iff.mp hi).1 hi

theorem lanes_matchByte_iff (h : g.length = imp.width) (byte : UInt8) :
    lanes imp (matchByte imp g byte) = holding (· == byte) g ↔ (imp = word → Apart g byte) := by
  rw [lanes_eq_iff]
  by_cases himp : imp = word
  · subst himp
    simp only [beq_iff_eq, exists_eq_right, forall_const]
    exact word_exact_iff h byte
  · simp [lit_ceq himp h, himp]

theorem keeps_iff (h : g.length = imp.width) (hg : ∀ b ∈ g, Ctrl.Valid b) (byte : UInt8) :
    Keeps imp g byte ↔ (imp = word → Apart g byte) := by
  rw [← lanes_matchByte_iff h byte]
  constructor
  · intro hkeeps
    exact stands_iff.mp hkeeps.matched
  · intro hbyte
    exact ⟨stands_iff.mpr hbyte, stands_iff.mpr (lanes_matchEmpty h hg), stands_iff.mpr (lanes_matchFree h hg)⟩

end group

/-! ## A row of groups -/

theorem range_groups (w n : Nat) :
    List.range (n * w) = (List.range n).flatMap fun m => (List.range w).map fun i => m * w + i := by
  induction n with
  | zero => simp
  | succ n ih => rw [Nat.succ_mul, List.range_add, ih, List.range_succ, List.flatMap_append, List.flatMap_singleton]

section row
variable {imp : Imp} {bytes : List UInt8}

theorem dvd_width (h : 16 ∣ bytes.length) (imp : Imp) : imp.width ∣ bytes.length := by
  have h8 : 8 ∣ bytes.length := (show 8 ∣ 16 by decide).trans h
  cases imp with
  | neon => exact h
  | sse2 => exact h
  | word => exact h8

theorem nth_end (h : imp.width ∣ bytes.length) {n : Nat} (hn : n < bytes.length / imp.width) :
    n * imp.width + imp.width ≤ bytes.length := by
  calc n * imp.width + imp.width = (n + 1) * imp.width := (Nat.succ_mul n imp.width).symm
    _ ≤ bytes.length / imp.width * imp.width := Nat.mul_le_mul_right _ hn
    _ = bytes.length := Nat.div_mul_cancel h

theorem nth_length (h : imp.width ∣ bytes.length) {n : Nat} (hn : n < bytes.length / imp.width) :
    (nth imp bytes n).length = imp.width := by
  have hend := nth_end h hn
  rw [nth, List.length_take, List.length_drop]
  omega

theorem holding_groups (h : imp.width ∣ bytes.length) (p : UInt8 → Bool) :
    holding p bytes = (List.range (bytes.length / imp.width)).flatMap fun n =>
      (holding p (nth imp bytes n)).map fun lane => n * imp.width + lane := by
  have hrow : List.range bytes.length = (List.range (bytes.length / imp.width)).flatMap fun n =>
      (List.range imp.width).map fun i => n * imp.width + i := by
    rw [← range_groups, Nat.div_mul_cancel h]
  rw [holding, hrow, List.filter_flatMap]
  apply List.flatMap_congr
  intro n hn
  have hlen := nth_length h (List.mem_range.mp hn)
  rw [List.filter_map, holding, hlen]
  apply congrArg (List.map _)
  apply List.filter_congr
  intro i hi
  rw [nth_getElem? (List.mem_range.mp hi)]
  rfl

theorem reported_eq (h : imp.width ∣ bytes.length) {pick : List UInt8 → BitMask} {p : UInt8 → Bool}
    (hpick : ∀ n < bytes.length / imp.width, lanes imp (pick (nth imp bytes n)) = holding p (nth imp bytes n)) :
    reported imp pick bytes = holding p bytes := by
  rw [holding_groups h, reported]
  apply List.flatMap_congr
  intro n hn
  rw [hpick n (List.mem_range.mp hn)]

theorem mem_reported {pick : List UInt8 → BitMask} {n i : Nat} (hn : n < bytes.length / imp.width)
    (hi : i ∈ lanes imp (pick (nth imp bytes n))) : n * imp.width + i ∈ reported imp pick bytes :=
  List.mem_flatMap.mpr ⟨n, List.mem_range.mpr hn, List.mem_map.mpr ⟨i, hi, rfl⟩⟩

/-- What NEON and SSE2 report, and what every target does where the words allow it. -/
theorem reported_matchByte (h : 16 ∣ bytes.length) {byte : UInt8}
    (hwords : imp = word → ∀ n < bytes.length / 8, Apart (nth word bytes n) byte) :
    reported imp (imp.matchByte · byte) bytes = holding (· == byte) bytes := by
  have hw := dvd_width h imp
  apply reported_eq hw
  intro n hn
  rw [lanes_matchByte_iff (nth_length hw hn)]
  rintro rfl
  exact hwords rfl n hn

theorem reported_matchEmpty (h : 16 ∣ bytes.length) (hvalid : ∀ b ∈ bytes, Ctrl.Valid b) :
    reported imp imp.matchEmpty bytes = holding (· == Ctrl.empty) bytes := by
  have hw := dvd_width h imp
  apply reported_eq hw
  intro n hn
  exact lanes_matchEmpty (nth_length hw hn) (nth_valid hvalid n)

theorem reported_matchFree (h : 16 ∣ bytes.length) (hvalid : ∀ b ∈ bytes, Ctrl.Valid b) :
    reported imp imp.matchFree bytes = holding (fun b => b == Ctrl.empty || b == Ctrl.deleted) bytes := by
  have hw := dvd_width h imp
  apply reported_eq hw
  intro n hn
  exact lanes_matchFree (nth_length hw hn) (nth_valid hvalid n)

/-- Where the word reports what the others do, each of its groups is exact. -/
theorem Alike.exact {byte : UInt8} (halike : Alike bytes byte) (h : 16 ∣ bytes.length) {n : Nat}
    (hn : n < bytes.length / 8) (i : Nat) :
    lit word (matchByte word (nth word bytes n) byte) i = true ↔ (nth word bytes n)[i]? = some byte := by
  have hlen := nth_length (dvd_width h word) hn
  have hsame : reported word (word.matchByte · byte) bytes = holding (· == byte) bytes :=
    (halike.matched word sse2).trans (reported_matchByte h (by simp))
  constructor
  · intro hlit
    -- a lane that lights is reported, and what is reported holds the byte
    have hmem : n * word.width + i ∈ reported word (word.matchByte · byte) bytes :=
      mem_reported hn (mem_lanes.mpr hlit)
    rw [hsame, mem_holding] at hmem
    obtain ⟨b, hb, hp⟩ := hmem
    have hlt : i < word.width := by
      rw [← hlen]
      obtain hi | hi := (lit_matchByte hlen byte i).2 hlit
      · exact (List.getElem?_eq_some_iff.mp hi).1
      · exact (List.getElem?_eq_some_iff.mp hi).1
    rw [nth_getElem? hlt, hb, beq_iff_eq.mp hp]
  · exact (lit_matchByte hlen byte i).1

theorem alike_iff (h : 16 ∣ bytes.length) (hvalid : ∀ b ∈ bytes, Ctrl.Valid b) (byte : UInt8) :
    Alike bytes byte ↔ ∀ n < bytes.length / 8, Apart (nth word bytes n) byte := by
  constructor
  · intro halike n hn
    rw [← word_exact_iff (nth_length (dvd_width h word) hn)]
    exact halike.exact h hn
  · intro hapart
    have hbyte : ∀ imp : Imp, reported imp (imp.matchByte · byte) bytes = holding (· == byte) bytes :=
      fun imp => reported_matchByte h fun _ => hapart
    refine ⟨?_, ?_, ?_⟩
    · intro imp imp'
      rw [hbyte imp, hbyte imp']
    · intro imp imp'
      rw [reported_matchEmpty h hvalid, reported_matchEmpty h hvalid]
    · intro imp imp'
      rw [reported_matchFree h hvalid, reported_matchFree h hvalid]

end row

/-! ## The contract -/

/-- On control bytes NEON and SSE2 keep the contract, and the word at a time where no
lane of a word that holds the byte has the byte one bit away just above it, and there
only. There only, too, is what the three report of the same bytes the same. -/
theorem contract_iff (byte : UInt8) :
    (∀ (imp : Imp) (g : List UInt8), g.length = imp.width → (∀ b ∈ g, Ctrl.Valid b) →
      (Keeps imp g byte ↔ (imp = word → Apart g byte))) ∧
    ∀ bytes : List UInt8, 16 ∣ bytes.length → (∀ b ∈ bytes, Ctrl.Valid b) →
      (Alike bytes byte ↔ ∀ n < bytes.length / 8, Apart (nth word bytes n) byte) :=
  ⟨fun _ _ h hg => keeps_iff h hg byte, fun _ h hvalid => alike_iff h hvalid byte⟩

/-- The byte one bit away just below it is not in the way. -/
theorem contract_below : Keeps word [3, 2, 0x80, 0xfe, 0x80, 0x80, 0x80, 0x80] 2 :=
  ((contract_iff 2).1 word [3, 2, 0x80, 0xfe, 0x80, 0x80, 0x80, 0x80] rfl (by decide +kernel)).mpr (by decide +kernel)

/-- Two entries in neighbouring lanes, whose tags are one bit apart. -/
def neighbours : List UInt8 := [2, 3, 0x80, 0x80, 0x80, 0x80, 0x80, 0x80]

/-- Asked for the lower tag, the word at a time yields both lanes; SSE2 yields the one. -/
theorem neighbours_forged : (∀ b ∈ neighbours, Ctrl.Valid b) ∧ Ctrl.isFull 2 = true ∧
    lanes word (matchByte word neighbours 2) = [0, 1] ∧ holding (· == 2) neighbours = [0] ∧
    ¬ Keeps word neighbours 2 ∧
    reported sse2 (sse2.matchByte · 2) (neighbours ++ neighbours) = [0, 8] ∧
    reported word (word.matchByte · 2) (neighbours ++ neighbours) = [0, 1, 8, 9] := by
  have hboth : lanes word (matchByte word neighbours 2) = [0, 1] := by decide +kernel
  have hone : holding (· == 2) neighbours = [0] := by decide +kernel
  refine ⟨by decide +kernel, by decide, hboth, hone, ?_, by decide +kernel, by decide +kernel⟩
  intro hkeeps
  have hlanes := stands_iff.mp hkeeps.matched
  rw [hboth, hone] at hlanes
  simp at hlanes

end Rugo.Imp
