import Mathlib.Data.List.Basic
import Mathlib.Data.List.GetD
import Rugo.Lib.Lanes

/- A group of control bytes and the three ways of comparing them at once
   (`rugo-map/src/group.rs`). `Imp` names the implementation the target gets;
   each one turns a comparison into a `BitMask` whose bits stand `stride` apart,
   and `lanes` is what iterating that mask yields. What is proved of all three:

     1. `Yields.spec`: the iteration yields exactly the lit lanes, in ascending
        order, each once; `lowest_eq` is the first of them.
     2. `lit_matchFree`, `lit_matchEmpty`: exactly the free, and exactly the
        empty, lanes are lit.
     3. `lit_matchByte`: every lane holding the tag is lit, and every lit lane
        holds it or the tag one bit away. The word-at-a-time subtraction borrows
        across lanes, so it can light a lane just above a match (`lit_trick`);
        such a lane still holds an entry, and the caller compares the key. -/
namespace Rugo

namespace Ctrl

def empty : UInt8 := 0b10000000

def deleted : UInt8 := 0b11111110

def isFull (ctrl : UInt8) : Bool := ctrl &&& 0x80 == 0

/-- The seven bit tag a hash contributes to a control byte. -/
def tagOf (hash : UInt64) : UInt8 := (hash >>> 32).toUInt8 &&& 0x7f

/-- What a control byte may be. -/
def Valid (ctrl : UInt8) : Prop := ctrl = empty ∨ ctrl = deleted ∨ isFull ctrl = true

instance (ctrl : UInt8) : Decidable (Valid ctrl) :=
  inferInstanceAs (Decidable (ctrl = empty ∨ ctrl = deleted ∨ isFull ctrl = true))

end Ctrl

/-- Which probe the target compiled. -/
inductive Imp where
  | neon
  | sse2
  | word
  deriving DecidableEq, Repr

/-- What a comparison of a group leaves: bits `stride` apart. -/
abbrev BitMask := BitVec 64

namespace Imp
open Words Lanes

/-- Control bytes compared at once. -/
def width : Imp → Nat
  | neon => 16
  | sse2 => 16
  | word => 8

/-- How far apart the bits of one mask are. -/
def stride : Imp → Nat
  | neon => 4
  | sse2 => 1
  | word => 8

/-! ## The mask -/

def any (m : BitMask) : Bool := m != 0

/-- `u64::trailing_zeros`. -/
def trailingZeros (m : BitMask) : Nat := ((List.range 64).find? (fun i => m.getLsbD i)).getD 64

/-- The index of the lowest matching lane, if there is one. -/
def lowest (imp : Imp) (m : BitMask) : Option Nat :=
  if m = 0 then none else some (trailingZeros m / imp.stride)

/-- `BitMask::next`: the lowest lane, and the mask without any of its bits. -/
def next (imp : Imp) (m : BitMask) : Option (Nat × BitMask) :=
  (lowest imp m).map fun at_ =>
    let lane := ((1#64 <<< imp.stride) - 1#64) <<< (at_ * imp.stride)
    (at_, m &&& ~~~lane)

/-- What the iterator yields until it ends, in at most `fuel` steps. -/
def lanesWithin (imp : Imp) : Nat → BitMask → List Nat
  | 0, _ => []
  | fuel + 1, m =>
    match next imp m with
    | none => []
    | some (at_, m') => at_ :: lanesWithin imp fuel m'

/-- `for lane in mask`: a mask has no more lanes than bits. -/
def lanes (imp : Imp) (m : BitMask) : List Nat := lanesWithin imp 64 m

/-! ## The comparisons -/

def nth (imp : Imp) (bytes : List UInt8) (n : Nat) : List UInt8 := (bytes.drop (n * imp.width)).take imp.width

/-- `_mm_movemask_epi8`: the top bit of each byte. -/
def movemask : List UInt8 → BitMask
  | [] => 0
  | b :: bs => (movemask bs <<< 1) ||| (if b &&& 0x80 = 0 then 0 else 1)

/-- `NEON`'s substitute, `vshrn_n_u16(.., 4)`: of each two bytes read as one
halfword, the eight bits from the fourth on. -/
def narrow : List UInt8 → BitMask
  | lo :: hi :: bs => (narrow bs <<< 8) |||
      (((hi.toBitVec ++ lo.toBitVec) >>> 4).truncate 8).zeroExtend 64
  | _ => 0

/-- Lane-wise equality, all ones or all zeros. -/
def ceq (g : List UInt8) (byte : UInt8) : List UInt8 := g.map fun b => if b = byte then 0xff else 0

/-- Eight control bytes as a little-endian word. -/
def groupWord : List UInt8 → BitMask
  | [] => 0
  | b :: bs => (groupWord bs <<< 8) ||| b.toBitVec.zeroExtend 64

def ones : BitMask := 0x0101010101010101#64

def highs : BitMask := 0x8080808080808080#64

/-- Lanes holding exactly `byte`. -/
def matchByte (imp : Imp) (g : List UInt8) (byte : UInt8) : BitMask :=
  match imp with
  | neon => narrow (ceq g byte)
  | sse2 => movemask (ceq g byte)
  | word =>
    let x := groupWord g ^^^ (ones * byte.toBitVec.zeroExtend 64)
    (x - ones) &&& ~~~x &&& highs

def matchEmpty (imp : Imp) (g : List UInt8) : BitMask := matchByte imp g Ctrl.empty

def matchFree (imp : Imp) (g : List UInt8) : BitMask :=
  match imp with
  | neon => narrow (g.map fun b => if b &&& 0x80 = 0 then 0 else 0xff)
  | sse2 => movemask g
  | word => groupWord g &&& highs

/-! ## The groups of a row -/

section row
variable {imp : Imp} {bytes : List UInt8}

theorem nth_getElem? {n i : Nat} (hi : i < imp.width) : (nth imp bytes n)[i]? = bytes[n * imp.width + i]? := by
  rw [nth, List.getElem?_take_of_lt hi, List.getElem?_drop]

theorem nth_valid (h : ∀ b ∈ bytes, Ctrl.Valid b) (n : Nat) : ∀ b ∈ nth imp bytes n, Ctrl.Valid b := by
  intro b hb
  apply h b
  exact List.mem_of_mem_drop (List.mem_of_mem_take hb)

end row

/-! ## Iterating a mask -/

def lit (imp : Imp) (m : BitMask) (i : Nat) : Bool :=
  (List.range imp.stride).any fun j => m.getLsbD (i * imp.stride + j)

theorem stride_pos (imp : Imp) : 0 < imp.stride := by cases imp <;> decide

theorem lit_iff {imp : Imp} {m : BitMask} {i : Nat} :
    lit imp m i = true ↔ ∃ b, m.getLsbD b = true ∧ b / imp.stride = i := by
  have hs := stride_pos imp
  simp only [lit, List.any_eq_true, List.mem_range]
  constructor
  · rintro ⟨j, hj, hb⟩
    exact ⟨_, hb, by rw [Nat.add_comm, Nat.add_mul_div_right _ _ hs, Nat.div_eq_of_lt hj]; omega⟩
  · rintro ⟨b, hb, rfl⟩
    refine ⟨b % imp.stride, Nat.mod_lt _ hs, ?_⟩
    rwa [Nat.mul_comm, Nat.div_add_mod]

theorem any_iff {m : BitMask} : any m = true ↔ ∃ b, m.getLsbD b = true := by
  simp only [any, bne_iff_ne, ne_eq]
  constructor
  · intro h
    by_contra hno
    push Not at hno
    exact h (BitVec.eq_of_getLsbD_eq fun i _ => by simpa using hno i)
  · rintro ⟨b, hb⟩ rfl
    simp at hb

theorem any_iff_lit (imp : Imp) {m : BitMask} : any m = true ↔ ∃ i, lit imp m i = true := by
  rw [any_iff]
  exact ⟨fun ⟨b, hb⟩ => ⟨_, lit_iff.mpr ⟨b, hb, rfl⟩⟩, fun ⟨i, hi⟩ =>
    let ⟨b, hb, _⟩ := lit_iff.mp hi; ⟨b, hb⟩⟩

theorem trailingZeros_spec {m : BitMask} (h : m ≠ 0) :
    m.getLsbD (trailingZeros m) = true ∧ ∀ b < trailingZeros m, m.getLsbD b = false := by
  obtain ⟨b, hb⟩ := any_iff.mp (bne_iff_ne.mpr h)
  have hlt : b < 64 := BitVec.lt_of_getLsbD hb
  unfold trailingZeros
  cases hf : (List.range 64).find? (fun i => m.getLsbD i) with
  | none =>
    rw [List.find?_eq_none] at hf
    exact absurd hb (hf b (List.mem_range.mpr hlt))
  | some z =>
    obtain ⟨hz, -, hall⟩ := List.find?_range_eq_some.mp hf
    exact ⟨hz, fun b hb => by simpa using hall b hb⟩

theorem lowest_eq (imp : Imp) (m : BitMask) :
    match lowest imp m with
    | none => ∀ i, lit imp m i = false
    | some at_ => lit imp m at_ = true ∧ ∀ i < at_, lit imp m i = false := by
  unfold lowest
  split_ifs with h
  · intro i
    subst h
    simp [lit]
  · obtain ⟨hz, hall⟩ := trailingZeros_spec h
    refine ⟨lit_iff.mpr ⟨_, hz, rfl⟩, fun i hi => ?_⟩
    by_contra hlit
    obtain ⟨b, hb, rfl⟩ := lit_iff.mp (by simpa using hlit)
    have hlt : b < trailingZeros m := by
      by_contra hge
      exact absurd (Nat.div_le_div_right (Nat.le_of_not_lt hge)) (Nat.not_le.mpr hi)
    simp [hall b hlt] at hb

theorem lit_next {imp : Imp} {m m' : BitMask} {at_ : Nat} (h : next imp m = some (at_, m'))
    (i : Nat) : lit imp m' i = (lit imp m i && i != at_) := by
  obtain ⟨a, -, ha⟩ := Option.map_eq_some_iff.mp h
  obtain ⟨rfl, rfl⟩ := Prod.mk.inj ha
  have hs := stride_pos imp
  have hs64 : imp.stride < 64 := by cases imp <;> decide
  have hbit : ∀ b, (m &&& ~~~(((1#64 <<< imp.stride) - 1#64) <<< (a * imp.stride))).getLsbD b =
      (m.getLsbD b && b / imp.stride != a) := by
    intro b
    by_cases hb : b < 64
    · have hone : ∀ j < 64, ((1#64 <<< imp.stride) - 1#64).getLsbD j = decide (j < imp.stride) := by
        cases imp <;> decide
      -- the bits of one lane are those that are its stride apart
      have hdiv : (¬ (a * imp.stride ≤ b ∧ b - a * imp.stride < imp.stride)) ↔ b / imp.stride ≠ a := by
        rw [ne_eq, Nat.div_eq_iff hs, not_iff_not]
        constructor
        · rintro ⟨h1, h2⟩
          omega
        · rintro ⟨h1, h2⟩
          omega
      simp only [BitVec.getLsbD_and, BitVec.getLsbD_not, BitVec.getLsbD_shiftLeft, hb, decide_true,
        Bool.true_and]
      rw [hone _ (by omega)]
      congr 1
      rw [Bool.eq_iff_iff, bne_iff_ne, ← hdiv]
      simp
      omega
    · rw [BitVec.getLsbD_of_ge _ _ (by omega), BitVec.getLsbD_of_ge _ _ (by omega)]
      rfl
  rw [Bool.eq_iff_iff, lit_iff, Bool.and_eq_true, lit_iff, bne_iff_ne]
  simp only [hbit, Bool.and_eq_true, bne_iff_ne]
  constructor
  · rintro ⟨b, ⟨hb, hne⟩, rfl⟩
    exact ⟨⟨b, hb, rfl⟩, hne⟩
  · rintro ⟨⟨b, hb, rfl⟩, hne⟩
    exact ⟨b, ⟨hb, hne⟩, rfl⟩

theorem lt_of_lit_next {imp : Imp} {m m' : BitMask} {at_ i : Nat} (h : next imp m = some (at_, m'))
    (hi : lit imp m' i = true) : at_ < i := by
  have hlow := lowest_eq imp m
  obtain ⟨a, ha, hpair⟩ := Option.map_eq_some_iff.mp h
  obtain ⟨rfl, -⟩ := Prod.mk.inj hpair
  rw [ha] at hlow
  rw [lit_next h, Bool.and_eq_true, bne_iff_ne] at hi
  rcases Nat.lt_trichotomy i a with hlt | rfl | hgt
  · simp [hlow.2 i hlt] at hi
  · exact absurd rfl hi.2
  · exact hgt

theorem lit_of_next {imp : Imp} {m m' : BitMask} {at_ : Nat} (h : next imp m = some (at_, m')) :
    lit imp m at_ = true := by
  have hlow := lowest_eq imp m
  obtain ⟨a, ha, hpair⟩ := Option.map_eq_some_iff.mp h
  obtain ⟨rfl, -⟩ := Prod.mk.inj hpair
  rw [ha] at hlow
  exact hlow.1

theorem dark_of_next {imp : Imp} {m : BitMask} (h : next imp m = none) (i : Nat) : lit imp m i = false := by
  have hlow := lowest_eq imp m
  rw [Option.map_eq_none_iff.mp h] at hlow
  exact hlow i

/-- What a mask yields, asked for one lane after another until there is none. -/
inductive Yields (imp : Imp) : BitMask → List Nat → Prop
  | done {m} : next imp m = none → Yields imp m []
  | lane {m m' at_ ls} : next imp m = some (at_, m') → Yields imp m' ls → Yields imp m (at_ :: ls)

theorem Yields.spec {imp : Imp} {m : BitMask} {ls : List Nat} (h : Yields imp m ls) :
    ls.Pairwise (· < ·) ∧ ∀ i, i ∈ ls ↔ lit imp m i = true := by
  induction h with
  | done hn => exact ⟨.nil, fun i => by simp [dark_of_next hn i]⟩
  | @lane m m' at_ ls hn _ ih =>
    obtain ⟨hsort, hmem⟩ := ih
    refine ⟨List.pairwise_cons.mpr ⟨fun i hi => lt_of_lit_next hn ((hmem i).mp hi), hsort⟩, fun i => ?_⟩
    rw [List.mem_cons, hmem, lit_next hn, Bool.and_eq_true, bne_iff_ne]
    constructor
    · rintro (rfl | hi)
      · exact lit_of_next hn
      · exact hi.1
    · intro hi
      by_cases hia : i = at_
      · exact .inl hia
      · exact .inr ⟨hi, hia⟩

/-- Lanes are taken in ascending order, so one step of fuel for each that is
left is enough. -/
theorem lanesWithin_yields {imp : Imp} {fuel : Nat} {m : BitMask}
    (h : ∀ i, lit imp m i = true → 64 - fuel ≤ i ∧ i < 64) : Yields imp m (lanesWithin imp fuel m) := by
  induction fuel generalizing m with
  | zero =>
    rw [lanesWithin]
    apply Yields.done
    cases hn : next imp m with
    | none => rfl
    | some step =>
      have := h _ (lit_of_next hn)
      omega
  | succ fuel ih =>
    rw [lanesWithin]
    cases hn : next imp m with
    | none => exact .done hn
    | some step =>
      apply Yields.lane hn
      apply ih
      intro i hi
      have hgt := lt_of_lit_next hn hi
      have hfirst := h _ (lit_of_next hn)
      rw [lit_next hn, Bool.and_eq_true] at hi
      have := h i hi.1
      omega

theorem lit_lt {imp : Imp} {m : BitMask} {i : Nat} (h : lit imp m i = true) : i < 64 := by
  obtain ⟨b, hb, rfl⟩ := lit_iff.mp h
  exact lt_of_le_of_lt (Nat.div_le_self _ _) (BitVec.lt_of_getLsbD hb)

theorem yields_lanes (imp : Imp) (m : BitMask) : Yields imp m (lanes imp m) :=
  lanesWithin_yields fun _ hi => ⟨Nat.zero_le _, lit_lt hi⟩

/-- Iterating a mask yields exactly its lit lanes, -/
theorem mem_lanes {imp : Imp} {m : BitMask} {i : Nat} : i ∈ lanes imp m ↔ lit imp m i = true :=
  (yields_lanes imp m).spec.2 i

/-- in ascending order and each once. -/
theorem lanes_sorted (imp : Imp) (m : BitMask) : (lanes imp m).Pairwise (· < ·) := (yields_lanes imp m).spec.1

/-! ## What each comparison lights -/

theorem getLsbD_movemask {g : List UInt8} (h : g.length ≤ 64) (b : Nat) :
    (movemask g).getLsbD b = (g[b]?.map fun x => decide (x &&& 0x80 ≠ 0)).getD false := by
  induction g generalizing b with
  | nil => simp [movemask]
  | cons x g ih =>
    rw [List.length_cons] at h
    have htop : (if x &&& 0x80 = 0 then (0 : BitMask) else 1).getLsbD b =
        (decide (b = 0) && decide (x &&& 0x80 ≠ 0)) := by
      split_ifs with hx
      · simp [hx]
      · cases b <;> simp [hx, BitVec.getLsbD_one]
    rw [movemask, BitVec.getLsbD_or, BitVec.getLsbD_shiftLeft, htop, ih (by omega)]
    cases b with
    | zero => simp
    | succ b =>
      simp only [Nat.add_sub_cancel, List.getElem?_cons_succ]
      by_cases hb : b + 1 < 64
      · simp [hb]
      · rw [List.getElem?_eq_none (by omega)]
        simp

theorem getLsbD_narrow {g : List UInt8} (h : g.length ≤ 16) (he : g.length % 2 = 0)
    (hg : ∀ x ∈ g, x = 0 ∨ x = 0xff) (b : Nat) :
    (narrow g).getLsbD b = decide (g[b / 4]? = some 0xff) := by
  induction g using narrow.induct generalizing b with
  | case1 lo hi g ih =>
    simp only [List.length_cons] at h he
    have hlo := hg lo (by simp)
    have hhi := hg hi (by simp)
    have ih := ih (by omega) (by omega) (fun x hx => hg x (by simp [hx])) (b - 8)
    rw [narrow, BitVec.getLsbD_or, BitVec.getLsbD_shiftLeft, ih]
    by_cases hb : b < 8
    -- two lanes become one byte, a nibble for each
    · have hpair : ∀ b : Fin 8, (BitVec.setWidth 64
          (BitVec.truncate 8 ((hi.toBitVec ++ lo.toBitVec) >>> 4))).getLsbD b =
          decide ([lo, hi][b.val / 4]? = some 0xff) := by
        rcases hlo with rfl | rfl <;> rcases hhi with rfl | rfl <;> decide
      have hsame : (lo :: hi :: g)[b / 4]? = [lo, hi][b / 4]? := by
        rcases Nat.lt_or_ge b 4 with h4 | h4
        · rw [show b / 4 = 0 by omega]; rfl
        · rw [show b / 4 = 1 by omega]; rfl
      simp only [hsame]
      rw [hpair ⟨b, hb⟩]
      simp [hb]
    · have hdiv : b / 4 = (b - 8) / 4 + 2 := by omega
      have hzero : (BitVec.setWidth 64
          (BitVec.truncate 8 ((hi.toBitVec ++ lo.toBitVec) >>> 4))).getLsbD b = false := by
        simp [BitVec.getLsbD_setWidth]
        omega
      rw [hzero, hdiv]
      simp only [List.getElem?_cons_succ, Bool.or_false]
      by_cases hb64 : b < 64
      · simp [hb, hb64]
      · have hnone : g[(b - 8) / 4]? = none := List.getElem?_eq_none (by omega)
        simp [hnone]
  | case2 g hno =>
    match g, hno with
    | [], _ => simp [narrow]
    | [x], _ => simp at he
    | lo :: hi :: g, hno => exact absurd rfl (hno lo hi g)

theorem setWidth_byte (b : UInt8) : b.toBitVec.zeroExtend 64 = BitVec.ofNat 64 b.toNat :=
  (BitVec.ofNat_toNat 64 b.toBitVec).symm

theorem groupWord_eq (g : List UInt8) : groupWord g = Lanes.word 64 g := by
  induction g with
  | nil => rfl
  | cons b g ih => rw [groupWord, ih, setWidth_byte, word_cons, BitVec.or_comm]

theorem getLsbD_groupWord {g : List UInt8} (h : g.length = 8) (b : Nat) :
    (groupWord g).getLsbD b = (g[b / 8]?.map fun x => x.toBitVec.getLsbD (b % 8)).getD false := by
  rw [groupWord_eq]
  exact @getLsbD_word 8 g h b

/-- The xor brings the lanes holding `byte` to zero, and the subtraction tells them. -/
theorem matchByte_word {g : List UInt8} (h : g.length = 8) (byte : UInt8) :
    matchByte word g byte = trick (Lanes.word 64 (g.map (· ^^^ byte))) := by
  have hones : ones = Lanes.ones 64 := by decide
  have hhighs : highs = Lanes.highs 64 := by decide
  have hlanes : Lanes.ones 64 * BitVec.ofNat 64 byte.toNat = Lanes.word 64 (List.replicate 8 byte) := ones_mul 8 byte
  have hxor : groupWord g ^^^ (ones * byte.toBitVec.zeroExtend 64) = Lanes.word 64 (g.map (· ^^^ byte)) := by
    rw [groupWord_eq, setWidth_byte, hones, hlanes]
    exact @word_xor 8 g h byte
  simp only [matchByte, hxor, hhighs]
  rw [hones]
  rfl

theorem lit_highs {m : BitMask} {i : Nat} :
    lit word (m &&& highs) i = m.getLsbD (8 * i + 7) := by
  have hhigh : ∀ b < 64, highs.getLsbD b = decide (b % 8 = 7) := by decide
  rw [Bool.eq_iff_iff, lit_iff]
  simp only [BitVec.getLsbD_and, Bool.and_eq_true, stride]
  constructor
  · rintro ⟨b, ⟨hb, hh⟩, rfl⟩
    rw [hhigh b (BitVec.lt_of_getLsbD hb), decide_eq_true_eq] at hh
    rwa [show 8 * (b / 8) + 7 = b by omega]
  · intro hb
    refine ⟨8 * i + 7, ⟨hb, ?_⟩, by omega⟩
    rw [hhigh _ (BitVec.lt_of_getLsbD hb)]
    simp

theorem lit_neon {g : List UInt8} (h : g.length = 16) (hg : ∀ x ∈ g, x = 0 ∨ x = 0xff) (i : Nat) :
    lit neon (narrow g) i = decide (g[i]? = some 0xff) := by
  rw [Bool.eq_iff_iff, lit_iff, decide_eq_true_eq]
  simp only [getLsbD_narrow (g := g) (by omega) (by omega) hg, decide_eq_true_eq, stride]
  constructor
  · rintro ⟨b, hb, rfl⟩
    exact hb
  · intro hi
    exact ⟨4 * i, by rwa [Nat.mul_div_cancel_left _ (by omega)], by omega⟩

theorem lit_sse2 {g : List UInt8} (h : g.length = 16) (i : Nat) :
    lit sse2 (movemask g) i = (g[i]?.map fun x => decide (x &&& 0x80 ≠ 0)).getD false := by
  rw [Bool.eq_iff_iff, lit_iff]
  simp only [getLsbD_movemask (g := g) (by omega), stride, Nat.div_one]
  exact ⟨fun ⟨b, hb, hi⟩ => hi ▸ hb, fun hi => ⟨i, hi, rfl⟩⟩

/-- Where the target compares lane by lane, exactly the lanes holding the byte. -/
theorem lit_ceq {imp : Imp} (himp : imp ≠ word) {g : List UInt8} (h : g.length = imp.width) (byte : UInt8)
    (i : Nat) : lit imp (matchByte imp g byte) i = true ↔ g[i]? = some byte := by
  have hceq : ∀ x ∈ ceq g byte, x = 0 ∨ x = 0xff := by
    intro x hx
    obtain ⟨b, -, rfl⟩ := List.mem_map.mp hx
    split <;> simp
  cases imp with
  | neon =>
    rw [matchByte, lit_neon (by simpa [ceq, width] using h) hceq, decide_eq_true_eq, ceq,
      List.getElem?_map]
    cases g[i]? with
    | none => simp
    | some x => by_cases hx : x = byte <;> simp [hx]
  | sse2 =>
    have htop : ¬ (0xff : UInt8) &&& 0x80 = 0 := by decide
    rw [matchByte, lit_sse2 (by simpa [ceq, width] using h), ceq, List.getElem?_map]
    cases g[i]? with
    | none => simp
    | some x => by_cases hx : x = byte <;> simp [hx, htop]
  | word => exact absurd rfl himp

theorem xor_eq_one {x byte : UInt8} : x ^^^ byte = 1 ↔ x = byte ^^^ 1 := by
  constructor
  · intro hx
    rw [← hx, UInt8.xor_comm, UInt8.xor_assoc, UInt8.xor_self, UInt8.xor_zero]
  · rintro rfl
    rw [UInt8.xor_comm, ← UInt8.xor_assoc, UInt8.xor_self, UInt8.zero_xor]

/-- In a word, also the lanes holding the byte one bit away, where the subtraction
borrowed from them. -/
theorem lit_trick {g : List UInt8} (h : g.length = 8) (byte : UInt8) (i : Nat) :
    lit word (matchByte word g byte) i = true ↔
      g[i]? = some byte ∨ g[i]? = some (byte ^^^ 1) ∧ lent 0 (g.map (· ^^^ byte)) i = 1 := by
  have hys : (g.map (· ^^^ byte)).length = 8 := by rw [List.length_map, h]
  have hbit := @trick_bit 8 _ hys
  have hlit : lit word (matchByte word g byte) i = true ↔ (g.map (· ^^^ byte))[i]? = some 0 ∨
      (g.map (· ^^^ byte))[i]? = some 1 ∧ lent 0 (g.map (· ^^^ byte)) i = 1 := by
    rw [matchByte_word h, lit_iff]
    constructor
    · rintro ⟨b, hb, rfl⟩
      exact ((hbit b).mp hb).2
    · intro hi
      have hlane : (8 * i + 7) / 8 = i := by omega
      exact ⟨8 * i + 7, (hbit _).mpr ⟨by omega, by rwa [hlane]⟩, hlane⟩
  rw [hlit, List.getElem?_map]
  cases g[i]? with
  | none => simp
  | some x => simp only [Option.map_some, Option.some.injEq, UInt8.xor_eq_zero_iff, xor_eq_one]

/-- Every lane holding the byte is lit; a lit lane holds it or the byte one
bit away. -/
theorem lit_matchByte {imp : Imp} {g : List UInt8} (h : g.length = imp.width) (byte : UInt8)
    (i : Nat) :
    (g[i]? = some byte → lit imp (matchByte imp g byte) i = true) ∧
    (lit imp (matchByte imp g byte) i = true → g[i]? = some byte ∨ g[i]? = some (byte ^^^ 1)) := by
  by_cases himp : imp = word
  · subst himp
    rw [lit_trick h]
    exact ⟨.inl, fun hl => hl.imp id And.left⟩
  · rw [lit_ceq himp h]
    exact ⟨id, .inl⟩

theorem lit_matchFree {imp : Imp} {g : List UInt8} (h : g.length = imp.width) (i : Nat) :
    lit imp (matchFree imp g) i = (g[i]?.map fun b => !Ctrl.isFull b).getD false := by
  cases imp with
  | neon =>
    rw [matchFree, lit_neon (by simpa [width] using h), List.getElem?_map]
    · cases g[i]? with
      | none => rfl
      | some b => by_cases hb : b &&& 0x80 = 0 <;> simp [Ctrl.isFull, hb]
    · intro x hx
      obtain ⟨b, -, rfl⟩ := List.mem_map.mp hx
      split <;> simp
  | sse2 =>
    rw [matchFree, lit_sse2 h]
    cases g[i]? with
    | none => rfl
    | some b => by_cases hb : b &&& 0x80 = 0 <;> simp [Ctrl.isFull, hb]
  | word =>
    have h8 : g.length = 8 := h
    rw [matchFree, lit_highs, getLsbD_groupWord h8, show (8 * i + 7) / 8 = i by omega,
      show (8 * i + 7) % 8 = 7 by omega]
    cases g[i]? with
    | none => rfl
    | some b =>
      exact forall_byte (P := fun b => b.toBitVec.getLsbD 7 = !Ctrl.isFull b) (by decide +kernel) b

theorem lit_matchEmpty {imp : Imp} {g : List UInt8} (h : g.length = imp.width)
    (hg : ∀ b ∈ g, Ctrl.Valid b) (i : Nat) :
    lit imp (matchEmpty imp g) i = true ↔ g[i]? = some Ctrl.empty := by
  obtain ⟨h0, h1⟩ := lit_matchByte h Ctrl.empty i
  refine ⟨fun hl => (h1 hl).resolve_right fun hb => ?_, h0⟩
  have hv := hg _ (List.mem_of_getElem? hb)
  revert hv
  unfold Ctrl.Valid
  decide

/-! ## What the probes ask of a group -/

theorem any_matchEmpty {imp : Imp} {g : List UInt8} (h : g.length = imp.width)
    (hg : ∀ b ∈ g, Ctrl.Valid b) : any (matchEmpty imp g) = true ↔ Ctrl.empty ∈ g := by
  rw [any_iff_lit imp, List.mem_iff_getElem?]
  exact exists_congr fun i => lit_matchEmpty h hg i

theorem lowest_matchEmpty {imp : Imp} {g : List UInt8} (h : g.length = imp.width)
    (hg : ∀ b ∈ g, Ctrl.Valid b) :
    match lowest imp (matchEmpty imp g) with
    | none => Ctrl.empty ∉ g
    | some lane => g[lane]? = some Ctrl.empty := by
  have hlow := lowest_eq imp (matchEmpty imp g)
  cases hl : lowest imp (matchEmpty imp g) with
  | none =>
    rw [hl] at hlow
    rw [← any_matchEmpty h hg, any_iff_lit imp]
    rintro ⟨i, hi⟩
    simp [hlow i] at hi
  | some lane =>
    rw [hl] at hlow
    exact (lit_matchEmpty h hg lane).mp hlow.1

theorem lowest_matchFree {imp : Imp} {g : List UInt8} (h : g.length = imp.width) :
    match lowest imp (matchFree imp g) with
    | none => ∀ b ∈ g, Ctrl.isFull b = true
    | some lane => ∃ b, g[lane]? = some b ∧ Ctrl.isFull b = false := by
  have hlow := lowest_eq imp (matchFree imp g)
  cases hl : lowest imp (matchFree imp g) with
  | none =>
    rw [hl] at hlow
    intro b hb
    obtain ⟨i, hi⟩ := List.mem_iff_getElem?.mp hb
    simpa [lit_matchFree h, hi] using hlow i
  | some lane =>
    rw [hl] at hlow
    have hlit := hlow.1
    rw [lit_matchFree h] at hlit
    cases hb : g[lane]? with
    | none => simp [hb] at hlit
    | some b => exact ⟨b, hb, by simpa [hb] using hlit⟩

/-- The lanes a tag search visits hold entries, and every lane with the tag is
among them. -/
theorem mem_lanes_matchByte {imp : Imp} {g : List UInt8} (h : g.length = imp.width) {tag : UInt8}
    (htag : Ctrl.isFull tag = true) (i : Nat) :
    (g[i]? = some tag → i ∈ lanes imp (matchByte imp g tag)) ∧
    (i ∈ lanes imp (matchByte imp g tag) → ∃ b, g[i]? = some b ∧ Ctrl.isFull b = true) := by
  obtain ⟨h0, h1⟩ := lit_matchByte h tag i
  rw [mem_lanes]
  refine ⟨h0, fun hl => (h1 hl).elim (fun hb => ⟨_, hb, htag⟩) fun hb => ⟨_, hb, ?_⟩⟩
  exact forall_byte (P := fun t => Ctrl.isFull t = true → Ctrl.isFull (t ^^^ 1) = true)
    (by decide +kernel) tag htag

end Imp

namespace Ctrl
open Words

theorem isFull_tagOf (hash : UInt64) : isFull (tagOf hash) = true :=
  forall_byte (P := fun b => isFull (b &&& 0x7f) = true) (by decide +kernel) _

theorem isFull_empty : isFull empty = false := rfl
theorem isFull_deleted : isFull deleted = false := rfl

end Ctrl
end Rugo
