import Mathlib.Data.List.Basic
import Mathlib.Algebra.BigOperators.Group.List.Basic
import Mathlib.Tactic.Ring
import Rugo.Arena

/- The layout of the arena, as an invariant, and what each operation does to it.

   A small reference is a number of four byte units: segment `s` owns the units
   from `s * 2 ^ 21`, so blocks are extents of one line and "overlap" is overlap
   of intervals. `Holds a blocks cells lost` says of an arena which blocks its
   callers hold, with the bytes in each, and which cells lie on its free lists:

     1. `Shape`: how many segments there are, how long, where cutting goes on.
     2. `Partition`: the live blocks and the free cells are disjoint and cover
        exactly what has been cut.
     3. `Lists`: from the head of each class, the links lead through exactly the
        cells of that class and end.
     4. `Blocks`: every live reference reads back its bytes.
     5. `Totals`: the running totals are the sums they stand for; `lost` is what
        a freed `Ref::NONE` left charged.

   Then one lemma for each operation: `alloc`, `free`, `getMut`, `get`, `peek`. -/
namespace Rugo
open Exec Words

/-! ## References as numbers -/

theorem and_LARGE (x : UInt32) : x &&& LARGE = 0 ↔ x.toNat < 2 ^ 31 := by
  have hx := x.toNat_lt
  have hlarge : LARGE.toNat = 2 ^ 31 := rfl
  rw [← UInt32.toNat_inj, UInt32.toNat_and, hlarge]
  constructor
  · intro h
    by_contra hge
    have hbit := Nat.testBit_of_two_pow_le_and_two_pow_add_one_gt (n := x.toNat) (i := 31)
      (by omega) (by omega)
    have hzero : (x.toNat &&& 2 ^ 31).testBit 31 = false := by rw [h]; rfl
    rw [Nat.testBit_and, hbit, Nat.testBit_two_pow_self] at hzero
    exact Bool.noConfusion hzero
  · intro h
    refine Nat.eq_of_testBit_eq fun i => ?_
    rw [Nat.testBit_and, Nat.testBit_two_pow, show UInt32.toNat 0 = 0 from rfl, Nat.zero_testBit]
    by_cases hi : 31 = i
    · rw [← hi, Nat.testBit_lt_two_pow h, Bool.false_and]
    · rw [decide_eq_false hi, Bool.and_false]

namespace Ref

theorem isLarge_iff (r : Ref) : r.isLarge = true ↔ 2 ^ 31 ≤ r.bits.toNat := by
  have h := and_LARGE r.bits
  simp only [isLarge, bne_iff_ne, ne_eq, h]
  omega

theorem index_eq (r : Ref) : r.index = r.bits.toNat % 2 ^ 31 := by
  have hmask : (~~~LARGE).toNat = 2 ^ 31 - 1 := rfl
  rw [index, UInt32.toNat_and, hmask, Nat.and_two_pow_sub_one_eq_mod]

theorem isNone_iff (r : Ref) : r.isNone = true ↔ r = NONE := by
  simp [isNone, NONE, Ref.ext_iff]

end Ref

theorem or_LARGE {x : UInt32} (h : x.toNat < 2 ^ 31) : (x ||| LARGE).toNat = 2 ^ 31 + x.toNat := by
  have hor := Nat.two_pow_add_eq_or_of_lt h 1
  rw [Nat.mul_one] at hor
  rw [UInt32.toNat_or, show LARGE.toNat = 2 ^ 31 from rfl, Nat.or_comm, ← hor]

namespace Arena

/-- A segment owns `2 ^ 21` units of the line. -/
theorem place_eq (r : Ref) : place r = (r.bits.toNat / 2 ^ 21, r.bits.toNat % 2 ^ 21 * 4) := by
  have hmask : offMask.toNat = 2 ^ 21 - 1 := rfl
  have hbits : offBits.toNat % 32 = 21 := rfl
  rw [place, UInt32.toNat_shiftRight, UInt32.toNat_and, hmask, hbits,
    Nat.and_two_pow_sub_one_eq_mod, Nat.shiftRight_eq_div_pow]
  rfl

theorem make_toNat {seg off : UInt32} (hs : seg.toNat < 1024) (ho : off.toNat < 2 ^ 21) :
    (make seg off).bits.toNat = 2 ^ 21 * seg.toNat + off.toNat := by
  have hbits : offBits.toNat % 32 = 21 := rfl
  have hor := Nat.two_pow_add_eq_or_of_lt ho seg.toNat
  rw [make, UInt32.toNat_or, UInt32.toNat_shiftLeft, hbits, Nat.shiftLeft_eq,
    Nat.mod_eq_of_lt (by omega), Nat.mul_comm, ← hor]

/-! ## Bytes of the line -/

def read (a : Arena) (start len : Nat) : Exec (List UInt8) :=
  slice (a.segment (start / 2 ^ 21)) (start % 2 ^ 21 * 4) (start % 2 ^ 21 * 4 + len)

def write (a : Arena) (start : Nat) (bytes : List UInt8) : Exec Arena := do
  let bytes ← splice (a.segment (start / 2 ^ 21)) (start % 2 ^ 21 * 4) bytes
  pure (a.setSegment (start / 2 ^ 21) bytes)

theorem get_large {a : Arena} {r : Ref} (h : r.isLarge = true) (len : Nat) :
    a.get r len = index a.large r.index := by
  rw [get, if_pos h]

theorem get_small {a : Arena} {r : Ref} (h : r.isLarge = false) (len : Nat) :
    a.get r len = a.read r.bits.toNat len := by
  rw [get, if_neg (by simp [h]), place_eq]
  rfl

theorem getMut_small {a : Arena} {r : Ref} (h : r.isLarge = false) (len : Nat)
    (edit : List UInt8 → Exec (List UInt8)) : a.getMut r len edit = (do
      let bytes ← a.read r.bits.toNat len
      let bytes ← edit bytes
      a.write r.bits.toNat bytes) := by
  rw [getMut, if_neg (by simp [h]), place_eq]
  rfl

theorem nextFree_eq (a : Arena) (r : Ref) :
    a.nextFree r = (a.read r.bits.toNat 4 >>= fun buf => pure (u32OfBytes buf)) := by
  rw [nextFree, place_eq]
  rfl

theorem setNextFree_eq (a : Arena) (r : Ref) (next : UInt32) :
    a.setNextFree r next = a.write r.bits.toNat (u32Bytes next) := by
  rw [setNextFree, place_eq]
  rfl

section setSegment
variable (a : Arena) (s : Nat) (bytes : Segment)

@[simp] theorem setSegment_made : (a.setSegment s bytes).made = a.made := by
  unfold setSegment; split <;> rfl
@[simp] theorem setSegment_seg : (a.setSegment s bytes).seg = a.seg := by
  unfold setSegment; split <;> rfl
@[simp] theorem setSegment_off : (a.setSegment s bytes).off = a.off := by
  unfold setSegment; split <;> rfl
@[simp] theorem setSegment_heads : (a.setSegment s bytes).heads = a.heads := by
  unfold setSegment; split <;> rfl
@[simp] theorem setSegment_large : (a.setSegment s bytes).large = a.large := by
  unfold setSegment; split <;> rfl
@[simp] theorem setSegment_largeFree : (a.setSegment s bytes).largeFree = a.largeFree := by
  unfold setSegment; split <;> rfl
@[simp] theorem setSegment_live : (a.setSegment s bytes).live = a.live := by
  unfold setSegment; split <;> rfl
@[simp] theorem setSegment_dead : (a.setSegment s bytes).dead = a.dead := by
  unfold setSegment; split <;> rfl
@[simp] theorem setSegment_largeLive : (a.setSegment s bytes).largeLive = a.largeLive := by
  unfold setSegment; split <;> rfl
@[simp] theorem setSegment_segmentBytes : (a.setSegment s bytes).segmentBytes = a.segmentBytes := by
  unfold setSegment; split <;> rfl
@[simp] theorem setSegment_tail_length : (a.setSegment s bytes).tail.length = a.tail.length := by
  unfold setSegment; split <;> simp

/-- Reading a segment back after one was replaced by another as long. -/
theorem segment_setSegment (hlen : bytes.length = (a.segment s).length) (t : Nat) :
    (a.setSegment s bytes).segment t = if t = s then bytes else a.segment t := by
  unfold setSegment segment
  by_cases hs : s < inlineSegments
  · by_cases ht : t < inlineSegments
    · simp only [dif_pos hs, dif_pos ht, Vector.getElem_set, eq_comm]
    · simp only [dif_pos hs, dif_neg ht]
      rw [if_neg (by omega)]
  · by_cases ht : t < inlineSegments
    · simp only [dif_neg hs, dif_pos ht]
      rw [if_neg (by omega)]
    · simp only [dif_neg hs, dif_neg ht, List.getElem?_set]
      by_cases hts : t = s
      · subst hts
        rw [if_pos rfl, if_pos rfl]
        split
        · rfl
        -- past the list there is no segment, and nothing was written to it
        · next hge =>
          rw [segment, dif_neg hs, List.getElem?_eq_none (by omega)] at hlen
          exact (List.eq_nil_of_length_eq_zero hlen).symm
      · rw [if_neg (by omega), if_neg hts]

end setSegment

/-! ## Extents -/

/-- A run of units. -/
structure Extent where
  start : Nat
  units : Nat
  deriving DecidableEq, Repr

def Extent.Apart (x y : Extent) : Prop :=
  x.start + x.units ≤ y.start ∨ y.start + y.units ≤ x.start

theorem Extent.Apart.symm {x y : Extent} (h : x.Apart y) : y.Apart x := Or.symm h

/-- The run lies inside one segment. -/
def Inside (a : Arena) (x : Extent) : Prop :=
  (x.start % 2 ^ 21 + x.units) * 4 ≤ (a.segment (x.start / 2 ^ 21)).length ∧
    x.start % 2 ^ 21 + x.units ≤ 2 ^ 21

structure SameShape (a a' : Arena) : Prop where
  made : a'.made = a.made
  seg : a'.seg = a.seg
  off : a'.off = a.off
  segmentBytes : a'.segmentBytes = a.segmentBytes
  tail : a'.tail.length = a.tail.length
  lengths : ∀ s, (a'.segment s).length = (a.segment s).length

theorem read_ok {a : Arena} {x : Extent} (h : Inside a x) (len : Nat) (hlen : len ≤ x.units * 4) :
    ∃ bytes, a.read x.start len = .ok bytes ∧ bytes.length = len := by
  have hin := h.1
  have hok := slice_ok (l := a.segment (x.start / 2 ^ 21)) (i := x.start % 2 ^ 21 * 4)
    (j := x.start % 2 ^ 21 * 4 + len) (by omega) (by omega)
  refine ⟨_, hok, ?_⟩
  have := slice_length hok
  omega

/-- Writing inside an extent: the bytes are there, and every extent apart from
it reads what it read. -/
theorem write_ok {a : Arena} {x : Extent} (h : Inside a x) {bytes : List UInt8}
    (hlen : bytes.length ≤ x.units * 4) :
    ∃ a', a.write x.start bytes = .ok a' ∧ SameShape a a' ∧
      (∃ s b, a' = a.setSegment s b) ∧
      a'.read x.start bytes.length = .ok bytes ∧
      ∀ y len, Inside a y → len ≤ y.units * 4 → x.Apart y →
        a'.read y.start len = a.read y.start len := by
  have hin := h.1
  obtain ⟨sp, hsp⟩ : ∃ sp, splice (a.segment (x.start / 2 ^ 21)) (x.start % 2 ^ 21 * 4) bytes =
      .ok sp := ⟨_, splice_ok (by omega)⟩
  have hsplen := splice_length hsp
  have hseg := segment_setSegment a (x.start / 2 ^ 21) sp hsplen
  refine ⟨a.setSegment (x.start / 2 ^ 21) sp, ?_, ?_, ⟨_, _, rfl⟩, ?_, ?_⟩
  · rw [write, hsp]
    rfl
  · refine ⟨by simp, by simp, by simp, by simp, by simp, fun s => ?_⟩
    rw [hseg]
    split
    · next hs => rw [hsplen, hs]
    · rfl
  · rw [read, hseg, if_pos rfl]
    exact slice_splice_same hsp
  · intro y len hy hylen hapart
    rw [read, hseg]
    split
    · next hs =>
      -- in one segment, but before it or behind it
      have hy2 := h.2
      have hmod := Nat.div_add_mod x.start (2 ^ 21)
      have hmody := Nat.div_add_mod y.start (2 ^ 21)
      rw [read, hs]
      refine slice_splice_disjoint hsp ?_
      have hy' := hy.2
      rcases hapart with hlt | hgt
      · right; omega
      · left; omega
    · rfl

/-! ## Who owns what -/

/-- What an allocation of `len` bytes is charged at: rounded up to the grain,
unless it is oversized. -/
def charge (len : Nat) : Nat :=
  match classOf len with
  | some cls => (cls + 1) * grain
  | none => len

/-- A live allocation: the reference its caller holds and the bytes behind it. -/
structure Block where
  ref : Ref
  data : List UInt8
  deriving DecidableEq

namespace Block

def cls (b : Block) : Option Nat := classOf b.data.length

/-- Where a small block lies on the line. -/
def extent (b : Block) : Option Extent := b.cls.map fun c => ⟨b.ref.bits.toNat, c + 1⟩

def isLarge (b : Block) : Bool := b.cls.isNone

/-- What an oversized block is charged at, on its own count. -/
def largeSize (b : Block) : Nat := if b.isLarge then b.data.length else 0

end Block

structure Cell where
  at_ : UInt32
  cls : Nat
  deriving DecidableEq

def Cell.extent (c : Cell) : Extent := ⟨c.at_.toNat, c.cls + 1⟩

/-- Everything cut: the small live blocks and the free cells. -/
def extents (L : List Block) (F : List Cell) : List Extent :=
  L.filterMap Block.extent ++ F.map Cell.extent

/-- The blocks of one free list, head first. -/
def chain (F : List Cell) (cls : Nat) : List UInt32 :=
  (F.filter fun c => c.cls = cls).map Cell.at_

/-- The links lead from `head` through exactly these blocks, and end. -/
def Linked (a : Arena) : UInt32 → List UInt32 → Prop
  | head, [] => head = u32Max
  | head, r :: rs => head = r ∧ ∃ next, a.nextFree ⟨r⟩ = .ok next ∧ Linked a next rs

/-- How many units of segment `s` have been cut. -/
def cutUnits (a : Arena) (s : Nat) : Nat :=
  if s + 1 < a.made then (a.segment s).length / 4
  else if s + 1 = a.made then a.off.toNat
  else 0

/-- Bytes of the newest segment not yet cut. -/
def uncut (a : Arena) : Nat := (a.segment (a.made - 1)).length - a.off.toNat * 4

structure Shape (a : Arena) : Prop where
  made_le : a.made ≤ 1024
  seg_eq : a.seg.toNat = a.made - 1
  off_le : a.off.toNat * 4 ≤ (a.segment (a.made - 1)).length
  lengths : ∀ s < a.made, 4 ∣ (a.segment s).length ∧ 2048 ≤ (a.segment s).length ∧
    (a.segment s).length ≤ 2 ^ 23
  beyond : ∀ s, a.made ≤ s → a.segment s = []
  tail : a.tail.length = a.made - 4
  total : a.segmentBytes = ((List.range a.made).map fun s => (a.segment s).length).sum

structure Partition (a : Arena) (E : List Extent) : Prop where
  apart : E.Pairwise Extent.Apart
  fits : ∀ x ∈ E, 0 < x.units ∧ x.start % 2 ^ 21 + x.units ≤ cutUnits a (x.start / 2 ^ 21)
  covers : ∀ u, u % 2 ^ 21 < cutUnits a (u / 2 ^ 21) →
    ∃ x ∈ E, x.start ≤ u ∧ u < x.start + x.units
  tally : (E.map fun x => x.units * 4).sum + uncut a = a.segmentBytes

structure Lists (a : Arena) (F : List Cell) : Prop where
  reached : ∀ c ∈ F, c.cls < a.heads.length
  linked : ∀ cls head, a.heads[cls]? = some head → Linked a head (chain F cls)

structure Blocks (a : Arena) (L : List Block) : Prop where
  small : ∀ b ∈ L, b.isLarge = false → a.read b.ref.bits.toNat b.data.length = .ok b.data
  large : ∀ b ∈ L, b.isLarge = true →
    b.ref.isLarge = true ∧ a.large[b.ref.index]? = some b.data
  slots : ((L.filter Block.isLarge).map (·.ref.index) ++ a.largeFree.map (·.toNat)).Nodup
  holes : ∀ i ∈ a.largeFree, i.toNat < a.large.length ∧ i.toNat < 2 ^ 31 - 1
  reach : a.large.length ≤ 2 ^ 31
  classes : ∀ b ∈ L, ∀ cls, b.cls = some cls → cls < a.heads.length

structure Totals (a : Arena) (L : List Block) (F : List Cell) (lost : Nat) : Prop where
  live : a.live = (L.map fun b => charge b.data.length).sum + lost
  large : a.largeLive = (L.map Block.largeSize).sum + lost
  dead : a.dead = (F.map fun c => (c.cls + 1) * 4).sum

/-- The arena, the blocks its callers hold, and the cells on its free lists. -/
structure Holds (a : Arena) (L : List Block) (F : List Cell) (lost : Nat) : Prop where
  shape : Shape a
  partition : Partition a (extents L F)
  lists : Lists a F
  blocks : Blocks a L
  totals : Totals a L F lost

/-! ## What the parts say -/

theorem classOf_some {len cls : Nat} (h : classOf len = some cls) :
    0 < len ∧ len ≤ (cls + 1) * 4 ∧ (cls + 1) * 4 ≤ 2048 ∧ (cls + 1) * 4 < len + 4 := by
  unfold classOf grain smallMax at h
  split at h
  · cases h
  · next hno =>
    cases h
    omega

theorem Shape.cutUnits_le {a : Arena} (h : Shape a) (s : Nat) :
    cutUnits a s * 4 ≤ (a.segment s).length ∧ cutUnits a s ≤ 2 ^ 21 ∧
      (0 < cutUnits a s → s < a.made) := by
  unfold cutUnits
  split
  · next hs =>
    have := h.lengths s (by omega)
    omega
  · split
    · next hs =>
      have hoff := h.off_le
      have := h.lengths s (by omega)
      rw [show a.made - 1 = s by omega] at hoff
      omega
    · omega

theorem Partition.inside {a : Arena} {E : List Extent} (hs : Shape a) (h : Partition a E)
    {x : Extent} (hx : x ∈ E) : Inside a x := by
  have hfit := h.fits x hx
  have hcut := hs.cutUnits_le (x.start / 2 ^ 21)
  constructor
  · omega
  · omega

theorem Partition.start_lt {a : Arena} {E : List Extent} (hs : Shape a) (h : Partition a E)
    {x : Extent} (hx : x ∈ E) : x.start < 2 ^ 31 := by
  have hfit := h.fits x hx
  have hcut := (hs.cutUnits_le (x.start / 2 ^ 21)).2.2 (by omega)
  have := hs.made_le
  omega

theorem Partition.perm {a : Arena} {E E' : List Extent} (h : Partition a E) (hp : E.Perm E') :
    Partition a E' where
  apart := (hp.pairwise_iff Extent.Apart.symm).mp h.apart
  fits := fun x hx => h.fits x (hp.mem_iff.mpr hx)
  covers := fun u hu => by
    obtain ⟨x, hx, hin⟩ := h.covers u hu
    exact ⟨x, hp.mem_iff.mp hx, hin⟩
  tally := by
    rw [← h.tally, (hp.map fun x => x.units * 4).sum_eq]

theorem SameShape.shape {a a' : Arena} (h : SameShape a a') (hs : Shape a) : Shape a' := by
  have hbeyond : ∀ s, a'.made ≤ s → a'.segment s = [] := fun s hle => by
    have := h.lengths s
    rw [hs.beyond s (h.made ▸ hle)] at this
    exact List.eq_nil_of_length_eq_zero this
  refine ⟨h.made ▸ hs.made_le, ?_, ?_, ?_, hbeyond, ?_, ?_⟩
  · rw [h.seg, h.made]; exact hs.seg_eq
  · rw [h.off, h.made, h.lengths]; exact hs.off_le
  · intro s hlt
    rw [h.lengths]
    exact hs.lengths s (h.made ▸ hlt)
  · rw [h.tail, h.made]; exact hs.tail
  · rw [h.segmentBytes, h.made]
    simp only [h.lengths]
    exact hs.total

theorem SameShape.cutUnits {a a' : Arena} (h : SameShape a a') (s : Nat) :
    Arena.cutUnits a' s = Arena.cutUnits a s := by
  unfold Arena.cutUnits
  rw [h.made, h.off, h.lengths]

theorem SameShape.partition {a a' : Arena} {E : List Extent} (h : SameShape a a')
    (hp : Partition a E) : Partition a' E where
  apart := hp.apart
  fits := fun x hx => by rw [h.cutUnits]; exact hp.fits x hx
  covers := fun u hu => hp.covers u (by rwa [h.cutUnits] at hu)
  tally := by
    rw [h.segmentBytes, uncut, h.made, h.off, h.lengths]
    exact hp.tally

theorem Linked.congr {a a' : Arena} {head : UInt32} {rs : List UInt32} (h : Linked a head rs)
    (hread : ∀ r ∈ rs, a'.nextFree ⟨r⟩ = a.nextFree ⟨r⟩) : Linked a' head rs := by
  induction rs generalizing head with
  | nil => exact h
  | cons r rs ih =>
    obtain ⟨hhead, next, hnext, hrest⟩ := h
    refine ⟨hhead, next, ?_, ih hrest fun s hs => hread s (by simp [hs])⟩
    rw [hread r (by simp), hnext]

theorem mem_chain {F : List Cell} {cls : Nat} {r : UInt32} : r ∈ chain F cls ↔ ⟨r, cls⟩ ∈ F := by
  simp only [chain, List.mem_map, List.mem_filter, decide_eq_true_eq]
  constructor
  · intro ⟨c, ⟨hc, hcls⟩, hr⟩
    obtain ⟨at_, cls'⟩ := c
    simp only at hcls hr
    rwa [← hr, ← hcls]
  · intro h
    exact ⟨_, ⟨h, rfl⟩, rfl⟩

theorem chain_cons (c : Cell) (F : List Cell) (cls : Nat) :
    chain (c :: F) cls = if c.cls = cls then c.at_ :: chain F cls else chain F cls := by
  unfold chain
  by_cases h : c.cls = cls <;> simp [h]

theorem chain_append (F G : List Cell) (cls : Nat) : chain (F ++ G) cls = chain F cls ++ chain G cls := by
  simp [chain]

theorem mem_extents {L : List Block} {F : List Cell} {x : Extent} :
    x ∈ extents L F ↔ (∃ b ∈ L, b.extent = some x) ∨ ∃ c ∈ F, c.extent = x := by
  simp [extents]

end Arena
end Rugo
