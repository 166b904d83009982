import Rugo.ArenaLayout

/- What each operation of the arena does to `Holds`: one lemma for each. A
   write reaches one extent and leaves every other reading what it read
   (`Frame`); a push and a take move one block between its caller and the free
   list of its class; a cut takes fresh units; a refused growth is followed to
   the state it leaves. No operation stops on a state that `Holds`. -/
namespace Rugo.Arena
open Exec Words

/-! ## Frames -/

/-- Only the bytes of `x` may differ, and the lists. -/
structure Frame (x : Extent) (a a' : Arena) : Prop where
  same : SameShape a a'
  large : a'.large = a.large
  largeFree : a'.largeFree = a.largeFree
  live : a'.live = a.live
  largeLive : a'.largeLive = a.largeLive
  heads : a'.heads.length = a.heads.length
  reads : ∀ y len, Inside a y → len ≤ y.units * 4 → x.Apart y →
    a'.read y.start len = a.read y.start len

/-- What a block in the way of nothing keeps through a frame. -/
def Clear (x : Extent) (a : Arena) (L : List Block) (F : List Cell) : Prop :=
  ∀ y ∈ extents L F, Inside a y ∧ x.Apart y

theorem Block.extent_some {b : Block} (h : b.isLarge = false) :
    ∃ y, b.extent = some y ∧ y.start = b.ref.bits.toNat ∧ b.data.length ≤ y.units * 4 := by
  unfold Block.isLarge at h
  cases hc : b.cls with
  | none => simp [hc] at h
  | some c =>
    refine ⟨⟨b.ref.bits.toNat, c + 1⟩, by simp [Block.extent, hc], rfl, ?_⟩
    exact (classOf_some hc).2.1

theorem Frame.blocks {x : Extent} {a a' : Arena} {L : List Block} {F : List Cell}
    (h : Frame x a a') (hc : Clear x a L F) (hb : Blocks a L) : Blocks a' L where
  small := fun b hb' hs => by
    obtain ⟨y, hy, hstart, hlen⟩ := Block.extent_some hs
    obtain ⟨hin, hap⟩ := hc y (mem_extents.mpr (.inl ⟨b, hb', hy⟩))
    rw [← hstart, h.reads y _ hin hlen hap, hstart]
    exact hb.small b hb' hs
  large := by rw [h.large]; exact hb.large
  slots := by rw [h.largeFree]; exact hb.slots
  holes := by rw [h.largeFree, h.large]; exact hb.holes
  reach := by rw [h.large]; exact hb.reach
  classes := by rw [h.heads]; exact hb.classes

theorem Frame.nextFree {x : Extent} {a a' : Arena} {L : List Block} {F : List Cell}
    (h : Frame x a a') (hc : Clear x a L F) {c : Cell} (hmem : c ∈ F) :
    a'.nextFree ⟨c.at_⟩ = a.nextFree ⟨c.at_⟩ := by
  obtain ⟨hin, hap⟩ := hc c.extent (mem_extents.mpr (.inr ⟨c, hmem, rfl⟩))
  rw [nextFree_eq, nextFree_eq]
  have hread := h.reads c.extent 4 hin (by simp only [Cell.extent]; omega) hap
  simp only [Cell.extent] at hread
  rw [hread]

theorem Frame.linked {x : Extent} {a a' : Arena} {L : List Block} {F : List Cell}
    (h : Frame x a a') (hc : Clear x a L F) {head : UInt32} {cls : Nat}
    (hl : Linked a head (chain F cls)) : Linked a' head (chain F cls) := by
  refine hl.congr fun r hr => ?_
  have hcell : (⟨r, cls⟩ : Cell) ∈ F := mem_chain.mp hr
  have hsame := h.nextFree hc hcell
  exact hsame

theorem write_frame {a : Arena} {x : Extent} (h : Inside a x) (bytes : List UInt8)
    (hlen : bytes.length ≤ x.units * 4) :
    ∃ a', a.write x.start bytes = .ok a' ∧ Frame x a a' ∧ a'.heads = a.heads ∧ a'.dead = a.dead ∧
      a'.read x.start bytes.length = .ok bytes := by
  obtain ⟨a', hw, hsame, ⟨s, b, rfl⟩, hread, hframe⟩ := write_ok h hlen
  exact ⟨_, hw, ⟨hsame, by simp, by simp, by simp, by simp, by simp, hframe⟩, by simp, by simp, hread⟩

/-! ## The free lists -/

/-- The link is written into the block, and the head becomes the block. -/
theorem pushFree_ok {a : Arena} (r : UInt32) (cls : Nat) {L : List Block} {F : List Cell}
    (hin : Inside a ⟨r.toNat, cls + 1⟩) (hcls : cls < a.heads.length) (hl : Lists a F)
    (hc : Clear ⟨r.toNat, cls + 1⟩ a L F) :
    ∃ a', a.pushFree ⟨r⟩ ((cls + 1) * 4) = .ok a' ∧ Frame ⟨r.toNat, cls + 1⟩ a a' ∧
      a'.dead = a.dead + (cls + 1) * 4 ∧ Lists a' (⟨r, cls⟩ :: F) := by
  have hhead : a.heads[cls]? = some a.heads[cls] := List.getElem?_eq_getElem hcls
  generalize hold : a.heads[cls] = old at hhead
  let a1 : Arena := { a with dead := a.dead + (cls + 1) * 4 }
  obtain ⟨a2, hw, hframe, hheads, hdead, hread⟩ := write_frame (a := a1)
    (x := ⟨r.toNat, cls + 1⟩) hin (u32Bytes old) (by simp)
  have hf : Frame ⟨r.toNat, cls + 1⟩ a { a2 with heads := a2.heads.set cls r } :=
    ⟨⟨hframe.same.made, hframe.same.seg, hframe.same.off, hframe.same.segmentBytes,
      hframe.same.tail, hframe.same.lengths⟩, hframe.large, hframe.largeFree, hframe.live,
      hframe.largeLive, List.length_set.trans hframe.heads, hframe.reads⟩
  have hheads' : a2.heads = a.heads := hheads
  refine ⟨_, ?_, hf, hdead, ?_⟩
  · have hidx : (cls + 1) * 4 / grain = cls + 1 := by unfold grain; omega
    have hindex : index a.heads cls = .ok old := index_of_getElem? hhead
    have hset : ({ a with dead := a.dead + (cls + 1) * 4 } : Arena).setNextFree ⟨r⟩ old = .ok a2 := by
      rw [setNextFree_eq]; exact hw
    simp only [pushFree, hidx, minus_ok (show 1 ≤ cls + 1 by omega), ok_bind, Nat.add_sub_cancel,
      hindex, hset]
    rw [update_ok (by rw [hheads']; exact hcls)]
    rfl
  -- the block's first word leads to what was the head
  · have hnext : ({ a2 with heads := a2.heads.set cls r } : Arena).nextFree ⟨r⟩ = .ok old := by
      rw [nextFree_eq]
      have hr : ({ a2 with heads := a2.heads.set cls r } : Arena).read r.toNat 4 =
          .ok (u32Bytes old) := by
        rw [← u32Bytes_length old]; exact hread
      rw [hr]
      simp
    refine ⟨fun c hcm => ?_, fun cls' head' hh => ?_⟩
    · simp only [List.length_set, hheads']
      cases hcm with
      | head => exact hcls
      | tail _ hcm => exact hl.reached c hcm
    · rw [chain_cons]
      simp only [hheads', List.getElem?_set] at hh
      by_cases heq : cls = cls'
      · rw [if_pos heq, if_pos (heq ▸ hcls)] at hh
        rw [if_pos heq, ← Option.some.inj hh]
        rw [← heq]
        exact ⟨rfl, old, hnext, hf.linked hc (hl.linked cls old hhead)⟩
      · rw [if_neg heq] at hh
        rw [if_neg heq]
        exact hf.linked hc (hl.linked cls' head' hh)

/-- Taking the head of a list: the cell leaves, and the rest of its list is
what its link led to. -/
theorem takeFree_ok {a : Arena} {cls : Nat} {head : UInt32} {F : List Cell}
    (hl : Lists a F) (hhead : a.heads[cls]? = some head) (hne : head ≠ u32Max)
    (hdead : a.dead = (F.map fun c => (c.cls + 1) * 4).sum) :
    ∃ next G, F.Perm (⟨head, cls⟩ :: G) ∧
      a.takeFree cls head = .ok (⟨head⟩, { a with
        heads := a.heads.set cls next
        dead := a.dead - (cls + 1) * 4
        live := a.live + (cls + 1) * 4 }) ∧
      Lists { a with
        heads := a.heads.set cls next
        dead := a.dead - (cls + 1) * 4
        live := a.live + (cls + 1) * 4 } G := by
  have hlink := hl.linked cls head hhead
  have hcls := (List.getElem?_eq_some_iff.mp hhead).1
  cases hchain : chain F cls with
  | nil => rw [hchain] at hlink; exact absurd hlink hne
  | cons r rest =>
    rw [hchain] at hlink
    obtain ⟨rfl, next, hnext, hrest⟩ := hlink
    -- the head is the first cell of its class
    have hmap : (F.filter fun c => c.cls = cls).map Cell.at_ = head :: rest := hchain
    obtain ⟨c, cs, hfilter, hc, hcs⟩ := List.map_eq_cons_iff.mp hmap
    obtain ⟨F1, F2, hF, hF1, hccls, hF2⟩ := List.filter_eq_cons_iff.mp hfilter
    have hcell : c = ⟨head, cls⟩ := by
      obtain ⟨at_, k⟩ := c
      simp only [decide_eq_true_eq] at hccls hc
      rw [hc, hccls]
    have hperm : F.Perm (⟨head, cls⟩ :: (F1 ++ F2)) := by
      rw [hF, hcell]; exact List.perm_middle
    have hle : (cls + 1) * 4 ≤ a.dead := by
      rw [hdead, (hperm.map _).sum_eq, List.map_cons, List.sum_cons]
      exact Nat.le_add_right _ _
    refine ⟨next, F1 ++ F2, hperm, ?_, ?_, ?_⟩
    · simp only [takeFree, hnext, ok_bind, update_ok hcls, grain, minus_ok hle]
      rfl
    · intro c' hc'
      simp only [List.length_set]
      exact hl.reached c' (hperm.mem_iff.mpr (.tail _ hc'))
    · intro cls' head' hh
      simp only [List.getElem?_set] at hh
      have hF1' : chain F1 cls = [] := by
        rw [chain, List.filter_eq_nil_iff.mpr (by simpa using hF1), List.map_nil]
      have hF2' : chain F2 cls = rest := by
        have : F2.filter (fun c => decide (c.cls = cls)) = cs := hF2
        rw [chain, this, hcs]
      by_cases heq : cls = cls'
      · rw [if_pos heq, if_pos (heq ▸ hcls)] at hh
        rw [← heq, ← Option.some.inj hh, chain_append, hF1', hF2', List.nil_append]
        exact hrest.congr fun _ _ => rfl
      · rw [if_neg heq] at hh
        have hsame : chain (F1 ++ F2) cls' = chain F cls' := by
          rw [hF, chain_append, chain_append, chain_cons, hcell, if_neg heq]
        rw [hsame]
        exact (hl.linked cls' head' hh).congr fun _ _ => rfl

theorem reach_lists {a : Arena} {F : List Cell} (hl : Lists a F) (cls : Nat) :
    Lists (a.reach cls) F ∧ cls < (a.reach cls).heads.length := by
  unfold reach
  split
  · next hge =>
    refine ⟨⟨fun c hc => ?_, fun cls' head hh => ?_⟩, ?_⟩
    · have := hl.reached c hc
      simp only [List.length_append]
      omega
    · simp only at hh
      rcases Nat.lt_or_ge cls' a.heads.length with hlt | hge'
      · rw [List.getElem?_append_left hlt] at hh
        exact (hl.linked cls' head hh).congr fun _ _ => rfl
      · rw [List.getElem?_append_right hge'] at hh
        -- no cell has a class past the old heads
        have hnil : chain F cls' = [] := by
          rw [chain, List.filter_eq_nil_iff.mpr, List.map_nil]
          intro c hc hcls
          have := hl.reached c hc
          simp only [decide_eq_true_eq] at hcls
          omega
        rw [hnil]
        exact (List.eq_of_mem_replicate (List.mem_of_getElem? hh))
    · simp only [List.length_append, List.length_replicate]
      omega
  · exact ⟨hl, by omega⟩

/-! ## Fresh segments -/

theorem nextMultipleOf_of_dvd {x n : Nat} (h : n ∣ x) : nextMultipleOf x n = x := by
  rw [nextMultipleOf, if_pos (Nat.mod_eq_zero_of_dvd h)]

/-- Whatever is held, the next segment is a whole number of the smallest, no
smaller than it and no larger than a reference can address. -/
theorem nextSegmentSize_spec (p : Platform) (held : Nat) :
    (p.lazy = true → 1024 * 1024 ∣ p.nextSegmentSize held) ∧ 4 ∣ p.nextSegmentSize held ∧
      4096 ≤ p.nextSegmentSize held ∧ p.nextSegmentSize held ≤ 2 ^ 23 := by
  unfold Platform.nextSegmentSize Platform.maxSegment Platform.minSegment nextMultipleOf
  generalize held / p.growth = share
  cases p.lazy
  · simp only [Bool.false_eq_true, if_false, false_implies, true_and]
    split_ifs <;> omega
  · simp only [if_true, true_implies]
    split_ifs <;> omega

theorem newSegment_length {p : Platform} {granted : Bool} {held : Nat} {segment : Segment}
    (h : p.newSegment granted (p.nextSegmentSize held) = some segment) :
    4 ∣ segment.length ∧ 4096 ≤ segment.length ∧ segment.length ≤ 2 ^ 23 := by
  have hspec := nextSegmentSize_spec p held
  have hlen : segment.length = p.nextSegmentSize held := by
    cases p with
    | boxed =>
      simp only [Platform.newSegment, Option.some.injEq] at h
      rw [← h, List.length_replicate]
    | mapped page hpage =>
      simp only [Platform.newSegment] at h
      split at h
      · rw [← Option.some.inj h, List.length_replicate]
        exact nextMultipleOf_of_dvd (Nat.dvd_trans hpage (hspec.1 rfl))
      · cases h
  rw [hlen]
  exact hspec.2

theorem segment_push {a : Arena} (ht : a.tail.length = a.made - 4) (segment : Segment) (s : Nat)
    (hbeyond : ∀ s, a.made ≤ s → a.segment s = []) :
    (a.push segment).segment s = if s = a.made then segment else a.segment s := by
  unfold push
  by_cases hm : a.made < inlineSegments
  · rw [dif_pos hm]
    unfold Arena.segment
    by_cases hs : s < inlineSegments
    · simp only [dif_pos hs, Vector.getElem_set, eq_comm]
    · simp only [dif_neg hs]
      rw [if_neg (by omega)]
  · rw [dif_neg hm]
    have h4 : inlineSegments = 4 := rfl
    by_cases hs : s < inlineSegments
    · rw [if_neg (by omega)]
      unfold Arena.segment
      simp only [dif_pos hs]
    · by_cases hsm : s = a.made
      · rw [if_pos hsm]
        unfold Arena.segment
        simp only [dif_neg hs]
        rw [List.getElem?_append_right (by omega), show s - inlineSegments - a.tail.length = 0 by omega]
        rfl
      · rw [if_neg hsm]
        rcases Nat.lt_or_ge s a.made with hlt | hge
        · unfold Arena.segment
          simp only [dif_neg hs]
          rw [List.getElem?_append_left (by omega)]
        · rw [hbeyond s hge]
          unfold Arena.segment
          simp only [dif_neg hs]
          rw [List.getElem?_eq_none (by simp only [List.length_append, List.length_singleton]; omega)]
          rfl

def refused (p : Platform) (granted : Bool) (a : Arena) : Prop :=
  a.made ≥ maxSegments ∨ p.newSegment granted (p.nextSegmentSize a.segmentBytes) = none

structure Grown (a a' : Arena) : Prop where
  made : a'.made = a.made + 1
  seg : a'.seg.toNat = a.made
  off : a'.off = 0
  heads : a'.heads = a.heads
  large : a'.large = a.large
  largeFree : a'.largeFree = a.largeFree
  live : a'.live = a.live
  dead : a'.dead = a.dead
  largeLive : a'.largeLive = a.largeLive
  tail : a'.tail.length = a.made + 1 - 4
  old : ∀ s, s ≠ a.made → a'.segment s = a.segment s
  fresh : 4 ∣ (a'.segment a.made).length ∧ 4096 ≤ (a'.segment a.made).length ∧
    (a'.segment a.made).length ≤ 2 ^ 23
  segmentBytes : a'.segmentBytes = a.segmentBytes + (a'.segment a.made).length
  made_lt : a.made < 1024

section push
variable (a : Arena) (segment : Segment)

@[simp] theorem push_heads : (a.push segment).heads = a.heads := by unfold push; split <;> rfl
@[simp] theorem push_large : (a.push segment).large = a.large := by unfold push; split <;> rfl
@[simp] theorem push_largeFree : (a.push segment).largeFree = a.largeFree := by
  unfold push; split <;> rfl
@[simp] theorem push_live : (a.push segment).live = a.live := by unfold push; split <;> rfl
@[simp] theorem push_dead : (a.push segment).dead = a.dead := by unfold push; split <;> rfl
@[simp] theorem push_largeLive : (a.push segment).largeLive = a.largeLive := by
  unfold push; split <;> rfl

end push

theorem grow_cases (p : Platform) (granted : Bool) (a : Arena) (ht : a.tail.length = a.made - 4)
    (hbeyond : ∀ s, a.made ≤ s → a.segment s = []) :
    (refused p granted a ∧ ∃ full, grow p granted a = .error full) ∨
    (¬ refused p granted a ∧ ∃ a', grow p granted a = .ok a' ∧ Grown a a') := by
  have hmax : maxSegments = 1024 := rfl
  unfold grow refused
  by_cases hm : a.made ≥ maxSegments
  · exact .inl ⟨.inl hm, .slab, by rw [if_pos hm]⟩
  · cases hn : p.newSegment granted (p.nextSegmentSize a.segmentBytes) with
    | none => exact .inl ⟨.inr rfl, .memory, by rw [if_neg hm]⟩
    | some segment =>
      obtain ⟨a', ha'⟩ : ∃ a', a' = { a.push segment with
          segmentBytes := a.segmentBytes + segment.length
          seg := narrow a.made
          made := a.made + 1
          off := 0 } := ⟨_, rfl⟩
      -- the new segment is behind the others
      have hseg : ∀ s, a'.segment s = if s = a.made then segment else a.segment s := by
        rw [ha']
        exact fun s => segment_push ht segment s hbeyond
      have hmade : a'.segment a.made = segment := by rw [hseg, if_pos rfl]
      have htail : a'.tail.length = a.made + 1 - 4 := by
        have h4 : inlineSegments = 4 := rfl
        rw [ha']
        unfold push
        split
        · simp only [ht]; omega
        · simp only [List.length_append, ht, List.length_singleton]; omega
      have hnarrow : (narrow a.made).toNat = a.made := by
        rw [narrow, UInt32.toNat_ofNat']
        omega
      refine .inr ⟨by simp only [reduceCtorEq, or_false]; exact hm, a', by rw [if_neg hm, ha'], ?_⟩
      refine ⟨by rw [ha'], by rw [ha']; exact hnarrow, by rw [ha'], ?_, ?_, ?_, ?_, ?_, ?_, htail,
        fun s hs => by rw [hseg, if_neg hs], by rw [hmade]; exact newSegment_length hn,
        by rw [hmade, ha'], by omega⟩
      all_goals rw [ha']; simp

theorem Grown.shape {a a' : Arena} (h : Grown a a') (hs : Shape a) : Shape a' := by
  have hlen : ∀ s < a.made + 1, 4 ∣ (a'.segment s).length ∧ 2048 ≤ (a'.segment s).length ∧
      (a'.segment s).length ≤ 2 ^ 23 := by
    intro s hlt
    by_cases hsm : s = a.made
    · have := h.fresh
      rw [hsm]
      omega
    · rw [h.old s hsm]
      exact hs.lengths s (by omega)
  refine ⟨by have := h.made_lt; rw [h.made]; omega, by rw [h.seg, h.made]; omega, ?_, ?_, ?_, ?_, ?_⟩
  · rw [h.off]
    simp
  · rw [h.made]; exact hlen
  · intro s hle
    rw [h.made] at hle
    rw [h.old s (by omega), hs.beyond s (by omega)]
  · rw [h.tail, h.made]
  · rw [h.segmentBytes, h.made, List.range_succ, List.map_append, List.sum_append, hs.total]
    have hmap : (List.range a.made).map (fun s => (a.segment s).length) =
        (List.range a.made).map fun s => (a'.segment s).length := by
      refine List.map_congr_left fun s hs' => ?_
      have := List.mem_range.mp hs'
      rw [h.old s (by omega)]
    rw [hmap]
    simp

theorem Grown.partition {a a' : Arena} {E : List Extent} (h : Grown a a')
    (hfull : a.off.toNat * 4 = (a.segment (a.made - 1)).length) (hp : Partition a E) :
    Partition a' E := by
  have hcut : ∀ s, cutUnits a' s = cutUnits a s := by
    intro s
    unfold cutUnits
    rw [h.made, h.off]
    have h0 : (0 : UInt32).toNat = 0 := rfl
    rcases Nat.lt_trichotomy (s + 1) a.made with hlt | heq | hgt
    · rw [if_pos (by omega), if_pos hlt, h.old s (by omega)]
    · rw [if_pos (by omega), if_neg (by omega), if_pos heq, h.old s (by omega)]
      rw [show a.made - 1 = s by omega] at hfull
      omega
    · split_ifs <;> first | rfl | omega
  refine ⟨hp.apart, fun x hx => by rw [hcut]; exact hp.fits x hx,
    fun u hu => hp.covers u (by rwa [hcut] at hu), ?_⟩
  have htally := hp.tally
  unfold uncut at htally ⊢
  rw [h.segmentBytes, h.off, h.made, Nat.add_sub_cancel]
  have h0 : (0 : UInt32).toNat = 0 := rfl
  omega

/-! ## Cutting -/

/-- Units of the newest segment not yet cut. -/
def left (a : Arena) : Nat := (a.segment (a.made - 1)).length / 4 - a.off.toNat

theorem Shape.room {a : Arena} (h : Shape a) : a.room = .ok (left a) := by
  have hoff := h.off_le
  unfold Arena.room left
  rw [h.seg_eq]
  split
  · next hnil => rw [hnil] at hoff ⊢; simp
  · have hmade : a.made - 1 < a.made := by
      by_contra hge
      have := h.beyond (a.made - 1) (by omega)
      simp_all
    have hlen := (h.lengths _ hmade).2.2
    have hnarrow : (narrow ((a.segment (a.made - 1)).length / grain)).toNat =
        (a.segment (a.made - 1)).length / 4 := by
      rw [narrow, UInt32.toNat_ofNat', grain]
      omega
    rw [hnarrow, minus_ok (by omega)]

theorem Shape.uncut_eq {a : Arena} (h : Shape a) : uncut a = left a * 4 := by
  have hoff := h.off_le
  unfold uncut left
  rcases Nat.eq_zero_or_pos a.made with h0 | hpos
  · have hnil := h.beyond (a.made - 1) (by omega)
    rw [hnil]
    simp
  · have := (h.lengths (a.made - 1) (by omega)).1
    omega

theorem Shape.left_made {a : Arena} (h : Shape a) (hl : 0 < left a) :
    0 < a.made ∧ a.off.toNat < 2 ^ 21 ∧
      (make a.seg a.off).bits.toNat = 2 ^ 21 * (a.made - 1) + a.off.toNat := by
  unfold left at hl
  have hmade : 0 < a.made := by
    by_contra h0
    have := h.beyond (a.made - 1) (by omega)
    simp [this] at hl
  have hlen := (h.lengths (a.made - 1) (by omega)).2.2
  have hseg := h.seg_eq
  have hle := h.made_le
  have hoff : a.off.toNat < 2 ^ 21 := by omega
  refine ⟨hmade, hoff, ?_⟩
  rw [make_toNat (by omega) hoff, hseg]

/-- The extent a cut of `units` takes. -/
def fresh (a : Arena) (units : Nat) : Extent := ⟨(make a.seg a.off).bits.toNat, units⟩

theorem Partition.fresh_apart {a : Arena} {E : List Extent} (hs : Shape a) (hp : Partition a E)
    {units : Nat} (hl : units ≤ left a) (hu : 0 < units) {y : Extent} (hy : y ∈ E) :
    (fresh a units).Apart y := by
  obtain ⟨hmade, hoff, hmk⟩ := hs.left_made (by omega)
  have hfit := hp.fits y hy
  have hcut := hs.cutUnits_le (y.start / 2 ^ 21)
  refine .inr ?_
  simp only [fresh, hmk]
  by_cases hlast : y.start / 2 ^ 21 + 1 = a.made
  · have : cutUnits a (y.start / 2 ^ 21) = a.off.toNat := by
      unfold cutUnits
      rw [if_neg (by omega), if_pos hlast]
    omega
  · omega

theorem Shape.fresh_inside {a : Arena} (hs : Shape a) {units : Nat} (hl : units ≤ left a)
    (hu : 0 < units) : Inside a (fresh a units) := by
  obtain ⟨hmade, hoff, hmk⟩ := hs.left_made (by omega)
  have hlen := (hs.lengths (a.made - 1) (by omega)).2.2
  unfold left at hl
  have hdiv : (2 ^ 21 * (a.made - 1) + a.off.toNat) / 2 ^ 21 = a.made - 1 := by omega
  unfold Inside fresh
  simp only [hmk, hdiv]
  omega

theorem Shape.advance {a : Arena} (hs : Shape a) {off : UInt32}
    (hoff : off.toNat * 4 ≤ (a.segment (a.made - 1)).length) : Shape { a with off } where
  made_le := hs.made_le
  seg_eq := hs.seg_eq
  off_le := hoff
  lengths := hs.lengths
  beyond := hs.beyond
  tail := hs.tail
  total := hs.total

theorem Partition.advance {a : Arena} {E : List Extent} (hs : Shape a) (hp : Partition a E)
    {units : Nat} (hl : units ≤ left a) (hu : 0 < units) {off : UInt32}
    (hoff : off.toNat = a.off.toNat + units) : Partition { a with off } (fresh a units :: E) := by
  obtain ⟨hmade, hlt, hmk⟩ := hs.left_made (by omega)
  have huncut := hs.uncut_eq
  -- only the newest segment's cut grows
  have hcut : ∀ s, cutUnits { a with off } s =
      if s + 1 = a.made then a.off.toNat + units else cutUnits a s := by
    intro s
    unfold cutUnits
    simp only [hoff]
    split_ifs <;> first | rfl | omega
  have hlast : cutUnits a (a.made - 1) = a.off.toNat := by
    unfold cutUnits
    rw [if_neg (by omega), if_pos (by omega)]
  refine ⟨List.pairwise_cons.mpr ⟨fun y hy => hp.fresh_apart hs hl hu hy, hp.apart⟩, ?_, ?_, ?_⟩
  · intro x hx
    rw [hcut]
    cases hx with
    | head =>
      have hin := hs.fresh_inside hl hu
      have h2 := hin.2
      simp only [fresh, hmk] at h2 ⊢
      rw [if_pos (by omega)]
      omega
    | tail _ hx =>
      have hfit := hp.fits x hx
      split
      · next heq =>
        rw [show x.start / 2 ^ 21 = a.made - 1 by omega, hlast] at hfit
        omega
      · exact hfit
  · intro u hu'
    rw [hcut] at hu'
    by_cases hin : u % 2 ^ 21 < cutUnits a (u / 2 ^ 21)
    -- a unit that was cut before, or one of those cut now
    · obtain ⟨x, hx, hxu⟩ := hp.covers u hin
      exact ⟨x, .tail _ hx, hxu⟩
    · split at hu'
      · next heq =>
        rw [show u / 2 ^ 21 = a.made - 1 by omega, hlast] at hin
        refine ⟨_, .head _, ?_⟩
        simp only [fresh, hmk]
        omega
      · omega
  · have htally := hp.tally
    have hoffle := hs.off_le
    have hrest : uncut { a with off } = (a.segment (a.made - 1)).length - off.toNat * 4 := rfl
    rw [hrest, List.map_cons, List.sum_cons]
    unfold uncut left at *
    simp only [fresh]
    omega

/-! ## Moving between the parts -/

theorem Totals.cons {a : Arena} {L : List Block} {F : List Cell} {lost : Nat} {b : Block}
    (h : Totals a (b :: L) F lost) : charge b.data.length ≤ a.live ∧
      a.live - charge b.data.length = (L.map fun b => charge b.data.length).sum + lost := by
  have hlive := h.live
  rw [List.map_cons, List.sum_cons] at hlive
  omega

theorem extents_small {L : List Block} {F : List Cell} {b : Block} {x : Extent}
    (h : b.extent = some x) : extents (b :: L) F = x :: extents L F := by
  simp [extents, h]

theorem extents_large {L : List Block} {F : List Cell} {b : Block} (h : b.extent = none) :
    extents (b :: L) F = extents L F := by
  simp [extents, h]

theorem extents_cell (L : List Block) (F : List Cell) (c : Cell) :
    (extents L (c :: F)).Perm (c.extent :: extents L F) := List.perm_middle

theorem extents_perm {L : List Block} {F F' : List Cell} (h : F.Perm F') :
    (extents L F).Perm (extents L F') := (h.map _).append_left _

/-- The ledger is a set of blocks: its order says nothing. -/
theorem Holds.perm {a : Arena} {L L' : List Block} {F : List Cell} {lost : Nat}
    (h : Holds a L F lost) (hp : L.Perm L') : Holds a L' F lost where
  shape := h.shape
  partition := h.partition.perm ((hp.filterMap _).append_right _)
  lists := h.lists
  blocks := {
    small := fun b hb => h.blocks.small b (hp.mem_iff.mpr hb)
    large := fun b hb => h.blocks.large b (hp.mem_iff.mpr hb)
    slots := ((((hp.filter _).map _).append_right _).nodup_iff).mp h.blocks.slots
    holes := h.blocks.holes
    reach := h.blocks.reach
    classes := fun b hb => h.blocks.classes b (hp.mem_iff.mpr hb) }
  totals := {
    live := by rw [h.totals.live, (hp.map _).sum_eq]
    large := by rw [h.totals.large, (hp.map _).sum_eq]
    dead := h.totals.dead }

theorem Blocks.of_reads {a a' : Arena} {L : List Block} (h : Blocks a L)
    (hread : ∀ b ∈ L, b.isLarge = false →
      a'.read b.ref.bits.toNat b.data.length = a.read b.ref.bits.toNat b.data.length)
    (hlarge : a'.large = a.large) (hfree : a'.largeFree = a.largeFree)
    (hheads : a.heads.length ≤ a'.heads.length) : Blocks a' L where
  small := fun b hb hs => by rw [hread b hb hs]; exact h.small b hb hs
  large := by rw [hlarge]; exact h.large
  slots := by rw [hfree]; exact h.slots
  holes := by rw [hfree, hlarge]; exact h.holes
  reach := by rw [hlarge]; exact h.reach
  classes := fun b hb cls hcls => lt_of_lt_of_le (h.classes b hb cls hcls) hheads

theorem Blocks.cons_small {a : Arena} {L : List Block} (h : Blocks a L) {b : Block}
    (hs : b.isLarge = false) (hread : a.read b.ref.bits.toNat b.data.length = .ok b.data)
    (hclass : ∀ cls, b.cls = some cls → cls < a.heads.length) : Blocks a (b :: L) where
  small := fun c hc hcs => by
    cases hc with
    | head => exact hread
    | tail _ hc => exact h.small c hc hcs
  large := fun c hc hcl => by
    cases hc with
    | head => rw [hs] at hcl; cases hcl
    | tail _ hc => exact h.large c hc hcl
  slots := by
    rw [List.filter_cons_of_neg (by simp [hs])]
    exact h.slots
  holes := h.holes
  reach := h.reach
  classes := fun c hc cls hcls => by
    cases hc with
    | head => exact hclass cls hcls
    | tail _ hc => exact h.classes c hc cls hcls

theorem charge_small {len cls : Nat} (h : classOf len = some cls) : charge len = (cls + 1) * 4 := by
  rw [charge, h]
  rfl

theorem charge_large {len : Nat} (h : classOf len = none) : charge len = len := by
  rw [charge, h]

theorem Block.isLarge_iff {b : Block} : b.isLarge = true ↔ classOf b.data.length = none := by
  simp [Block.isLarge, Block.cls]

theorem large_block {b : Block} (h : classOf b.data.length = none) :
    b.extent = none ∧ b.largeSize = b.data.length := by
  have hl : b.isLarge = true := Block.isLarge_iff.mpr h
  exact ⟨by simp [Block.extent, Block.cls, h], by simp [Block.largeSize, hl]⟩

theorem small_block {r : Ref} {data : List UInt8} {cls : Nat}
    (h : classOf data.length = some cls) :
    (⟨r, data⟩ : Block).isLarge = false ∧
      (⟨r, data⟩ : Block).extent = some ⟨r.bits.toNat, cls + 1⟩ ∧
      (⟨r, data⟩ : Block).largeSize = 0 := by
  have hl : (⟨r, data⟩ : Block).isLarge = false := by simp [Block.isLarge, Block.cls, h]
  exact ⟨hl, by simp [Block.extent, Block.cls, h], by simp [Block.largeSize, hl]⟩

section alloc
variable {p : Platform} {granted : Bool} {a : Arena} {L : List Block} {F : List Cell}
  {lost len cls : Nat}

theorem takeFree_holds (h : Holds a L F lost) (hlen : classOf len = some cls) {head : UInt32}
    (hhead : a.heads[cls]? = some head) (hne : head ≠ u32Max) :
    ∃ data G a', a.takeFree cls head = .ok (⟨head⟩, a') ∧ data.length = len ∧
      Holds a' (⟨⟨head⟩, data⟩ :: L) G lost := by
  obtain ⟨next, G, hperm, htake, hlists⟩ := takeFree_ok h.lists hhead hne h.totals.dead
  have hE : (extents L F).Perm (⟨head.toNat, cls + 1⟩ :: extents L G) :=
    (extents_perm hperm).trans (extents_cell L G ⟨head, cls⟩)
  have hin := h.partition.inside h.shape (hE.mem_iff.mpr (.head _))
  obtain ⟨data, hread, hdata⟩ := read_ok hin len (by have := classOf_some hlen; simp only; omega)
  have hcls : classOf data.length = some cls := by rw [hdata, hlen]
  obtain ⟨hsmall, hext, hls⟩ := small_block (r := ⟨head⟩) hcls
  refine ⟨data, G, _, htake, hdata, ?_⟩
  have hsame : SameShape a { a with
      heads := a.heads.set cls next
      dead := a.dead - (cls + 1) * 4
      live := a.live + (cls + 1) * 4 } := ⟨rfl, rfl, rfl, rfl, rfl, fun _ => rfl⟩
  refine ⟨hsame.shape h.shape, ?_, hlists, ?_, ?_, ?_, ?_⟩
  · rw [extents_small hext]
    exact hsame.partition (h.partition.perm hE)
  · refine Blocks.cons_small ?_ hsmall ?_ fun cls' hcls' => ?_
    · exact h.blocks.of_reads (fun _ _ _ => rfl) rfl rfl (by simp only [List.length_set]; omega)
    · simp only [hdata]
      exact hread
    · rw [Block.cls, hcls, Option.some.injEq] at hcls'
      simp only [List.length_set, ← hcls']
      exact (List.getElem?_eq_some_iff.mp hhead).1
  · simp only [List.map_cons, List.sum_cons, charge_small hcls, h.totals.live]
    omega
  · simp only [List.map_cons, List.sum_cons, hls, h.totals.large, Nat.zero_add]
  · simp only [h.totals.dead, (hperm.map _).sum_eq, List.map_cons, List.sum_cons]
    omega

theorem bump_holds (h : Holds a L F lost) (hlen : classOf len = some cls) (hl : cls + 1 ≤ left a)
    (hheads : cls < a.heads.length) :
    ∃ data, data.length = len ∧
      Holds (a.bump ((cls + 1) * grain)).2 (⟨(a.bump ((cls + 1) * grain)).1, data⟩ :: L) F lost := by
  have hunits : (cls + 1) * grain / grain = cls + 1 := by unfold grain; omega
  have hclass := classOf_some hlen
  have hin := h.shape.fresh_inside hl (by omega)
  obtain ⟨hmade, hoff, hmk⟩ := h.shape.left_made (by omega)
  obtain ⟨data, hread, hdata⟩ := read_ok hin len (by simp only [fresh]; omega)
  have hcls : classOf data.length = some cls := by rw [hdata, hlen]
  obtain ⟨hsmall, hext, hls⟩ := small_block (r := make a.seg a.off) hcls
  have hnarrow : (narrow (cls + 1)).toNat = cls + 1 := by
    rw [narrow, UInt32.toNat_ofNat']
    omega
  have hoff' : (a.off + narrow (cls + 1)).toNat = a.off.toNat + (cls + 1) := by
    rw [UInt32.toNat_add, hnarrow]
    omega
  refine ⟨data, hdata, ?_⟩
  simp only [bump, hunits]
  -- the units handed out are the next ones, which no block had
  have hadv := h.partition.advance h.shape hl (by omega) hoff'
  have hshape : Shape { a with off := a.off + narrow (cls + 1) } :=
    h.shape.advance (by rw [hoff']; unfold left at hl; omega)
  have hsame : SameShape { a with off := a.off + narrow (cls + 1) } { a with
      off := a.off + narrow (cls + 1)
      live := a.live + (cls + 1) * grain } := ⟨rfl, rfl, rfl, rfl, rfl, fun _ => rfl⟩
  refine ⟨hsame.shape hshape, ?_, ⟨h.lists.reached, fun cls' head hh => ?_⟩, ?_, ?_, ?_, ?_⟩
  · rw [extents_small hext]
    exact hsame.partition hadv
  · exact (h.lists.linked cls' head hh).congr fun _ _ => rfl
  · refine Blocks.cons_small ?_ hsmall ?_ fun cls' hcls' => ?_
    · exact h.blocks.of_reads (fun _ _ _ => rfl) rfl rfl (Nat.le_refl _)
    · simp only [hdata]
      exact hread
    · rw [Block.cls, hcls, Option.some.injEq] at hcls'
      rw [← hcls']
      exact hheads
  · simp only [List.map_cons, List.sum_cons, charge_small hcls, h.totals.live, grain]
    omega
  · simp only [List.map_cons, List.sum_cons, hls, h.totals.large, Nat.zero_add]
  · exact h.totals.dead

/-- Onto a fresh segment, once the one before it is full. -/
theorem Grown.holds {a' : Arena} (hg : Grown a a') (hs : Shape a) {off : UInt32}
    (hfull : off.toNat * 4 = (a.segment (a.made - 1)).length)
    (hp : Partition { a with off } (extents L F)) (hl : Lists a F) (hb : Blocks a L)
    (ht : Totals a L F lost) : Holds a' L F lost := by
  have hfullShape := hs.advance (Nat.le_of_eq hfull)
  have hgrown : Grown { a with off } a' := ⟨hg.made, hg.seg, hg.off, hg.heads, hg.large,
    hg.largeFree, hg.live, hg.dead, hg.largeLive, hg.tail, hg.old, hg.fresh, hg.segmentBytes,
    hg.made_lt⟩
  have hread : ∀ y ∈ extents L F, ∀ len, a'.read y.start len = a.read y.start len := by
    intro y hy len
    have hfit := hp.fits y hy
    have hcut := (hfullShape.cutUnits_le (y.start / 2 ^ 21)).2.2 (by omega)
    simp only at hcut
    unfold read
    rw [hg.old _ (by omega)]
  refine ⟨hg.shape hs, hgrown.partition hfull hp, ⟨?_, fun cls head hh => ?_⟩, ?_, ?_⟩
  · rw [hg.heads]; exact hl.reached
  · rw [hg.heads] at hh
    refine (hl.linked cls head hh).congr fun r hr => ?_
    have hr' := hread _ (mem_extents.mpr (.inr ⟨_, mem_chain.mp hr, rfl⟩)) 4
    rw [nextFree_eq, nextFree_eq]
    simp only [Cell.extent] at hr'
    rw [hr']
  · refine hb.of_reads (fun b hb' hs' => ?_) hg.large hg.largeFree (by rw [hg.heads])
    obtain ⟨y, hy, hstart, -⟩ := Block.extent_some hs'
    rw [← hstart]
    exact hread y (mem_extents.mpr (.inl ⟨b, hb', hy⟩)) _
  · exact ⟨by rw [hg.live]; exact ht.live, by rw [hg.largeLive]; exact ht.large,
      by rw [hg.dead]; exact ht.dead⟩

/-- The tail that is given up, as a cell. -/
def tailCell (a : Arena) : Cell := ⟨(make a.seg a.off).bits, left a - 1⟩

theorem Holds.clear (h : Holds a L F lost) (hl : 0 < left a) :
    Clear (fresh a (left a)) a L F := fun _ hy =>
  ⟨h.partition.inside h.shape hy, h.partition.fresh_apart h.shape (Nat.le_refl _) hl hy⟩

/-- Giving the tail up: it is linked, and still counted as uncut. -/
theorem abandon_ok (h : Holds a L F lost) (hl : 0 < left a) (hcls : left a ≤ a.heads.length) :
    ∃ a', a.abandon (left a) = .ok a' ∧ Frame (fresh a (left a)) a a' ∧
      a'.dead = a.dead + left a * 4 ∧ Lists a' (tailCell a :: F) := by
  have hone : left a - 1 + 1 = left a := by omega
  have hfresh : (⟨(make a.seg a.off).bits.toNat, left a - 1 + 1⟩ : Extent) = fresh a (left a) := by
    rw [hone]; rfl
  obtain ⟨a', hpush, hframe, hdead, hlists⟩ := pushFree_ok (make a.seg a.off).bits
    (left a - 1) (by rw [hfresh]; exact h.shape.fresh_inside (Nat.le_refl _) hl) (by omega)
    h.lists (by rw [hfresh]; exact h.clear hl)
  rw [hone] at hpush hdead
  rw [hfresh] at hframe
  exact ⟨a', by rw [abandon, if_pos hl]; exact hpush, hframe, hdead, hlists⟩

theorem abandon_grown (h : Holds a L F lost) (hl : 0 < left a) {a1 a2 : Arena}
    (hframe : Frame (fresh a (left a)) a a1) (hdead : a1.dead = a.dead + left a * 4)
    (hlists : Lists a1 (tailCell a :: F)) (hg : Grown a1 a2) :
    Holds a2 L (tailCell a :: F) lost := by
  have hs1 := hframe.same.shape h.shape
  obtain ⟨hmade, -, -⟩ := h.shape.left_made hl
  have hlen := (h.shape.lengths (a.made - 1) (by omega)).2.2
  have hdvd := (h.shape.lengths (a.made - 1) (by omega)).1
  have hle := h.shape.off_le
  have hleft : left a1 = left a := by
    unfold left
    rw [hframe.same.made, hframe.same.off, hframe.same.lengths]
  have hoff : (a1.off + narrow (left a)).toNat = a1.off.toNat + left a := by
    rw [UInt32.toNat_add, narrow, UInt32.toNat_ofNat', hframe.same.off]
    unfold left
    omega
  have hfresh : fresh a1 (left a) = (tailCell a).extent := by
    simp only [fresh, tailCell, Cell.extent, hframe.same.seg, hframe.same.off]
    congr 1
    omega
  have hadv := (hframe.same.partition h.partition).advance hs1 (Nat.le_of_eq hleft.symm) hl hoff
  rw [hfresh] at hadv
  refine hg.holds hs1 ?_ (hadv.perm (extents_cell L F (tailCell a)).symm) hlists
    (hframe.blocks (h.clear hl) h.blocks) ⟨?_, ?_, ?_⟩
  · rw [hoff, hframe.same.lengths, hframe.same.made, hframe.same.off]
    unfold left
    omega
  · rw [hframe.live]; exact h.totals.live
  · rw [hframe.largeLive]; exact h.totals.large
  · rw [hdead, h.totals.dead, List.map_cons, List.sum_cons]
    simp only [tailCell]
    omega

/-- What a cut comes to: a block, a refusal that changed nothing, or a refusal
after the tail was given up. -/
theorem cut_cases (p : Platform) (granted : Bool) (h : Holds a L F lost) (hlen : classOf len = some cls)
    (hcls : cls < a.heads.length) :
    (∃ r a' data G, a.cut p granted ((cls + 1) * grain) = .ok (.ok r, a') ∧ data.length = len ∧
      Holds a' (⟨r, data⟩ :: L) G lost ∧ (left a < cls + 1 → ¬ refused p granted a)) ∨
    (left a = 0 ∧ refused p granted a ∧
      ∃ full, a.cut p granted ((cls + 1) * grain) = .ok (.error full, a)) ∨
    (0 < left a ∧ left a < cls + 1 ∧ refused p granted a ∧
      ∃ full a', a.cut p granted ((cls + 1) * grain) = .ok (.error full, a') ∧
        Frame (fresh a (left a)) a a' ∧ Lists a' (tailCell a :: F)) := by
  have hclass := classOf_some hlen
  have hunits : (narrow ((cls + 1) * grain / grain)).toNat = cls + 1 := by
    unfold grain
    rw [narrow, UInt32.toNat_ofNat']
    omega
  have hcut : a.cut p granted ((cls + 1) * grain) =
      if left a < cls + 1 then
        a.abandon (left a) >>= fun a => pure (a.cutGrown p granted ((cls + 1) * grain))
      else pure (.ok (a.bump ((cls + 1) * grain)).1, (a.bump ((cls + 1) * grain)).2) := by
    simp only [cut, h.shape.room, ok_bind, hunits]
  rw [hcut]
  by_cases hroom : left a < cls + 1
  · rw [if_pos hroom]
    have hrefused : ∀ a1, SameShape a a1 → (refused p granted a1 ↔ refused p granted a) := by
      intro a1 hsame
      unfold refused
      rw [hsame.made, hsame.segmentBytes]
    -- a grown arena has room for any small block
    have hroomy : ∀ a1 a2, Grown a1 a2 → cls + 1 ≤ left a2 := by
      intro a1 a2 hg
      have hfresh := hg.fresh
      have h0 : (0 : UInt32).toNat = 0 := rfl
      unfold left
      rw [hg.made, hg.off, Nat.add_sub_cancel]
      omega
    by_cases hl : 0 < left a
    · obtain ⟨a1, hab, hframe, hdead, hlists⟩ := abandon_ok h hl (by omega)
      rw [hab, ok_bind]
      have hs1 := hframe.same.shape h.shape
      rcases grow_cases p granted a1 hs1.tail hs1.beyond with ⟨href, full, hgrow⟩ | ⟨hno, a2, hgrow, hg⟩
      · refine .inr (.inr ⟨hl, hroom, (hrefused a1 hframe.same).mp href, full, a1, ?_, hframe, hlists⟩)
        rw [cutGrown, hgrow, pure_ok]
      · have h2 := abandon_grown h hl hframe hdead hlists hg
        obtain ⟨data, hdata, h3⟩ := bump_holds h2 hlen (hroomy a1 a2 hg)
          (by rw [hg.heads, hframe.heads]; exact hcls)
        refine .inl ⟨_, _, data, _, ?_, hdata, h3, fun _ => fun href =>
          hno ((hrefused a1 hframe.same).mpr href)⟩
        rw [cutGrown, hgrow, pure_ok]
    · have hab : a.abandon (left a) = .ok a := by rw [abandon, if_neg hl]; rfl
      rw [hab, ok_bind]
      rcases grow_cases p granted a h.shape.tail h.shape.beyond with ⟨href, full, hgrow⟩ | ⟨hno, a2, hgrow, hg⟩
      · refine .inr (.inl ⟨by omega, href, full, ?_⟩)
        rw [cutGrown, hgrow, pure_ok]
      · have hfull : a.off.toNat * 4 = (a.segment (a.made - 1)).length := by
          have huncut := h.shape.uncut_eq
          have hle := h.shape.off_le
          unfold uncut at huncut
          omega
        have h2 := hg.holds h.shape hfull h.partition h.lists h.blocks h.totals
        obtain ⟨data, hdata, h3⟩ := bump_holds h2 hlen (hroomy a a2 hg) (by rw [hg.heads]; exact hcls)
        refine .inl ⟨_, _, data, _, ?_, hdata, h3, fun _ => hno⟩
        rw [cutGrown, hgrow, pure_ok]
  · rw [if_neg hroom]
    obtain ⟨data, hdata, h2⟩ := bump_holds h hlen (by omega) hcls
    exact .inl ⟨_, _, data, F, rfl, hdata, h2, fun hlt => absurd hlt hroom⟩

theorem reach_holds (h : Holds a L F lost) (cls : Nat) : Holds (a.reach cls) L F lost ∧
    SameShape a (a.reach cls) ∧ left (a.reach cls) = left a ∧
    (a.reach cls).heads[cls]? = some ((a.heads[cls]?).getD u32Max) := by
  have hlists := (reach_lists h.lists cls).1
  have hsame : SameShape a (a.reach cls) := by
    unfold reach
    split <;> exact ⟨rfl, rfl, rfl, rfl, rfl, fun _ => rfl⟩
  refine ⟨⟨hsame.shape h.shape, hsame.partition h.partition, hlists, ?_, ?_⟩, hsame, ?_, ?_⟩
  · refine h.blocks.of_reads (fun _ _ _ => ?_) ?_ ?_ ?_
    · unfold reach; split <;> rfl
    · unfold reach; split <;> rfl
    · unfold reach; split <;> rfl
    · unfold reach
      split
      · simp only [List.length_append]; omega
      · exact Nat.le_refl _
  · refine ⟨?_, ?_, ?_⟩
    · rw [← h.totals.live]; unfold reach; split <;> rfl
    · rw [← h.totals.large]; unfold reach; split <;> rfl
    · rw [← h.totals.dead]; unfold reach; split <;> rfl
  · unfold left
    rw [hsame.made, hsame.off, hsame.lengths]
  · unfold reach
    split
    · next hge =>
      rw [List.getElem?_eq_none hge, List.getElem?_append_right hge]
      exact List.getElem?_replicate_of_lt (by omega)
    · next hlt =>
      rw [List.getElem?_eq_getElem (by omega)]
      rfl

theorem Blocks.cons_large {a' : Arena} {i : UInt32} {rest : List UInt32} (h : Blocks a L)
    (hlen : classOf len = none) (hreach : a'.large.length ≤ 2 ^ 31)
    (hlt : i.toNat < 2 ^ 31) (hread : a'.read = a.read) (hheads : a'.heads = a.heads)
    (hslots : ((L.filter Block.isLarge).map (·.ref.index) ++ i.toNat :: rest.map (·.toNat)).Nodup)
    (hlarge : ∀ j, j ≠ i.toNat → j < a.large.length → a'.large[j]? = a.large[j]?)
    (hmine : a'.large[i.toNat]? = some (List.replicate len 0)) (hfree : a'.largeFree = rest)
    (hholes : ∀ j ∈ rest, j.toNat < a'.large.length ∧ j.toNat < 2 ^ 31 - 1) :
    Blocks a' (⟨⟨i ||| LARGE⟩, List.replicate len 0⟩ :: L) := by
  have hor := or_LARGE hlt
  have hidx : Ref.index ⟨i ||| LARGE⟩ = i.toNat := by
    rw [Ref.index_eq]
    simp only [hor]
    omega
  have hbig : Ref.isLarge ⟨i ||| LARGE⟩ = true := by
    rw [Ref.isLarge_iff]
    simp only [hor]
    omega
  have hb : (⟨⟨i ||| LARGE⟩, List.replicate len 0⟩ : Block).isLarge = true := by
    simp [Block.isLarge, Block.cls, hlen]
  have hperm := List.perm_middle.nodup_iff.mp hslots
  refine ⟨fun b hb' hs => ?_, fun b hb' hl => ?_, ?_, ?_, hreach, fun b hb' cls hcls => ?_⟩
  · cases hb' with
    | head => rw [hb] at hs; cases hs
    | tail _ hb' => rw [hread]; exact h.small b hb' hs
  · cases hb' with
    | head => exact ⟨hbig, by rw [hidx]; exact hmine⟩
    | tail _ hb' =>
      obtain ⟨hbl, hget⟩ := h.large b hb' hl
      refine ⟨hbl, ?_⟩
      have hmem : b.ref.index ∈ (L.filter Block.isLarge).map (·.ref.index) :=
        List.mem_map.mpr ⟨b, List.mem_filter.mpr ⟨hb', hl⟩, rfl⟩
      -- no two blocks have one slot
      have hne : b.ref.index ≠ i.toNat := fun heq => by
        rw [heq] at hmem
        exact (List.nodup_cons.mp hperm).1 (List.mem_append_left _ hmem)
      rw [hlarge _ hne (List.getElem?_eq_some_iff.mp hget).1]
      exact hget
  · rw [List.filter_cons_of_pos hb, List.map_cons, hidx, hfree]
    exact hperm
  · rw [hfree]; exact hholes
  · rw [hheads]
    cases hb' with
    | head =>
      rw [Block.cls, List.length_replicate, hlen] at hcls
      cases hcls
    | tail _ hb' => exact h.classes b hb' cls hcls

theorem allocLarge_cases (h : Holds a L F lost) (hlen : classOf len = none) :
    (∃ r a' data, a.allocLarge len = .ok (.ok r, a') ∧ data.length = len ∧
      Holds a' (⟨r, data⟩ :: L) F lost) ∨
    ∃ full, a.allocLarge len = .ok (.error full, a) := by
  have hreach := h.blocks.reach
  have hcharge : charge len = len := charge_large hlen
  -- the two ways a slot is found differ only in the table they leave
  have hgive : ∀ (i : UInt32) (large : List (List UInt8)) (rest : List UInt32),
      Blocks { a with large, largeFree := rest, live := a.live + len,
                      largeLive := a.largeLive + len } (⟨⟨i ||| LARGE⟩, List.replicate len 0⟩ :: L) →
      Holds { a with large, largeFree := rest, live := a.live + len, largeLive := a.largeLive + len }
        (⟨⟨i ||| LARGE⟩, List.replicate len 0⟩ :: L) F lost := by
    intro i large rest hb
    have hext : (⟨⟨i ||| LARGE⟩, List.replicate len 0⟩ : Block).extent = none := by
      simp [Block.extent, Block.cls, hlen]
    have hls : (⟨⟨i ||| LARGE⟩, List.replicate len 0⟩ : Block).largeSize = len := by
      simp [Block.largeSize, Block.isLarge, Block.cls, hlen]
    have hsame : SameShape a { a with large, largeFree := rest, live := a.live + len,
                                      largeLive := a.largeLive + len } :=
      ⟨rfl, rfl, rfl, rfl, rfl, fun _ => rfl⟩
    refine ⟨hsame.shape h.shape, by rw [extents_large hext]; exact hsame.partition h.partition,
      ⟨h.lists.reached, fun cls head hh => (h.lists.linked cls head hh).congr fun _ _ => rfl⟩, hb,
      ?_, ?_, h.totals.dead⟩
    · simp only [List.map_cons, List.sum_cons, List.length_replicate, hcharge, h.totals.live]
      omega
    · simp only [List.map_cons, List.sum_cons, hls, h.totals.large]
      omega
  unfold allocLarge largeSlot
  cases hfree : a.largeFree with
  | cons hole rest =>
    have hslots := h.blocks.slots
    have hholes := h.blocks.holes
    rw [hfree] at hslots hholes
    have hlt := (hholes hole (.head _)).1
    refine .inl ⟨⟨hole ||| LARGE⟩, _, List.replicate len 0, ?_, List.length_replicate,
      hgive hole (a.large.set hole.toNat (List.replicate len 0)) rest ?_⟩
    · simp only [update_ok hlt, ok_bind]
      rfl
    · refine h.blocks.cons_large hlen ?_ (by omega) rfl rfl hslots ?_ ?_ rfl ?_
      · simp only [List.length_set]; exact hreach
      · intro j hj _
        simp only [List.getElem?_set_ne (Ne.symm hj)]
      · simp only [List.getElem?_set_self hlt]
      · intro j hj
        simp only [List.length_set]
        exact hholes j (.tail _ hj)
  | nil =>
    have hnarrow : a.large.length < 2 ^ 32 → (narrow a.large.length).toNat = a.large.length := by
      intro hlt
      rw [narrow, UInt32.toNat_ofNat']
      omega
    have hmax : u32Max.toNat = 2 ^ 32 - 1 := rfl
    by_cases hbig : a.large.length < 2 ^ 31
    · have hn := hnarrow (by omega)
      have hand : narrow a.large.length &&& LARGE = 0 := (and_LARGE _).mpr (by omega)
      have hlt : (narrow a.large.length).toNat < (a.large ++ [[]]).length := by
        rw [List.length_append, hn]
        simp
      have hset : (a.large ++ [[]]).set (narrow a.large.length).toNat (List.replicate len 0) =
          a.large ++ [List.replicate len 0] := by
        rw [hn, List.set_append_right _ _ (Nat.le_refl _)]
        simp
      have hfree' : ({ a with large := a.large ++ [[]] } : Arena).largeFree = [] := hfree
      refine .inl ⟨⟨narrow a.large.length ||| LARGE⟩, _, List.replicate len 0, ?_,
        List.length_replicate, hgive (narrow a.large.length)
          (a.large ++ [List.replicate len 0]) [] ?_⟩
      · simp only [hmax, if_neg (show ¬ a.large.length > 2 ^ 32 - 1 by omega), hand, ne_eq,
          not_true_eq_false, if_false, update_ok hlt, ok_bind, hset, ← hfree]
        rfl
      · have hslots := h.blocks.slots
        rw [hfree] at hslots
        refine h.blocks.cons_large hlen ?_ (by omega) rfl rfl ?_ ?_ ?_ rfl ?_
        · simp only [List.length_append, List.length_singleton]; omega
        · rw [List.map_nil, List.append_nil] at hslots
          rw [List.map_nil]
          refine (List.perm_append_singleton _ _).nodup_iff.mpr
            (List.nodup_cons.mpr ⟨fun hmem => ?_, hslots⟩)
          obtain ⟨b, hb, hidx⟩ := List.mem_map.mp hmem
          obtain ⟨-, hget⟩ := h.blocks.large b (List.mem_filter.mp hb).1 (List.mem_filter.mp hb).2
          have := (List.getElem?_eq_some_iff.mp hget).1
          omega
        · intro j _ hjlt
          simp only [List.getElem?_append_left hjlt]
        · simp only [hn]
          exact List.getElem?_concat_length
        · intro j hj
          cases hj
    · have hn := hnarrow (by omega)
      have hand : narrow a.large.length &&& LARGE ≠ 0 := fun hand => by
        have := (and_LARGE _).mp hand
        omega
      refine .inr ⟨.large, ?_⟩
      simp only [hmax, if_neg (show ¬ a.large.length > 2 ^ 32 - 1 by omega), hand, ne_eq,
        not_false_eq_true, if_true]
      rfl

/-- The allocations that leave a tail both on a free list and uncut: a small
block that no list has, a tail too short for it, and no segment to be had. -/
def Strands (p : Platform) (granted : Bool) (a : Arena) (len : Nat) : Prop :=
  ∃ cls, classOf len = some cls ∧ (a.heads[cls]?).getD u32Max = u32Max ∧ 0 < left a ∧
    left a < cls + 1 ∧ refused p granted a

/-- What reading a live block needs of an arena; the free lists are no part of it. -/
structure Serves (a : Arena) (L : List Block) (lost : Nat) : Prop where
  shape : Shape a
  partition : ∃ F, Partition a (extents L F)
  blocks : Blocks a L
  live : a.live = (L.map fun b => charge b.data.length).sum + lost

theorem Holds.serves (h : Holds a L F lost) : Serves a L lost :=
  ⟨h.shape, ⟨F, h.partition⟩, h.blocks, h.totals.live⟩

theorem Frame.serves {a' : Arena} (hframe : Frame (fresh a (left a)) a a') (h : Holds a L F lost)
    (hl : 0 < left a) : Serves a' L lost where
  shape := hframe.same.shape h.shape
  partition := ⟨F, hframe.same.partition h.partition⟩
  blocks := hframe.blocks (h.clear hl) h.blocks
  live := hframe.live.trans h.totals.live

/-- Every allocation returns: with a block, or with a refusal that changed
nothing that is held, or, if it strands a tail, with that tail linked and every
live block as it was. -/
theorem alloc_cases (h : Holds a L F lost) (p : Platform) (granted : Bool) (len : Nat) :
    (¬ Strands p granted a len ∧ ∃ r a' data G, a.alloc p granted len = .ok (.ok r, a') ∧
      data.length = len ∧ Holds a' (⟨r, data⟩ :: L) G lost) ∨
    (¬ Strands p granted a len ∧ ∃ full a', a.alloc p granted len = .ok (.error full, a') ∧
      Holds a' L F lost) ∨
    (Strands p granted a len ∧ ∃ full a', a.alloc p granted len = .ok (.error full, a') ∧
      SameShape a a' ∧ Lists a' (tailCell a :: F) ∧ Serves a' L lost) := by
  unfold alloc
  cases hlen : classOf len with
  | none =>
    have hno : ¬ Strands p granted a len := fun ⟨cls, hcls, _⟩ => by rw [hlen] at hcls; cases hcls
    rcases allocLarge_cases h hlen with ⟨r, a', data, hal, hdata, hh⟩ | ⟨full, hal⟩
    · exact .inl ⟨hno, r, a', data, F, hal, hdata, hh⟩
    · exact .inr (.inl ⟨hno, full, a, hal, h⟩)
  | some cls =>
    -- a free block of the class is taken, and only if there is none is one cut
    obtain ⟨hr, hsame, hleft, hhead⟩ := reach_holds h cls
    simp only [index_of_getElem? hhead, ok_bind]
    by_cases hne : (a.heads[cls]?).getD u32Max = u32Max
    · have hcls := (List.getElem?_eq_some_iff.mp hhead).1
      have hrefused : refused p granted (a.reach cls) ↔ refused p granted a := by
        unfold refused
        rw [hsame.made, hsame.segmentBytes]
      rw [hne] at hhead ⊢
      simp only [ne_eq, not_true_eq_false, if_false]
      rcases cut_cases p granted hr hlen hcls with
        ⟨r, a', data, G, hcut, hdata, hh, hroom⟩ | ⟨hl, href, full, hcut⟩ |
        ⟨hl, hlt, href, full, a', hcut, hframe, hlists⟩
      · refine .inl ⟨fun ⟨cls', hcls', _, _, hlt, href⟩ => ?_, r, a', data, G, hcut, hdata, hh⟩
        rw [hlen, Option.some.injEq] at hcls'
        exact hroom (by omega) (hrefused.mpr href)
      · refine .inr (.inl ⟨fun ⟨_, _, _, hpos, _⟩ => ?_, full, _, hcut, hr⟩)
        omega
      · have htail : tailCell (a.reach cls) = tailCell a := by
          simp only [tailCell, hleft, hsame.seg, hsame.off]
        rw [htail] at hlists
        refine .inr (.inr ⟨⟨cls, hlen, hne, by omega, by omega, hrefused.mp href⟩, full, a', hcut, ?_,
          hlists, hframe.serves hr hl⟩)
        have hs := hframe.same
        exact ⟨hs.made.trans hsame.made, hs.seg.trans hsame.seg, hs.off.trans hsame.off,
          hs.segmentBytes.trans hsame.segmentBytes, hs.tail.trans hsame.tail,
          fun s => (hs.lengths s).trans (hsame.lengths s)⟩
    · have hno : ¬ Strands p granted a len := fun ⟨cls', hcls', hmax, _⟩ => by
        rw [hlen, Option.some.injEq] at hcls'
        exact hne (hcls' ▸ hmax)
      obtain ⟨data, G, a', htake, hdata, hh⟩ := takeFree_holds hr hlen hhead hne
      refine .inl ⟨hno, _, a', data, G, ?_, hdata, hh⟩
      simp only [ne_eq, hne, not_false_eq_true, if_true, htake, ok_bind]
      rfl

end alloc

/-! ## Giving back, reading and writing -/

section blocks
variable {a : Arena} {L : List Block} {F : List Cell} {lost : Nat} {b : Block}

theorem Block.small_cls (h : b.isLarge = false) : ∃ cls, classOf b.data.length = some cls ∧
    b.extent = some ⟨b.ref.bits.toNat, cls + 1⟩ := by
  cases hc : classOf b.data.length with
  | none => rw [Block.isLarge_iff.mpr hc] at h; cases h
  | some cls => exact ⟨cls, rfl, (small_block (r := b.ref) hc).2.1⟩

theorem Serves.ref_isLarge (h : Serves a L lost) (hb : b ∈ L) : b.ref.isLarge = b.isLarge := by
  cases hl : b.isLarge with
  | true => exact (h.blocks.large b hb hl).1
  | false =>
    obtain ⟨cls, -, hext⟩ := Block.small_cls hl
    obtain ⟨F, hpartition⟩ := h.partition
    have hlt := hpartition.start_lt h.shape (mem_extents.mpr (.inl ⟨b, hb, hext⟩))
    rw [Bool.eq_false_iff, ne_eq, Ref.isLarge_iff]
    simp only at hlt
    omega

theorem Serves.get_ok (h : Serves a L lost) (hb : b ∈ L) : a.get b.ref b.data.length = .ok b.data := by
  have href := h.ref_isLarge hb
  cases hl : b.isLarge with
  | true =>
    rw [get_large (href.trans hl)]
    exact index_of_getElem? (h.blocks.large b hb hl).2
  | false =>
    rw [get_small (href.trans hl)]
    exact h.blocks.small b hb hl

theorem Serves.peek_ok (h : Serves a L lost) (hb : b ∈ L) (len : Nat) :
    ∃ rest, a.peek b.ref len = .ok ((b.data ++ rest).take len) := by
  have href := h.ref_isLarge hb
  cases hl : b.isLarge with
  | true =>
    refine ⟨[], ?_⟩
    rw [peek, if_pos (href.trans hl), index_of_getElem? (h.blocks.large b hb hl).2, ok_bind,
      slice_ok (Nat.zero_le _) (Nat.min_le_right _ _), List.append_nil, List.drop_zero, Nat.sub_zero]
    exact congrArg Except.ok List.take_eq_take_min.symm
  | false =>
    have hread := h.blocks.small b hb hl
    obtain ⟨⟨-, hle⟩, hdata⟩ := slice_eq_ok.mp hread
    have hnot : ¬ b.ref.isLarge = true := by rw [href, hl]; exact Bool.noConfusion
    refine ⟨((a.segment (b.ref.bits.toNat / 2 ^ 21)).drop (b.ref.bits.toNat % 2 ^ 21 * 4)).drop
      b.data.length, ?_⟩
    rw [Nat.add_sub_cancel_left] at hdata
    rw [peek, if_neg hnot, place_eq]
    simp only
    rw [slice_ok (by omega) (Nat.min_le_right _ _)]
    -- the block, and after it what else is in the segment
    have htake : b.data ++ ((a.segment (b.ref.bits.toNat / 2 ^ 21)).drop
        (b.ref.bits.toNat % 2 ^ 21 * 4)).drop b.data.length =
        (a.segment (b.ref.bits.toNat / 2 ^ 21)).drop (b.ref.bits.toNat % 2 ^ 21 * 4) := by
      conv_lhs => rw [hdata]
      rw [List.length_take, List.length_drop]
      rw [Nat.min_eq_left (by omega)]
      exact List.take_append_drop _ _
    rw [htake]
    congr 1
    apply List.ext_getElem?
    intro n
    simp only [List.getElem?_take, List.getElem?_drop]
    split_ifs with h1 h2 h2
    · rfl
    · omega
    · rw [List.getElem?_eq_none (by omega)]
    · rfl

theorem Holds.ref_isLarge (h : Holds a L F lost) (hb : b ∈ L) : b.ref.isLarge = b.isLarge :=
  h.serves.ref_isLarge hb

theorem get_ok (h : Holds a L F lost) (hb : b ∈ L) : a.get b.ref b.data.length = .ok b.data :=
  h.serves.get_ok hb

theorem Holds.clear_of_block (h : Holds a (b :: L) F lost) {x : Extent} (hx : b.extent = some x) :
    Inside a x ∧ Clear x a L F := by
  have hp := h.partition
  rw [extents_small hx] at hp
  exact ⟨hp.inside h.shape (.head _), fun y hy =>
    ⟨hp.inside h.shape (.tail _ hy), (List.pairwise_cons.mp hp.apart).1 y hy⟩⟩

theorem Blocks.tail (h : Blocks a (b :: L)) : Blocks a L where
  small := fun c hc => h.small c (.tail _ hc)
  large := fun c hc => h.large c (.tail _ hc)
  slots := by
    refine h.slots.sublist (List.Sublist.append_right (List.Sublist.map _ ?_) _)
    exact List.Sublist.filter _ (List.sublist_cons_self b L)
  holes := h.holes
  reach := h.reach
  classes := fun c hc => h.classes c (.tail _ hc)

theorem Holds.large_own (h : Holds a (b :: L) F lost) (hl : b.isLarge = true) :
    b.ref.index < a.large.length ∧ a.large[b.ref.index]? = some b.data ∧
      (∀ c ∈ L, c.isLarge = true → c.ref.index ≠ b.ref.index) ∧
      ∀ i ∈ a.largeFree, i.toNat ≠ b.ref.index := by
  obtain ⟨-, hget⟩ := h.blocks.large b (.head _) hl
  have hslots := h.blocks.slots
  rw [List.filter_cons_of_pos hl, List.map_cons, List.cons_append] at hslots
  have hnot := (List.nodup_cons.mp hslots).1
  refine ⟨(List.getElem?_eq_some_iff.mp hget).1, hget, fun c hc hcl heq => hnot ?_,
    fun i hi heq => hnot ?_⟩
  · exact List.mem_append_left _ (List.mem_map.mpr ⟨c, List.mem_filter.mpr ⟨hc, hcl⟩, heq⟩)
  · exact List.mem_append_right _ (List.mem_map.mpr ⟨i, hi, heq⟩)

/-- A freed block goes on the list of its class, or its slot becomes a hole. -/
theorem free_ok (h : Holds a (b :: L) F lost) (hne : b.ref ≠ Ref.NONE) :
    ∃ a' G, a.free b.ref b.data.length = .ok a' ∧ Holds a' L G lost := by
  obtain ⟨hlive, hrest⟩ := h.totals.cons
  have hnone : ¬ b.ref.isNone = true := fun hn => hne ((Ref.isNone_iff _).mp hn)
  rw [free, if_neg hnone]
  cases hl : b.isLarge with
  | false =>
    obtain ⟨cls, hcls, hext⟩ := Block.small_cls hl
    obtain ⟨hin, hclear⟩ := h.clear_of_block hext
    have hls : b.largeSize = 0 := by simp [Block.largeSize, hl]
    rw [charge_small hcls] at hlive hrest
    let a1 : Arena := { a with live := a.live - (cls + 1) * 4 }
    have hlists : Lists a1 F :=
      ⟨h.lists.reached, fun c head hh => (h.lists.linked c head hh).congr fun _ _ => rfl⟩
    obtain ⟨a', hpush, hframe, hdead, hlists'⟩ := pushFree_ok (a := a1) (L := L) b.ref.bits cls hin
      (h.blocks.classes b (.head _) cls hcls) hlists hclear
    have hsame : SameShape a a' := ⟨hframe.same.made, hframe.same.seg, hframe.same.off,
      hframe.same.segmentBytes, hframe.same.tail, hframe.same.lengths⟩
    have hblocks : Blocks a1 L := h.blocks.tail.of_reads (fun _ _ _ => rfl) rfl rfl (Nat.le_refl _)
    have hlarge := h.totals.large
    rw [List.map_cons, List.sum_cons, hls, Nat.zero_add] at hlarge
    refine ⟨a', ⟨b.ref.bits, cls⟩ :: F, ?_, hsame.shape h.shape, ?_, hlists',
      hframe.blocks hclear hblocks, ?_, ?_, ?_⟩
    · simp only [hcls, grain, minus_ok hlive, ok_bind]
      exact hpush
    · have hpart := h.partition
      rw [extents_small hext] at hpart
      exact (hsame.partition hpart).perm (extents_cell L F ⟨b.ref.bits, cls⟩).symm
    · rw [hframe.live]
      exact hrest
    · rw [hframe.largeLive]
      exact hlarge
    · rw [hdead, List.map_cons, List.sum_cons]
      have := h.totals.dead
      simp only [a1]
      omega
  | true =>
    have hcls := Block.isLarge_iff.mp hl
    have hcharge : charge b.data.length = b.data.length := charge_large hcls
    obtain ⟨hext, hls⟩ := large_block hcls
    obtain ⟨hlt, hget, hothers, hholes⟩ := h.large_own hl
    have hlarge := h.totals.large
    rw [List.map_cons, List.sum_cons, hls] at hlarge
    rw [hcharge] at hlive hrest
    have hidx : (b.ref.bits &&& ~~~LARGE).toNat = b.ref.index := rfl
    have hsame : SameShape a { a with
        live := a.live - b.data.length
        largeLive := a.largeLive - b.data.length
        large := a.large.set b.ref.index []
        largeFree := (b.ref.bits &&& ~~~LARGE) :: a.largeFree } :=
      ⟨rfl, rfl, rfl, rfl, rfl, fun _ => rfl⟩
    refine ⟨_, F, ?_, hsame.shape h.shape, ?_, ⟨h.lists.reached, fun c head hh =>
      (h.lists.linked c head hh).congr fun _ _ => rfl⟩, ⟨fun c hc hs => ?_, fun c hc hcl => ?_, ?_,
      ?_, ?_, h.blocks.tail.classes⟩, ⟨hrest, ?_, h.totals.dead⟩⟩
    · simp only [hcls, index_of_getElem? hget, ok_bind, minus_ok hlive,
        minus_ok (show b.data.length ≤ a.largeLive by omega), update_ok hlt]
      rfl
    · have hpart := h.partition
      rw [extents_large hext] at hpart
      exact hsame.partition hpart
    · exact h.blocks.small c (.tail _ hc) hs
    · obtain ⟨hcbig, hcget⟩ := h.blocks.large c (.tail _ hc) hcl
      refine ⟨hcbig, ?_⟩
      simp only
      rw [List.getElem?_set_ne (Ne.symm (hothers c hc hcl))]
      exact hcget
    · have hslots := h.blocks.slots
      rw [List.filter_cons_of_pos hl, List.map_cons, List.cons_append] at hslots
      simp only [List.map_cons, hidx]
      exact List.perm_middle.nodup_iff.mpr hslots
    · intro i hi
      simp only [List.length_set]
      cases hi with
      | head =>
        refine ⟨by rw [hidx]; exact hlt, ?_⟩
        -- only `NONE` has the last index
        have hbig := (Ref.isLarge_iff _).mp (h.blocks.large b (.head _) hl).1
        have hlt32 := b.ref.bits.toNat_lt
        have hmax : u32Max.toNat = 2 ^ 32 - 1 := rfl
        have hnot : b.ref.bits.toNat ≠ u32Max.toNat := fun heq =>
          hne (Ref.ext (UInt32.toNat_inj.mp heq))
        rw [hidx, Ref.index_eq]
        omega
      | tail _ hi => exact h.blocks.holes i hi
    · simp only [List.length_set]
      exact h.blocks.reach
    · simp only
      omega

/-- `NONE` is not freed: what it held stays charged. -/
theorem free_none (h : Holds a (b :: L) F lost) (hb : b.ref = Ref.NONE) :
    a.free b.ref b.data.length = .ok a ∧ Holds a L F (lost + b.data.length) := by
  have hbig : b.ref.isLarge = true := by rw [hb]; decide
  have hl : b.isLarge = true := by rw [← h.ref_isLarge (.head _)]; exact hbig
  have hcls := Block.isLarge_iff.mp hl
  obtain ⟨hext, hls⟩ := large_block hcls
  have hcharge : charge b.data.length = b.data.length := charge_large hcls
  have hlive := h.totals.live
  have hlarge := h.totals.large
  rw [List.map_cons, List.sum_cons, hcharge] at hlive
  rw [List.map_cons, List.sum_cons, hls] at hlarge
  refine ⟨by rw [free, if_pos ((Ref.isNone_iff _).mpr hb)]; rfl, h.shape, ?_, h.lists,
    h.blocks.tail, ⟨by omega, by omega, h.totals.dead⟩⟩
  have hpart := h.partition
  rwa [extents_large hext] at hpart

theorem getMut_ok (h : Holds a (b :: L) F lost) (edit : List UInt8 → Exec (List UInt8))
    {data : List UInt8} (hedit : edit b.data = .ok data) (hlen : data.length = b.data.length) :
    ∃ a', a.getMut b.ref b.data.length edit = .ok a' ∧ Holds a' (⟨b.ref, data⟩ :: L) F lost := by
  have href := h.ref_isLarge (.head _)
  have hcharge : charge data.length = charge b.data.length := by rw [hlen]
  have hsize : (⟨b.ref, data⟩ : Block).largeSize = b.largeSize := by
    simp [Block.largeSize, Block.isLarge, Block.cls, hlen]
  have hext : (⟨b.ref, data⟩ : Block).extent = b.extent := by
    simp [Block.extent, Block.cls, hlen]
  have hbl : (⟨b.ref, data⟩ : Block).isLarge = b.isLarge := by
    simp [Block.isLarge, Block.cls, hlen]
  have hE : extents (⟨b.ref, data⟩ :: L) F = extents (b :: L) F := by
    simp only [extents, List.filterMap_cons, hext]
  -- the block is as large as it was, and so the counts stay
  have htot : ∀ a', a'.live = a.live → a'.largeLive = a.largeLive → a'.dead = a.dead →
      Totals a' (⟨b.ref, data⟩ :: L) F lost := by
    intro a' h1 h2 h3
    have hl := h.totals.live
    have hg := h.totals.large
    rw [List.map_cons, List.sum_cons] at hl hg
    exact ⟨by rw [h1, List.map_cons, List.sum_cons, hcharge]; exact hl,
      by rw [h2, List.map_cons, List.sum_cons, hsize]; exact hg, by rw [h3]; exact h.totals.dead⟩
  cases hl : b.isLarge with
  | false =>
    -- in a segment: what is written is inside the block, and the lists are outside of it
    obtain ⟨cls, hcls, hx⟩ := Block.small_cls hl
    obtain ⟨hin, hclear⟩ := h.clear_of_block hx
    obtain ⟨a', hw, hframe, hheads, hdead, hread⟩ := write_frame hin data
      (by rw [hlen]; exact (classOf_some hcls).2.1)
    refine ⟨a', ?_, hframe.same.shape h.shape, ?_, ⟨?_, fun c head hh => ?_⟩, ?_,
      htot a' hframe.live hframe.largeLive hdead⟩
    · rw [getMut_small (href.trans hl), h.blocks.small b (.head _) hl, ok_bind, hedit, ok_bind]
      exact hw
    · rw [hE]
      exact hframe.same.partition h.partition
    · rw [hheads]
      exact h.lists.reached
    · rw [hheads] at hh
      exact hframe.linked hclear (h.lists.linked c head hh)
    · refine (hframe.blocks hclear h.blocks.tail).cons_small (hbl.trans hl) hread fun c hc => ?_
      rw [hheads]
      rw [Block.cls, hlen] at hc
      exact h.blocks.classes b (.head _) c hc
  | true =>
    -- of its own: only its slot of the table changes
    obtain ⟨hlt, hget, hothers, -⟩ := h.large_own hl
    have hsame : SameShape a { a with large := a.large.set b.ref.index data } :=
      ⟨rfl, rfl, rfl, rfl, rfl, fun _ => rfl⟩
    refine ⟨{ a with large := a.large.set b.ref.index data }, ?_, hsame.shape h.shape, ?_,
      ⟨h.lists.reached, fun c head hh => (h.lists.linked c head hh).congr fun _ _ => rfl⟩,
      ⟨fun c hc hs => ?_, fun c hc hcl => ?_, ?_, ?_, ?_, fun c hc cls hcls => ?_⟩,
      htot _ rfl rfl rfl⟩
    · rw [getMut, if_pos (href.trans hl)]
      simp only [index_of_getElem? hget, ok_bind, hedit, update_ok hlt]
      rfl
    · rw [hE]
      exact hsame.partition h.partition
    · cases hc with
      | head => rw [hbl, hl] at hs; cases hs
      | tail _ hc => exact h.blocks.small c (.tail _ hc) hs
    · cases hc with
      | head => exact ⟨href.trans hl, by simp only [List.getElem?_set_self hlt]⟩
      | tail _ hc =>
        obtain ⟨hcbig, hcget⟩ := h.blocks.large c (.tail _ hc) hcl
        refine ⟨hcbig, ?_⟩
        simp only
        rw [List.getElem?_set_ne (Ne.symm (hothers c hc hcl))]
        exact hcget
    · have hslots := h.blocks.slots
      rw [List.filter_cons_of_pos hl] at hslots
      rw [List.filter_cons_of_pos (hbl.trans hl)]
      exact hslots
    · simp only [List.length_set]
      exact h.blocks.holes
    · simp only [List.length_set]
      exact h.blocks.reach
    · cases hc with
      | head =>
        rw [Block.cls, hlen] at hcls
        exact h.blocks.classes b (.head _) cls hcls
      | tail _ hc => exact h.blocks.classes c (.tail _ hc) cls hcls

theorem getMut_error (h : Holds a (b :: L) F lost) (edit : List UInt8 → Exec (List UInt8)) {e : Panic}
    (hedit : edit b.data = .error e) : a.getMut b.ref b.data.length edit = .error e := by
  have href := h.ref_isLarge (.head _)
  cases hl : b.isLarge with
  | false =>
    rw [getMut_small (href.trans hl), h.blocks.small b (.head _) hl, ok_bind, hedit]
    rfl
  | true =>
    obtain ⟨-, hget⟩ := h.blocks.large b (.head _) hl
    rw [getMut, if_pos (href.trans hl), index_of_getElem? hget, ok_bind, hedit]
    rfl

end blocks
/-! ## Slots for oversized blocks -/

section slots
variable {a a' : Arena} {L : List Block} {F : List Cell} {lost len : Nat} {p : Platform} {granted : Bool}

theorem getMut_large {at_ : Ref} {edit : List UInt8 → Exec (List UInt8)}
    (h : a.getMut at_ len edit = .ok a') : a'.large.length = a.large.length := by
  rw [getMut] at h
  split at h
  · obtain ⟨block, -, h⟩ := bind_ok_iff.mp h
    obtain ⟨block', -, h⟩ := bind_ok_iff.mp h
    obtain ⟨large, hlarge, h⟩ := bind_ok_iff.mp h
    obtain ⟨-, rfl⟩ := update_eq_ok.mp hlarge
    cases h
    exact List.length_set
  · obtain ⟨bytes, -, h⟩ := bind_ok_iff.mp h
    obtain ⟨bytes', -, h⟩ := bind_ok_iff.mp h
    obtain ⟨bytes'', -, h⟩ := bind_ok_iff.mp h
    cases h
    simp

theorem pushFree_large {at_ : Ref} (h : a.pushFree at_ len = .ok a') : a'.large = a.large := by
  rw [pushFree] at h
  obtain ⟨cls, -, h⟩ := bind_ok_iff.mp h
  obtain ⟨head, -, h⟩ := bind_ok_iff.mp h
  obtain ⟨a₁, hset, h⟩ := bind_ok_iff.mp h
  obtain ⟨heads, -, h⟩ := bind_ok_iff.mp h
  rw [setNextFree] at hset
  obtain ⟨bytes, -, hset⟩ := bind_ok_iff.mp hset
  cases hset
  cases h
  exact setSegment_large ..

theorem free_large {at_ : Ref} (h : a.free at_ len = .ok a') : a'.large.length = a.large.length := by
  rw [free] at h
  split at h
  · cases h
    rfl
  · split at h
    · obtain ⟨held, -, h⟩ := bind_ok_iff.mp h
      obtain ⟨live, -, h⟩ := bind_ok_iff.mp h
      obtain ⟨largeLive, -, h⟩ := bind_ok_iff.mp h
      obtain ⟨large, hlarge, h⟩ := bind_ok_iff.mp h
      obtain ⟨-, rfl⟩ := update_eq_ok.mp hlarge
      cases h
      exact List.length_set
    · obtain ⟨live, -, h⟩ := bind_ok_iff.mp h
      rw [pushFree_large h]

theorem grow_large (h : a.grow p granted = .ok a') : a'.large = a.large := by
  rw [grow] at h
  split at h
  · cases h
  · split at h
    · cases h
    · cases h
      exact push_large ..

theorem cut_large {r : Except Full Ref} {rounded : Nat} (h : a.cut p granted rounded = .ok (r, a')) :
    a'.large = a.large := by
  rw [cut] at h
  obtain ⟨room, -, h⟩ := bind_ok_iff.mp h
  split at h
  · obtain ⟨a₁, habandon, h⟩ := bind_ok_iff.mp h
    have hlarge : a₁.large = a.large := by
      rw [abandon] at habandon
      split at habandon
      · exact pushFree_large habandon
      · cases habandon
        rfl
    rw [cutGrown] at h
    cases hgrow : a₁.grow p granted with
    | error full =>
      rw [hgrow] at h
      cases h
      exact hlarge
    | ok a₂ =>
      rw [hgrow] at h
      cases h
      exact (grow_large hgrow).trans hlarge
  · cases h
    rfl

theorem reach_large (a : Arena) (cls : Nat) : (a.reach cls).large = a.large := by
  rw [reach]
  split <;> rfl

theorem alloc_small_large {cls : Nat} (hcls : classOf len = some cls) {r : Except Full Ref}
    (h : a.alloc p granted len = .ok (r, a')) : a'.large = a.large := by
  rw [alloc, hcls] at h
  simp only at h
  obtain ⟨head, -, h⟩ := bind_ok_iff.mp h
  rw [← reach_large a cls]
  split at h
  · obtain ⟨⟨at_, a₁⟩, htake, h⟩ := bind_ok_iff.mp h
    cases h
    rw [takeFree] at htake
    obtain ⟨next, -, htake⟩ := bind_ok_iff.mp htake
    obtain ⟨heads, -, htake⟩ := bind_ok_iff.mp htake
    obtain ⟨dead, -, htake⟩ := bind_ok_iff.mp htake
    cases htake
    rfl
  · exact cut_large h

theorem alloc_refused_large {full : Full} (h : a.alloc p granted len = .ok (.error full, a')) :
    a'.large = a.large := by
  cases hcls : classOf len with
  | some cls => exact alloc_small_large hcls h
  | none =>
    rw [alloc, hcls] at h
    simp only at h
    rw [allocLarge] at h
    cases hslot : a.largeSlot with
    | error full =>
      rw [hslot] at h
      cases h
      rfl
    | ok slot =>
      rw [hslot] at h
      obtain ⟨large, -, h⟩ := bind_ok_iff.mp h
      cases h

/-- Where every slot is made the last one is not given again, and there are no more. -/
theorem Holds.alloc_spent (h : Holds a L F lost) (hspent : a.large.length = 2 ^ 31) {new : Ref}
    (halloc : a.alloc p granted len = .ok (.ok new, a')) : new ≠ Ref.NONE ∧ a'.large.length = 2 ^ 31 := by
  cases hcls : classOf len with
  | some cls =>
    refine ⟨?_, by rw [alloc_small_large hcls halloc, hspent]⟩
    obtain ⟨-, r, a₁, data, G, halloc', hdata, hholds⟩ | ⟨-, full, a₁, halloc', -⟩ | ⟨-, full, a₁, halloc', -⟩ :=
      alloc_cases h p granted len
    · rw [halloc] at halloc'
      cases halloc'
      have hsmall : new.isLarge = false := by
        rw [hholds.ref_isLarge List.mem_cons_self, Block.isLarge, Block.cls, hdata, hcls]
        rfl
      rintro rfl
      exact absurd hsmall (by decide)
    · rw [halloc] at halloc'
      cases halloc'
    · rw [halloc] at halloc'
      cases halloc'
  | none =>
    rw [alloc, hcls] at halloc
    simp only at halloc
    rw [allocLarge, largeSlot] at halloc
    cases hfree : a.largeFree with
    | cons hole rest =>
      rw [hfree] at halloc
      obtain ⟨large, hlarge, halloc⟩ := bind_ok_iff.mp halloc
      obtain ⟨-, rfl⟩ := update_eq_ok.mp hlarge
      cases halloc
      -- a hole is below the sentinel's slot, which is never freed
      obtain ⟨hlt, hhole⟩ := h.blocks.holes hole (by rw [hfree]; exact List.mem_cons_self)
      refine ⟨?_, by rw [List.length_set, hspent]⟩
      intro hnone
      have hbits := congrArg (fun r : Ref => r.bits.toNat) hnone
      have hmax : Ref.NONE.bits.toNat = 2 ^ 32 - 1 := rfl
      simp only [or_LARGE (show hole.toNat < 2 ^ 31 by omega), hmax] at hbits
      omega
    | nil =>
      have hn : (narrow a.large.length).toNat = 2 ^ 31 := by
        rw [narrow, UInt32.toNat_ofNat', hspent]
        rfl
      -- and there is no slot past the last
      have hand : narrow a.large.length &&& LARGE ≠ 0 := by
        intro hand
        have hlt := (and_LARGE _).mp hand
        omega
      rw [hfree] at halloc
      simp only [hand, ne_eq, not_false_eq_true, if_true, ite_self] at halloc
      cases halloc

end slots
end Rugo.Arena
