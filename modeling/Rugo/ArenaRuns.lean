import Mathlib.Data.List.Nodup
import Mathlib.Data.List.Pairwise
import Rugo.Lib.Runs
import Rugo.ArenaSteps

/- Runs of the arena: any sequence of allocations, frees of live blocks with
   their own lengths, and writes to live blocks, with the operating system
   granting or refusing each segment as it likes. A `World` is the arena and the
   blocks handed out and not yet freed, with the bytes each was last given.

     1. `sound_iff`: the free lists, the uncut tail and the live blocks stay
        apart throughout exactly when no allocation strands a tail: gives it to
        a free list, is refused the segment that would replace it, and goes on
        cutting from it. `stranded_run` is such a run.
     2. `exact`: in a run whose allocations all succeed every byte has one
        owner, every block reads back, and the totals add up. -/
namespace Rugo.Arena
open Exec Words Runs

/-! ## The free lists as they read -/

/-- The `n`th block reached by following the links from `head`. -/
def follow (a : Arena) : UInt32 → Nat → Option UInt32
  | head, 0 => if head = u32Max then none else some head
  | head, n + 1 =>
    if head = u32Max then none
    else match a.nextFree ⟨head⟩ with
      | .ok next => follow a next n
      | .error _ => none

/-- The `n`th block of a class's free list. -/
def nth (a : Arena) (cls n : Nat) : Option UInt32 :=
  match a.heads[cls]? with
  | some head => follow a head n
  | none => none

theorem Linked.follow {a : Arena} {head : UInt32} {rs : List UInt32} (h : Linked a head rs)
    (hrs : ∀ r ∈ rs, r ≠ u32Max) (n : Nat) : Arena.follow a head n = rs[n]? := by
  induction rs generalizing head n with
  | nil =>
    have hhead : head = u32Max := h
    cases n <;> simp [Arena.follow, hhead]
  | cons r rs ih =>
    obtain ⟨rfl, next, hnext, hrest⟩ := h
    have hne := hrs head (.head _)
    cases n with
    | zero => simp [Arena.follow, hne]
    | succ n =>
      rw [Arena.follow, if_neg hne, hnext]
      exact ih hrest (fun r hr => hrs r (.tail _ hr)) n

section holds
variable {a : Arena} {L : List Block} {F : List Cell} {lost : Nat}

theorem Holds.starts (h : Holds a L F lost) : (F.map Cell.at_).Nodup := by
  have hcells := (List.pairwise_append.mp h.partition.apart).2.1
  rw [List.pairwise_map] at hcells
  refine List.pairwise_map.mpr (hcells.imp fun {c d} hap heq => ?_)
  rcases hap with hlt | hlt <;> simp only [Cell.extent, heq] at hlt <;> omega

theorem Holds.cell_ne (h : Holds a L F lost) {c : Cell} (hc : c ∈ F) : c.at_ ≠ u32Max := by
  intro heq
  have hlt := h.partition.start_lt h.shape (mem_extents.mpr (.inr ⟨c, hc, rfl⟩))
  simp only [Cell.extent, heq] at hlt
  exact absurd hlt (by decide)

theorem Holds.chain_nodup (h : Holds a L F lost) (cls : Nat) : (chain F cls).Nodup :=
  h.starts.sublist (List.filter_sublist.map _)

theorem Holds.nth (h : Holds a L F lost) (cls n : Nat) :
    Arena.nth a cls n = (chain F cls)[n]? := by
  unfold Arena.nth
  cases hhead : a.heads[cls]? with
  | some head =>
    exact (h.lists.linked cls head hhead).follow (fun r hr => h.cell_ne (mem_chain.mp hr)) n
  | none =>
    have hge := List.getElem?_eq_none_iff.mp hhead
    have hnil : chain F cls = [] := by
      rw [List.eq_nil_iff_forall_not_mem]
      intro r hr
      have := h.lists.reached _ (mem_chain.mp hr)
      simp only at this
      omega
    simp [hnil]

theorem Holds.mem_of_nth (h : Holds a L F lost) {cls n : Nat} {r : UInt32}
    (hn : Arena.nth a cls n = some r) : ⟨r, cls⟩ ∈ F := by
  rw [h.nth] at hn
  exact mem_chain.mp (List.mem_of_getElem? hn)

/-- No block is on the lists twice. -/
theorem Holds.nth_inj (h : Holds a L F lost) {cls cls' n n' : Nat} {r : UInt32}
    (hn : Arena.nth a cls n = some r) (hn' : Arena.nth a cls' n' = some r) :
    cls = cls' ∧ n = n' := by
  have hcell := List.inj_on_of_nodup_map h.starts (h.mem_of_nth hn) (h.mem_of_nth hn') rfl
  obtain ⟨-, hcls⟩ := Cell.mk.inj hcell
  refine ⟨hcls, ?_⟩
  rw [h.nth] at hn hn'
  rw [← hcls] at hn'
  have hlt := (List.getElem?_eq_some_iff.mp hn).1
  exact (List.getElem?_inj hlt (h.chain_nodup cls)).mp (hn.trans hn'.symm)

theorem Holds.cells_apart (h : Holds a L F lost) {c d : Cell} (hc : c ∈ F) (hd : d ∈ F)
    (hne : c ≠ d) : c.extent.Apart d.extent := by
  have hcells := (List.pairwise_append.mp h.partition.apart).2.1
  rw [List.pairwise_map] at hcells
  have : Std.Symm fun c d : Cell => c.extent.Apart d.extent := ⟨fun _ _ hap => hap.symm⟩
  exact hcells.forall hc hd hne

theorem Holds.blocks_apart (h : Holds a L F lost) {b c : Block} (hb : b ∈ L) (hc : c ∈ L)
    (hne : b ≠ c) {x y : Extent} (hx : b.extent = some x) (hy : c.extent = some y) : x.Apart y := by
  have hblocks := (List.pairwise_append.mp h.partition.apart).1
  rw [List.pairwise_filterMap] at hblocks
  have : Std.Symm fun b c : Block => ∀ x, b.extent = some x → ∀ y, c.extent = some y → x.Apart y :=
    ⟨fun _ _ hap x hx y hy => (hap y hy x hx).symm⟩
  exact hblocks.forall hb hc hne x hx y hy

theorem Holds.block_cell_apart (h : Holds a L F lost) {b : Block} {c : Cell} (hb : b ∈ L)
    (hc : c ∈ F) {x : Extent} (hx : b.extent = some x) : x.Apart c.extent :=
  (List.pairwise_append.mp h.partition.apart).2.2 x (List.mem_filterMap.mpr ⟨b, hb, hx⟩) _
    (List.mem_map.mpr ⟨c, hc, rfl⟩)

end holds

/-! ## Runs -/

/-- An arena and the blocks handed out and not yet freed. -/
structure World where
  arena : Arena
  live : List Block

/-- What is asked of the arena: a length, with the operating system's answer
should a segment be needed; a live block given back; a live block written. -/
inductive Event where
  | alloc (len : Nat) (granted : Bool)
  | free (b : Block)
  | write (b : Block) (bytes : List UInt8)

def World.new : World := ⟨Arena.new, []⟩

inductive Step (p : Platform) : World → Event → World → Prop
  | alloc {a a' L len granted r data} : a.alloc p granted len = .ok (.ok r, a') →
      a'.get r len = .ok data → Step p ⟨a, L⟩ (.alloc len granted) ⟨a', ⟨r, data⟩ :: L⟩
  | refused {a a' L len granted full} : a.alloc p granted len = .ok (.error full, a') →
      Step p ⟨a, L⟩ (.alloc len granted) ⟨a', L⟩
  | free {a a' L b} : b ∈ L → a.free b.ref b.data.length = .ok a' →
      Step p ⟨a, L⟩ (.free b) ⟨a', L.erase b⟩
  | write {a a' L b bytes} : b ∈ L → bytes.length = b.data.length →
      a.getMut b.ref b.data.length (fun _ => .ok bytes) = .ok a' →
      Step p ⟨a, L⟩ (.write b bytes) ⟨a', ⟨b.ref, bytes⟩ :: L.erase b⟩

/-- Two live references share a byte. -/
def Overlap (b c : Block) : Prop :=
  match b.extent, c.extent with
  | some x, some y => ¬ x.Apart y
  | none, none => b.ref.index = c.ref.index
  | _, _ => False

/-- The free lists, the uncut tail and the live blocks are apart. -/
structure Sound (w : World) : Prop where
  once : ∀ cls cls' n n' r, nth w.arena cls n = some r → nth w.arena cls' n' = some r →
    cls = cls' ∧ n = n'
  uncut : ∀ cls n r, nth w.arena cls n = some r → 0 < left w.arena →
    (fresh w.arena (left w.arena)).Apart ⟨r.toNat, cls + 1⟩
  live : ∀ cls n r, nth w.arena cls n = some r → ∀ b ∈ w.live, ∀ x, b.extent = some x →
    x.Apart ⟨r.toNat, cls + 1⟩
  apart : w.live.Pairwise fun b c => ¬ Overlap b c

def Inv (w : World) : Prop := ∃ F lost, Holds w.arena w.live F lost

/-- The event does not strand a tail. -/
def Keeps (p : Platform) (w : World) : Event → Prop
  | .alloc len granted => ¬ Strands p granted w.arena len
  | _ => True

theorem holds_new : Holds Arena.new [] [] 0 := by
  have hseg : ∀ s, Arena.new.segment s = [] := by
    intro s
    unfold Arena.segment Arena.new
    split
    · exact Vector.getElem_replicate _
    · rfl
  have hcut : ∀ s, cutUnits Arena.new s = 0 := by
    intro s
    have hmade : Arena.new.made = 0 := rfl
    unfold cutUnits
    rw [hmade, if_neg (Nat.not_lt_zero _), if_neg (Nat.succ_ne_zero s)]
  refine ⟨⟨Nat.zero_le _, rfl, Nat.zero_le _, ?_, fun s _ => hseg s, rfl, rfl⟩,
    ⟨.nil, ?_, ?_, ?_⟩, ⟨?_, ?_⟩, ⟨?_, ?_, .nil, ?_, Nat.zero_le _, ?_⟩, ⟨rfl, rfl, rfl⟩⟩
  · exact fun s hs => absurd hs (Nat.not_lt_zero s)
  · exact fun x hx => absurd hx List.not_mem_nil
  · intro u hu
    rw [hcut] at hu
    exact absurd hu (Nat.not_lt_zero _)
  · rw [uncut, hseg]
    rfl
  · exact fun c hc => absurd hc List.not_mem_nil
  · intro cls head hh
    simp [Arena.new] at hh
  · exact fun b hb => absurd hb List.not_mem_nil
  · exact fun b hb => absurd hb List.not_mem_nil
  · exact fun i hi => absurd hi List.not_mem_nil
  · exact fun b hb => absurd hb List.not_mem_nil

/-- What a caller can ask for next keeps the arena whole, unless it strands a
tail. -/
theorem inv_step (p : Platform) (w : World) (e : Event) (w' : World) (h : Inv w)
    (hk : Keeps p w e) (hs : Step p w e w') : Inv w' := by
  obtain ⟨F, lost, hh⟩ := h
  cases hs with
  | @alloc a a' L len granted r data hal hget =>
    rcases alloc_cases hh p granted len with ⟨-, r', a'', data', G, hal', hdata, hh'⟩ |
      ⟨-, full, a'', hal', -⟩ | ⟨hstrand, -⟩
    · rw [hal] at hal'
      obtain ⟨hr, rfl⟩ := Prod.mk.inj (Except.ok.inj hal')
      obtain rfl := Except.ok.inj hr
      have hget' := get_ok hh' (.head _)
      simp only [hdata] at hget'
      rw [hget] at hget'
      obtain rfl := Except.ok.inj hget'
      exact ⟨G, lost, hh'⟩
    · rw [hal] at hal'
      cases (Prod.mk.inj (Except.ok.inj hal')).1
    · exact absurd hstrand hk
  | @refused a a' L len granted full hal =>
    rcases alloc_cases hh p granted len with ⟨-, r', a'', data', G, hal', -⟩ |
      ⟨-, full', a'', hal', hh'⟩ | ⟨hstrand, -⟩
    · rw [hal] at hal'
      cases (Prod.mk.inj (Except.ok.inj hal')).1
    · rw [hal] at hal'
      obtain ⟨-, rfl⟩ := Prod.mk.inj (Except.ok.inj hal')
      exact ⟨F, lost, hh'⟩
    · exact absurd hstrand hk
  | @free a a' L b hb hfree =>
    have hp := hh.perm (List.perm_cons_erase hb)
    by_cases hnone : b.ref = Ref.NONE
    -- the reference reads as none: the block is lost, and what is left is in order
    · obtain ⟨hf, hh'⟩ := free_none hp hnone
      rw [hf] at hfree
      obtain rfl := Except.ok.inj hfree
      exact ⟨F, _, hh'⟩
    · obtain ⟨a'', G, hf, hh'⟩ := free_ok hp hnone
      rw [hf] at hfree
      obtain rfl := Except.ok.inj hfree
      exact ⟨G, lost, hh'⟩
  | @write a a' L b bytes hb hlen hw =>
    have hp := hh.perm (List.perm_cons_erase hb)
    obtain ⟨a'', hw', hh'⟩ := getMut_ok hp (fun _ => .ok bytes) rfl hlen
    rw [hw'] at hw
    obtain rfl := Except.ok.inj hw
    exact ⟨F, lost, hh'⟩

theorem Holds.live_apart {a : Arena} {L : List Block} {F : List Cell} {lost : Nat}
    (h : Holds a L F lost) : L.Pairwise fun b c => ¬ Overlap b c := by
  have hsmall := (List.pairwise_append.mp h.partition.apart).1
  rw [List.pairwise_filterMap] at hsmall
  have hlarge := List.pairwise_map.mp (List.nodup_append.mp h.blocks.slots).1
  rw [List.pairwise_filter] at hlarge
  refine (hsmall.and hlarge).imp fun {b c} hbc => ?_
  have hnone : ∀ d : Block, d.extent = none → d.isLarge = true := by
    intro d hd
    simp only [Block.extent, Option.map_eq_none_iff] at hd
    simp [Block.isLarge, hd]
  unfold Overlap
  cases hx : b.extent with
  | some x =>
    cases hy : c.extent with
    | some y => exact fun hno => hno (hbc.1 x hx y hy)
    | none => exact id
  | none =>
    cases hy : c.extent with
    | some y => exact id
    | none => exact hbc.2 (hnone b hx) (hnone c hy)

theorem inv_sound (w : World) (h : Inv w) : Sound w := by
  obtain ⟨F, lost, hh⟩ := h
  refine ⟨fun cls cls' n n' r hn hn' => hh.nth_inj hn hn', fun cls n r hn hl => ?_,
    fun cls n r hn b hb x hx => hh.block_cell_apart hb (hh.mem_of_nth hn) hx, hh.live_apart⟩
  have hcell : (⟨r.toNat, cls + 1⟩ : Extent) ∈ extents w.live F :=
    mem_extents.mpr (.inr ⟨_, hh.mem_of_nth hn, rfl⟩)
  exact hh.partition.fresh_apart hh.shape (Nat.le_refl _) hl hcell

/-- A stranded tail is on a free list and uncut at once. -/
theorem strands_unsound (p : Platform) (w : World) (e : Event) (w' : World) (h : Inv w)
    (hk : ¬ Keeps p w e) (hs : Step p w e w') : ¬ Sound w' := by
  obtain ⟨F, lost, hh⟩ := h
  intro hsound
  cases hs with
  | @alloc a a' L len granted r data hal =>
    rcases alloc_cases hh p granted len with ⟨hno, -⟩ | ⟨hno, -⟩ | ⟨-, full, a'', hal', -⟩
    · exact hk hno
    · exact hk hno
    · rw [hal] at hal'
      cases (Prod.mk.inj (Except.ok.inj hal')).1
  | @refused a a' L len granted full hal =>
    rcases alloc_cases hh p granted len with ⟨hno, -⟩ | ⟨hno, -⟩ |
      ⟨hstrand, full', a'', hal', hsame, hlists, -⟩
    · exact hk hno
    · exact hk hno
    · rw [hal] at hal'
      obtain ⟨-, rfl⟩ := Prod.mk.inj (Except.ok.inj hal')
      obtain ⟨-, -, -, hl, -⟩ := hstrand
      simp only at hl
      have hleft : left a' = left a := by
        unfold left
        rw [hsame.made, hsame.off, hsame.lengths]
      have hcls := hlists.reached _ (.head _)
      have hhead : a'.heads[(tailCell a).cls]? = some a'.heads[(tailCell a).cls] :=
        List.getElem?_eq_getElem hcls
      have hlink := hlists.linked _ _ hhead
      rw [chain_cons, if_pos rfl] at hlink
      have hat : a'.heads[(tailCell a).cls] = (make a.seg a.off).bits := hlink.1
      obtain ⟨hmade, hoff, hmk⟩ := hh.shape.left_made hl
      have hle := hh.shape.made_le
      have hne : (make a.seg a.off).bits ≠ u32Max := by
        intro heq
        have hmax : u32Max.toNat = 2 ^ 32 - 1 := rfl
        rw [heq] at hmk
        omega
      -- the stranded tail is at the head of its list, and is also still uncut
      have hnth : nth a' (tailCell a).cls 0 = some (make a.seg a.off).bits := by
        unfold nth
        rw [hhead, hat]
        simp only [follow, if_neg hne]
      have hap := hsound.uncut _ 0 _ hnth (by rw [hleft]; exact hl)
      simp only [fresh, hleft, hsame.seg, hsame.off] at hap
      rcases hap with hlt | hlt
      · simp only at hlt
        omega
      · simp only [tailCell] at hlt
        omega
  | free => exact hk trivial
  | write => exact hk trivial

/-- Soundness in every state of a run, and no stranding in any step of it, are
the same thing. -/
theorem sound_iff (p : Platform) {tr : List (World × Event × World)} {w : World}
    (h : Run (Step p) World.new tr w) :
    (∀ x ∈ tr, Sound x.2.2) ↔ ∀ x ∈ tr, Keeps p x.1 x.2.1 :=
  h.holds_iff ⟨[], 0, holds_new⟩ (inv_step p) inv_sound (strands_unsound p)

def pages : Platform := .mapped 4096 (by decide)

/-! A run that strands a tail: 511 blocks of 2048 bytes and one of four leave
511 units of the first megabyte, which is too little for another 2048; and the
system refuses a second segment. -/

/-- The first segment with `n` blocks of 2048 bytes cut from it. -/
def filled (n : Nat) : Arena :=
  { Arena.new with
    head := Arena.new.head.set 0 (List.replicate (1024 * 1024) 0)
    made := 1
    off := narrow (512 * n)
    heads := List.replicate 512 u32Max
    live := 2048 * n
    segmentBytes := 1024 * 1024 }

theorem filled_segment (n : Nat) : (filled n).segment 0 = List.replicate (1024 * 1024) 0 := by
  unfold Arena.segment filled
  rw [dif_pos (by decide)]
  exact Vector.getElem_set_self _

theorem room_first {a : Arena} (hseg : a.seg = 0) (hlen : (a.segment 0).length = 1024 * 1024)
    (hoff : a.off.toNat ≤ 262144) : a.room = .ok (262144 - a.off.toNat) := by
  unfold Arena.room
  rw [hseg, show (0 : UInt32).toNat = 0 from rfl]
  split
  · next hnil =>
    rw [hnil] at hlen
    cases hlen
  · rw [hlen, show (narrow (1024 * 1024 / grain)).toNat = 262144 from rfl, minus_ok hoff]

theorem filled_room {n : Nat} (hn : n ≤ 512) : (filled n).room = .ok (262144 - 512 * n) := by
  have hoff : (filled n).off.toNat = 512 * n := by
    simp only [filled, narrow, UInt32.toNat_ofNat']
    omega
  have hlen : ((filled n).segment 0).length = 1024 * 1024 := by rw [filled_segment, List.length_replicate]
  rw [← hoff]
  exact room_first rfl hlen (by omega)

theorem alloc_cut (p : Platform) (granted : Bool) {a : Arena} {len cls room : Nat}
    (hlen : classOf len = some cls) (hhead : a.heads[cls]? = some u32Max)
    (hroom : a.room = .ok room) (hr : cls + 1 ≤ room) :
    a.alloc p granted len =
      .ok (.ok (a.bump ((cls + 1) * grain)).1, (a.bump ((cls + 1) * grain)).2) := by
  have hclass := classOf_some hlen
  have hlt := (List.getElem?_eq_some_iff.mp hhead).1
  have hreach : a.reach cls = a := by rw [reach, if_neg (by omega)]
  have hunits : (narrow ((cls + 1) * grain / grain)).toNat = cls + 1 := by
    unfold grain
    rw [narrow, UInt32.toNat_ofNat']
    omega
  simp only [alloc, hlen, hreach, index_of_getElem? hhead, ok_bind, ne_eq, not_true_eq_false,
    if_false, cut, hroom, hunits]
  rw [if_neg (by omega)]
  rfl

theorem filled_step (p : Platform) (granted : Bool) {n : Nat} (hn : n ≤ 511) :
    (filled n).alloc p granted 2048 = .ok (.ok (make 0 (narrow (512 * n))), filled (n + 1)) := by
  have hhead : (filled n).heads[511]? = some u32Max := List.getElem?_replicate_of_lt (by omega)
  rw [alloc_cut p granted (show classOf 2048 = some 511 from rfl) hhead (filled_room (by omega)) (by omega)]
  have hoff : narrow (512 * n) + narrow 512 = narrow (512 * (n + 1)) := by
    simp only [narrow, ← UInt32.ofNat_add, Nat.mul_succ]
  have hbump : (filled n).bump ((511 + 1) * grain) = (make 0 (narrow (512 * n)), filled (n + 1)) := by
    unfold bump filled
    rw [← hoff, Nat.mul_succ 2048 n]
    rfl
  rw [hbump]

theorem Inv.alloc_step {p : Platform} {granted : Bool} {a a' : Arena} {L : List Block} {len : Nat}
    {r : Ref} (h : Inv ⟨a, L⟩) (hal : a.alloc p granted len = .ok (.ok r, a')) :
    Keeps p ⟨a, L⟩ (.alloc len granted) ∧
      ∃ data, data.length = len ∧ Step p ⟨a, L⟩ (.alloc len granted) ⟨a', ⟨r, data⟩ :: L⟩ ∧
        Inv ⟨a', ⟨r, data⟩ :: L⟩ := by
  obtain ⟨F, lost, hh⟩ := h
  rcases alloc_cases hh p granted len with ⟨hkeeps, r', a'', data, G, hal', hdata, hh'⟩ |
    ⟨-, full, a'', hal', -⟩ | ⟨-, full, a'', hal', -⟩
  · rw [hal] at hal'
    obtain ⟨hr, rfl⟩ := Prod.mk.inj (Except.ok.inj hal')
    obtain rfl := Except.ok.inj hr
    have hget := get_ok hh' (.head _)
    simp only [hdata] at hget
    exact ⟨hkeeps, data, hdata, .alloc hal hget, G, lost, hh'⟩
  · rw [hal] at hal'
    cases (Prod.mk.inj (Except.ok.inj hal')).1
  · rw [hal] at hal'
    cases (Prod.mk.inj (Except.ok.inj hal')).1

theorem grow_first {segment : Segment}
    (hn : pages.newSegment true (pages.nextSegmentSize Arena.new.segmentBytes) = some segment)
    (hlen : segment.length = 1024 * 1024) :
    grow pages true { Arena.new with heads := List.replicate 512 u32Max } = .ok
      { Arena.new with
        head := Arena.new.head.set 0 segment
        made := 1
        heads := List.replicate 512 u32Max
        segmentBytes := 1024 * 1024 } := by
  have hbytes : Arena.new.segmentBytes + 1024 * 1024 = 1024 * 1024 := Nat.zero_add _
  unfold grow
  rw [if_neg (by decide)]
  simp only [hn]
  rw [hlen, hbytes]
  rfl

theorem filled_first : Arena.new.alloc pages true 2048 = .ok (.ok (make 0 0), filled 1) := by
  have hgrow : grow pages true { Arena.new with heads := List.replicate 512 u32Max } =
      .ok (filled 0) := grow_first rfl List.length_replicate
  have hreach : Arena.new.reach 511 = { Arena.new with heads := List.replicate 512 u32Max } := by
    rw [reach, if_pos (by decide)]
    rfl
  have hhead : index (List.replicate 512 u32Max) 511 = .ok u32Max :=
    index_of_getElem? (List.getElem?_replicate_of_lt (by omega))
  have hroom : Arena.room { Arena.new with heads := List.replicate 512 u32Max } = .ok 0 := rfl
  have hbump : (filled 0).bump 2048 = (make 0 0, filled 1) := rfl
  simp only [alloc, show classOf 2048 = some 511 from rfl, hreach, hhead, ok_bind, ne_eq,
    not_true_eq_false, if_false, cut, hroom]
  rw [if_pos (by decide), abandon, if_neg (Nat.lt_irrefl 0), pure_ok, ok_bind, cutGrown, hgrow]
  simp only [show (511 + 1) * grain = 2048 from rfl, hbump]
  rfl

theorem left_bump {a : Arena} {rounded bytes : Nat} (hmade : a.made = 1)
    (hlen : (a.segment 0).length = bytes) :
    left (a.bump rounded).2 = bytes / 4 - (a.off + narrow (rounded / grain)).toNat := by
  have hmade' : (a.bump rounded).2.made = 1 := hmade
  have hlen' : ((a.bump rounded).2.segment 0).length = bytes := hlen
  unfold left
  rw [hmade', hlen']
  rfl

theorem filled_run {n : Nat} (hn : n ≤ 511) : ∃ tr L, Run (Step pages) World.new tr ⟨filled (n + 1), L⟩ ∧
    Inv ⟨filled (n + 1), L⟩ ∧ L.length = n + 1 ∧ ∀ x ∈ tr, Keeps pages x.1 x.2.1 := by
  induction n with
  | zero =>
    have hnew : Inv World.new := ⟨[], 0, holds_new⟩
    obtain ⟨hkeeps, data, -, hstep, hinv⟩ := hnew.alloc_step filled_first
    exact ⟨_, _, .single hstep, hinv, rfl, List.forall_mem_singleton.mpr hkeeps⟩
  | succ n ih =>
    obtain ⟨tr, L, hrun, hinv, hlen, hall⟩ := ih (by omega)
    obtain ⟨hkeeps, data, -, hstep, hinv'⟩ := hinv.alloc_step (filled_step pages true hn)
    refine ⟨_, _, hrun.snoc hstep, hinv', by rw [List.length_cons, hlen], ?_⟩
    rw [List.forall_mem_append, List.forall_mem_singleton]
    exact ⟨hall, hkeeps⟩

theorem filled_refused : (filled 512).alloc pages false 2048 = .ok (.error .memory, filled 512) := by
  have hhead : (filled 512).heads[511]? = some u32Max := List.getElem?_replicate_of_lt (by omega)
  have hroom : (filled 512).room = .ok 0 := filled_room (Nat.le_refl 512)
  have hreach : (filled 512).reach 511 = filled 512 := by
    have hheads : (filled 512).heads.length = 512 := List.length_replicate
    rw [reach, if_neg (by omega)]
  have hgrow : (filled 512).grow pages false = .error .memory := by
    rw [grow, if_neg (by decide)]
    rfl
  simp only [alloc, show classOf 2048 = some 511 from rfl, hreach, index_of_getElem? hhead, ok_bind, ne_eq,
    not_true_eq_false, if_false, cut, hroom]
  rw [if_pos (by decide), abandon, if_neg (Nat.lt_irrefl 0), pure_ok, ok_bind, cutGrown, hgrow]
  rfl

/-- 512 blocks, and a refusal: there is no tail to strand, and the arena stays sound. -/
theorem sound_refused : ∃ tr L, Run (Step pages) World.new tr ⟨filled 512, L⟩ ∧ L.length = 512 ∧
    Step pages ⟨filled 512, L⟩ (.alloc 2048 false) ⟨filled 512, L⟩ ∧ Sound ⟨filled 512, L⟩ := by
  obtain ⟨tr, L, hrun, hinv, hlen, hall⟩ := filled_run (n := 511) (Nat.le_refl _)
  obtain ⟨F, lost, hh⟩ := hinv
  have hleft : left (filled 512) = 0 := Except.ok.inj (hh.shape.room.symm.trans (filled_room (Nat.le_refl 512)))
  have hno : ¬ Strands pages false (filled 512) 2048 := by
    intro ⟨cls, _, _, hl, _⟩
    omega
  have hstep : Step pages ⟨filled 512, L⟩ (.alloc 2048 false) ⟨filled 512, L⟩ := .refused filled_refused
  have hsound := (sound_iff pages (hrun.snoc hstep)).mpr (by
    rw [List.forall_mem_append, List.forall_mem_singleton]
    exact ⟨hall, hno⟩)
  exact ⟨tr, L, hrun, hlen, hstep, hsound _ (List.mem_append_right _ List.mem_cons_self)⟩

/-- A run that ends unsound. -/
theorem stranded_run : ∃ tr w, Run (Step pages) World.new tr w ∧ ¬ Sound w := by
  obtain ⟨tr, L, hrun, hinv, -, -⟩ := filled_run (n := 510) (by omega)
  have hhead : (filled 511).heads[0]? = some u32Max := List.getElem?_replicate_of_lt (by omega)
  obtain ⟨-, data, -, hstep, hinv'⟩ := hinv.alloc_step (alloc_cut pages true
    (show classOf 4 = some 0 from rfl) hhead (filled_room (by omega)) (by omega))
  have hrun' := hrun.snoc hstep
  -- 511 units are left, and 512 are asked for
  have hleft : left ((filled 511).bump ((0 + 1) * grain)).2 = 511 := by
    have hlen : ((filled 511).segment 0).length = 1024 * 1024 := by
      rw [filled_segment, List.length_replicate]
    have hoff : ((filled 511).off + narrow ((0 + 1) * grain / grain)).toNat = 261633 := rfl
    rw [left_bump rfl hlen, hoff]
  have hstrand : Strands pages false ((filled 511).bump ((0 + 1) * grain)).2 2048 := by
    refine ⟨511, rfl, ?_, by omega, by omega, .inr rfl⟩
    have hlast : ((filled 511).bump ((0 + 1) * grain)).2.heads[511]? = some u32Max :=
      List.getElem?_replicate_of_lt (by omega)
    rw [hlast]
    rfl
  obtain ⟨F, lost, hh⟩ := hinv'
  rcases alloc_cases hh pages false 2048 with ⟨hno, -⟩ | ⟨hno, -⟩ | ⟨-, full, a', hal, -⟩
  · exact absurd hstrand hno
  · exact absurd hstrand hno
  · have hrefused := Step.refused (L := ⟨((filled 511).bump ((0 + 1) * grain)).1, data⟩ :: L) hal
    refine ⟨_, _, hrun'.snoc hrefused, strands_unsound pages _ _ _ ⟨F, lost, hh⟩ ?_ hrefused⟩
    exact fun hk => hk hstrand

/-! ## Every byte has one owner -/

/-- Who can own a byte of a segment: a small live block, the `n`th block of a
free list, or nobody yet. -/
inductive Owner where
  | live (b : Block)
  | free (cls n : Nat)
  | uncut

/-- The block of class `cls` at `at_` has byte `i` of segment `seg`. -/
def Covers (at_ : Ref) (cls seg i : Nat) : Prop :=
  (place at_).1 = seg ∧ (place at_).2 ≤ i ∧ i < (place at_).2 + (cls + 1) * grain

def Owns (w : World) : Owner → Nat → Nat → Prop
  | .live b, seg, i => b ∈ w.live ∧ ∃ cls, classOf b.data.length = some cls ∧ Covers b.ref cls seg i
  | .free cls n, seg, i => ∃ r, nth w.arena cls n = some r ∧ Covers ⟨r⟩ cls seg i
  | .uncut, seg, i => seg + 1 = w.arena.made ∧ w.arena.off.toNat * grain ≤ i

/-- What the claim on the bytes of an arena says of one state. -/
structure Exact (p : Platform) (w : World) : Prop where
  owned : ∀ seg < w.arena.made, ∀ i < (w.arena.segment seg).length, ∃! o, Owns w o seg i
  chains : ∀ cls, ∃ rs : List UInt32, rs.Nodup ∧ ∀ n, nth w.arena cls n = rs[n]?
  small : ∀ b ∈ w.live, ∀ cls, classOf b.data.length = some cls → b.ref.isLarge = false ∧
    (place b.ref).1 < w.arena.made ∧
    (place b.ref).2 + (cls + 1) * grain ≤ (w.arena.segment (place b.ref).1).length
  large : ∀ b ∈ w.live, classOf b.data.length = none → b.ref.isLarge = true ∧
    b.ref.index < w.arena.large.length
  apart : w.live.Pairwise fun b c => ¬ Overlap b c
  reads : ∀ b ∈ w.live, w.arena.get b.ref b.data.length = .ok b.data
  totals : w.arena.largeLive ≤ w.arena.live ∧
    w.arena.segmentBytes = (w.arena.live - w.arena.largeLive) + w.arena.dead + uncut w.arena
  charged : ∀ c, ∃ n, w.arena.residentBytes p c = .ok n ∧ w.arena.live ≤ n ∧
    n ≤ w.arena.mappedBytes c
  allocs : ∀ len granted, ∃ res, w.arena.alloc p granted len = .ok res
  frees : ∀ b ∈ w.live, ∃ a', w.arena.free b.ref b.data.length = .ok a'
  writes : ∀ b ∈ w.live, ∀ bytes, bytes.length = b.data.length →
    ∃ a', w.arena.getMut b.ref b.data.length (fun _ => .ok bytes) = .ok a'

section exact
variable {a : Arena} {L : List Block} {F : List Cell} {lost : Nat}

theorem covers_iff {r : Ref} {cls seg i : Nat} (hin : Inside a ⟨r.bits.toNat, cls + 1⟩)
    (hi : i < 2 ^ 23) : Covers r cls seg i ↔
      r.bits.toNat ≤ 2 ^ 21 * seg + i / 4 ∧ 2 ^ 21 * seg + i / 4 < r.bits.toNat + (cls + 1) := by
  have hsec := hin.2
  unfold Covers grain
  rw [place_eq]
  simp only at hsec ⊢
  omega

theorem Holds.owner_extent (h : Holds a L F lost) {o : Owner} {seg i : Nat}
    (ho : Owns ⟨a, L⟩ o seg i) (hi : i < 2 ^ 23) :
    (o = .uncut ∧ seg + 1 = a.made ∧ a.off.toNat * 4 ≤ i) ∨
    ∃ x ∈ extents L F, x.start ≤ 2 ^ 21 * seg + i / 4 ∧ 2 ^ 21 * seg + i / 4 < x.start + x.units ∧
      ((∃ b ∈ L, o = .live b ∧ b.extent = some x) ∨
        ∃ c ∈ F, ∃ n, o = .free c.cls n ∧ Arena.nth a c.cls n = some c.at_ ∧ c.extent = x) := by
  cases o with
  | uncut => exact .inl ⟨rfl, ho⟩
  | live b =>
    obtain ⟨hb, cls, hcls, hcov⟩ := ho
    have hext : b.extent = some ⟨b.ref.bits.toNat, cls + 1⟩ := by simp [Block.extent, Block.cls, hcls]
    have hx : (⟨b.ref.bits.toNat, cls + 1⟩ : Extent) ∈ extents L F := mem_extents.mpr (.inl ⟨b, hb, hext⟩)
    obtain ⟨h1, h2⟩ := (covers_iff (h.partition.inside h.shape hx) hi).mp hcov
    exact .inr ⟨_, hx, h1, h2, .inl ⟨b, hb, rfl, hext⟩⟩
  | free cls n =>
    obtain ⟨r, hn, hcov⟩ := ho
    have hc := h.mem_of_nth hn
    have hx : (⟨r.toNat, cls + 1⟩ : Extent) ∈ extents L F := mem_extents.mpr (.inr ⟨_, hc, rfl⟩)
    obtain ⟨h1, h2⟩ := (covers_iff (r := ⟨r⟩) (h.partition.inside h.shape hx) hi).mp hcov
    exact .inr ⟨_, hx, h1, h2, .inr ⟨_, hc, n, rfl, hn, rfl⟩⟩

theorem Holds.owner_unique (h : Holds a L F lost) {o o' : Owner} {seg i : Nat} (hi : i < 2 ^ 23)
    (ho : Owns ⟨a, L⟩ o seg i) (ho' : Owns ⟨a, L⟩ o' seg i) : o = o' := by
  -- two extents with a unit in common are not apart
  have hmeet : ∀ {x y : Extent} {u : Nat}, x.Apart y → x.start ≤ u → u < x.start + x.units →
      y.start ≤ u → u < y.start + y.units → False := by
    intro x y u hap h1 h2 h3 h4
    rcases hap with hlt | hlt <;> omega
  -- an extent is cut, so it is below the uncut tail
  have hcut : ∀ x ∈ extents L F, x.start ≤ 2 ^ 21 * seg + i / 4 →
      2 ^ 21 * seg + i / 4 < x.start + x.units → seg + 1 = a.made → ¬ a.off.toNat * 4 ≤ i := by
    intro x hx h1 h2 hseg hoff
    have hfit := h.partition.fits x hx
    have hle := h.shape.cutUnits_le (x.start / 2 ^ 21)
    have hlast : cutUnits a seg = a.off.toNat := by
      unfold cutUnits
      rw [if_neg (by omega), if_pos hseg]
    rw [show x.start / 2 ^ 21 = seg by omega, hlast] at hfit
    omega
  rcases h.owner_extent ho hi with ⟨rfl, hseg, hoff⟩ | ⟨x, hx, h1, h2, hox⟩
  · rcases h.owner_extent ho' hi with ⟨rfl, -, -⟩ | ⟨y, hy, h3, h4, -⟩
    · rfl
    · exact absurd hoff (hcut y hy h3 h4 hseg)
  · rcases h.owner_extent ho' hi with ⟨rfl, hseg, hoff⟩ | ⟨y, hy, h3, h4, hoy⟩
    · exact absurd hoff (hcut x hx h1 h2 hseg)
    · rcases hox with ⟨b, hb, rfl, hbx⟩ | ⟨c, hc, n, rfl, hn, rfl⟩
      · rcases hoy with ⟨b', hb', rfl, hby⟩ | ⟨c', hc', n', rfl, hn', rfl⟩
        · by_cases hbb : b = b'
          · rw [hbb]
          · exact absurd h4 fun h4 => hmeet (h.blocks_apart hb hb' hbb hbx hby) h1 h2 h3 h4
        · exact (hmeet (h.block_cell_apart hb hc' hbx) h1 h2 h3 h4).elim
      · rcases hoy with ⟨b', hb', rfl, hby⟩ | ⟨c', hc', n', rfl, hn', rfl⟩
        · exact (hmeet (h.block_cell_apart hb' hc hby) h3 h4 h1 h2).elim
        · by_cases hcc : c = c'
          · subst hcc
            rw [(h.nth_inj hn hn').2]
          · exact (hmeet (h.cells_apart hc hc' hcc) h1 h2 h3 h4).elim

theorem Holds.owner_exists (h : Holds a L F lost) {seg i : Nat} (hseg : seg < a.made)
    (hi : i < (a.segment seg).length) : ∃ o, Owns ⟨a, L⟩ o seg i := by
  have hlen := h.shape.lengths seg hseg
  by_cases htail : seg + 1 = a.made ∧ a.off.toNat * 4 ≤ i
  · exact ⟨.uncut, htail⟩
  · have hlt : i / 4 < cutUnits a seg := by
      unfold cutUnits
      split_ifs with h1 h2
      · omega
      · omega
      · omega
    obtain ⟨x, hx, h1, h2⟩ := h.partition.covers (2 ^ 21 * seg + i / 4) (by
      rw [show (2 ^ 21 * seg + i / 4) / 2 ^ 21 = seg by omega]
      omega)
    have hin := h.partition.inside h.shape hx
    rcases mem_extents.mp hx with ⟨b, hb, hbx⟩ | ⟨c, hc, rfl⟩
    · obtain ⟨cls, hcls, rfl⟩ := Option.map_eq_some_iff.mp hbx
      exact ⟨.live b, hb, cls, hcls, (covers_iff hin (by omega)).mpr ⟨h1, h2⟩⟩
    · obtain ⟨n, hn⟩ := List.mem_iff_getElem?.mp (mem_chain.mpr hc)
      exact ⟨.free c.cls n, c.at_, by rw [h.nth]; exact hn,
        (covers_iff (r := ⟨c.at_⟩) hin (by omega)).mpr ⟨h1, h2⟩⟩

/-- The extents of the live blocks are what they are charged, less the
oversized. -/
theorem sum_blocks (L : List Block) :
    ((L.filterMap Block.extent).map fun x => x.units * 4).sum + (L.map Block.largeSize).sum =
      (L.map fun b => charge b.data.length).sum := by
  induction L with
  | nil => rfl
  | cons b L ih =>
    rw [List.map_cons, List.map_cons, List.sum_cons, List.sum_cons]
    cases hc : classOf b.data.length with
    | some cls =>
      have hb := small_block (r := b.ref) hc
      have hext : b.extent = some ⟨b.ref.bits.toNat, cls + 1⟩ := hb.2.1
      have hls : b.largeSize = 0 := hb.2.2
      rw [List.filterMap_cons_some hext, List.map_cons, List.sum_cons, charge_small hc, hls]
      simp only
      omega
    | none =>
      obtain ⟨hext, hls⟩ := large_block hc
      rw [List.filterMap_cons_none hext, hls, charge_large hc]
      omega

theorem Holds.totals_eq (h : Holds a L F lost) : a.largeLive ≤ a.live ∧
    a.segmentBytes = (a.live - a.largeLive) + a.dead + uncut a := by
  have hsum := sum_blocks L
  have htally := h.partition.tally
  have hF : (F.map Cell.extent).map (fun x => x.units * 4) = F.map fun c => (c.cls + 1) * 4 := by
    rw [List.map_map]
    rfl
  rw [extents, List.map_append, List.sum_append, hF] at htally
  have hlive := h.totals.live
  have hlarge := h.totals.large
  have hdead := h.totals.dead
  omega

theorem Holds.charged (h : Holds a L F lost) (p : Platform) (c : Capacities) :
    ∃ n, a.residentBytes p c = .ok n ∧ a.live ≤ n ∧ n ≤ a.mappedBytes c := by
  obtain ⟨hle, hsum⟩ := h.totals_eq
  have hoff := h.shape.off_le
  unfold residentBytes held mappedBytes
  by_cases hlazy : p.lazy = true
  · rw [hlazy]
    simp only [Bool.not_true, Bool.false_eq_true, if_false]
    by_cases hmade : a.made = 0
    · rw [if_pos hmade]
      refine ⟨_, rfl, ?_, ?_⟩
      · -- nothing has been cut, so nothing small is live
        have htotal := h.shape.total
        rw [hmade] at htotal
        simp at htotal
        omega
      · omega
    · have hlast : (a.segment (a.made - 1)).length ≤ a.segmentBytes := by
        obtain ⟨k, hk⟩ := Nat.exists_eq_succ_of_ne_zero hmade
        rw [h.shape.total, hk, Nat.succ_sub_one, List.range_succ, List.map_append, List.sum_append]
        simp
      have hround : a.off.toNat * grain ≤ nextMultipleOf (a.off.toNat * grain) p.granule := by
        unfold nextMultipleOf
        split <;> omega
      rw [if_neg hmade, minus_ok hlast]
      refine ⟨_, rfl, ?_, ?_⟩
      · unfold uncut at hsum
        simp only [grain] at hround ⊢
        omega
      · omega
  · rw [Bool.not_eq_true] at hlazy
    rw [hlazy]
    refine ⟨_, rfl, ?_, ?_⟩ <;> omega

theorem Holds.exact (h : Holds a L F lost) (p : Platform) : Exact p ⟨a, L⟩ where
  owned := fun seg hseg i hi => by
    obtain ⟨o, ho⟩ := h.owner_exists hseg hi
    have hlen := (h.shape.lengths seg hseg).2.2
    exact ⟨o, ho, fun o' ho' => h.owner_unique (lt_of_lt_of_le hi hlen) ho' ho⟩
  chains := fun cls => ⟨chain F cls, h.chain_nodup cls, h.nth cls⟩
  small := fun b hb cls hcls => by
    have hl : b.isLarge = false := by simp [Block.isLarge, Block.cls, hcls]
    have hext : b.extent = some ⟨b.ref.bits.toNat, cls + 1⟩ := by simp [Block.extent, Block.cls, hcls]
    -- its extent is one of those that the cut units are parted into
    have hx : (⟨b.ref.bits.toNat, cls + 1⟩ : Extent) ∈ extents L F := mem_extents.mpr (.inl ⟨b, hb, hext⟩)
    have hin := (h.partition.inside h.shape hx).1
    have hfit := h.partition.fits _ hx
    have hcut := (h.shape.cutUnits_le (b.ref.bits.toNat / 2 ^ 21)).2.2
    rw [place_eq]
    simp only [grain] at hin hfit ⊢
    exact ⟨(h.ref_isLarge hb).trans hl, hcut (by omega), by omega⟩
  large := fun b hb hcls => by
    obtain ⟨hbig, hget⟩ := h.blocks.large b hb (Block.isLarge_iff.mpr hcls)
    exact ⟨hbig, (List.getElem?_eq_some_iff.mp hget).1⟩
  apart := h.live_apart
  reads := fun b hb => get_ok h hb
  totals := h.totals_eq
  charged := h.charged p
  allocs := fun len granted => by
    rcases alloc_cases h p granted len with ⟨-, r, a', -, -, hal, -⟩ | ⟨-, full, a', hal, -⟩ |
      ⟨-, full, a', hal, -⟩ <;> exact ⟨_, hal⟩
  frees := fun b hb => by
    have hp := h.perm (List.perm_cons_erase hb)
    by_cases hnone : b.ref = Ref.NONE
    · exact ⟨_, (free_none hp hnone).1⟩
    · obtain ⟨a', -, hf, -⟩ := free_ok hp hnone
      exact ⟨a', hf⟩
  writes := fun b hb bytes hlen => by
    obtain ⟨a', hw, -⟩ := getMut_ok (h.perm (List.perm_cons_erase hb)) (fun _ => .ok bytes)
      rfl hlen
    exact ⟨a', hw⟩

end exact

def Succeeds (p : Platform) (w : World) : Event → Prop
  | .alloc len granted => ∃ r a', w.arena.alloc p granted len = .ok (.ok r, a')
  | _ => True

/-- In a run whose allocations succeed, every byte of every segment has one
owner, blocks read back, the totals add up, and nothing stops. -/
theorem bytes_owned (p : Platform) {tr : List (World × Event × World)} {w : World}
    (h : Run (Step p) World.new tr w) (hok : ∀ x ∈ tr, Succeeds p x.1 x.2.1) : Exact p w := by
  have hstep : ∀ w e w', Inv w → Succeeds p w e → Step p w e w' → Inv w' := by
    intro w e w' hi hs hstep
    refine inv_step p w e w' hi ?_ hstep
    obtain ⟨F, lost, hh⟩ := hi
    cases e with
    | alloc len granted =>
      obtain ⟨r, a', hal⟩ := hs
      rcases alloc_cases hh p granted len with ⟨hno, -⟩ | ⟨hno, -⟩ | ⟨-, full, a'', hal', -⟩
      · exact hno
      · exact hno
      · rw [hal] at hal'
        cases (Prod.mk.inj (Except.ok.inj hal')).1
    | free b => exact trivial
    | write b bytes => exact trivial
  obtain ⟨⟨F, lost, hh⟩, -⟩ := h.invariant ⟨[], 0, holds_new⟩ hstep hok
  exact hh.exact p

theorem reuse : ∃ r a₁ r' a₂ a₃ a₄, Arena.new.alloc .boxed true 8 = .ok (.ok r, a₁) ∧
    a₁.alloc .boxed true 8 = .ok (.ok r', a₂) ∧ a₂.free r' 8 = .ok a₃ ∧
    a₃.alloc .boxed true 5 = .ok (.ok r', a₄) := by
  have heval : (do
      let (r, a) ← Arena.new.alloc .boxed true 8
      let (r', a) ← a.alloc .boxed true 8
      let a ← a.free ⟨2⟩ 8
      let (r'', _) ← a.alloc .boxed true 5
      pure (r, r', r'')) = .ok (.ok ⟨0⟩, .ok ⟨2⟩, .ok ⟨2⟩) := by
    decide +kernel
  obtain ⟨⟨r, a₁⟩, h₁, heval⟩ := bind_ok_iff.mp heval
  obtain ⟨⟨r', a₂⟩, h₂, heval⟩ := bind_ok_iff.mp heval
  obtain ⟨a₃, h₃, heval⟩ := bind_ok_iff.mp heval
  obtain ⟨⟨r'', a₄⟩, h₄, heval⟩ := bind_ok_iff.mp heval
  cases heval
  exact ⟨⟨0⟩, a₁, ⟨2⟩, a₂, a₃, a₄, h₁, h₂, h₃, h₄⟩

/-- Of that run: the two blocks that are live at its end share no byte. -/
theorem bytes_owned_reused : ∃ tr w b c, Run (Step .boxed) World.new tr w ∧ tr.length = 4 ∧ w.live = [b, c] ∧
    Exact .boxed w := by
  obtain ⟨r, a₁, r', a₂, a₃, a₄, h₁, h₂, h₃, h₄⟩ := reuse
  have hnew : Inv World.new := ⟨[], 0, holds_new⟩
  obtain ⟨-, data, -, s₁, hinv₁⟩ := hnew.alloc_step h₁
  obtain ⟨-, data', hlen, s₂, hinv₂⟩ := hinv₁.alloc_step h₂
  have s₃ : Step .boxed ⟨a₂, [⟨r', data'⟩, ⟨r, data⟩]⟩ (.free ⟨r', data'⟩) ⟨a₃, [⟨r, data⟩]⟩ := by
    rw [← hlen] at h₃
    have hfree := Step.free (p := .boxed) (L := [⟨r', data'⟩, ⟨r, data⟩]) (b := ⟨r', data'⟩) List.mem_cons_self h₃
    rwa [List.erase_cons_head] at hfree
  have hinv₃ : Inv ⟨a₃, [⟨r, data⟩]⟩ := inv_step .boxed _ (.free ⟨r', data'⟩) _ hinv₂ trivial s₃
  obtain ⟨-, data'', -, s₄, -⟩ := hinv₃.alloc_step h₄
  have hrun := (((Run.single s₁).snoc s₂).snoc s₃).snoc s₄
  refine ⟨_, _, ⟨r', data''⟩, ⟨r, data⟩, hrun, rfl, rfl, bytes_owned .boxed hrun ?_⟩
  intro x hx
  simp only [List.cons_append, List.nil_append, List.mem_cons, List.not_mem_nil, or_false] at hx
  rcases hx with rfl | rfl | rfl | rfl
  · exact ⟨_, _, h₁⟩
  · exact ⟨_, _, h₂⟩
  · exact trivial
  · exact ⟨_, _, h₄⟩

end Rugo.Arena
