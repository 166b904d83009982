import Rugo.Evictions
import Rugo.MapRuns

/- Every map that is reached: by the operations of its callers, answered or refused, and
   by the sweeps between them. -/
namespace Rugo
open Exec Runs

/-! ## What strands no tail -/

namespace Arena
variable {a a' : Arena} {p : Platform} {granted : Bool} {at_ : Ref} {n len : Nat}

theorem pushFree_same (h : a.pushFree at_ n = .ok a') :
    SameShape a a' ∧ ∃ cls, a'.heads = a.heads.set cls at_.bits := by
  rw [pushFree] at h
  obtain ⟨cls, -, h⟩ := bind_ok_iff.mp h
  obtain ⟨head, -, h⟩ := bind_ok_iff.mp h
  obtain ⟨a₁, hset, h⟩ := bind_ok_iff.mp h
  obtain ⟨heads, hheads, h⟩ := bind_ok_iff.mp h
  rw [setNextFree] at hset
  obtain ⟨bytes, hsplice, hset⟩ := bind_ok_iff.mp hset
  cases hset
  obtain ⟨-, rfl⟩ := update_eq_ok.mp hheads
  cases h
  have hsegment := segment_setSegment { a with dead := a.dead + n } (place at_).1 bytes (splice_length hsplice)
  refine ⟨⟨setSegment_made .., setSegment_seg .., setSegment_off .., setSegment_segmentBytes ..,
    setSegment_tail_length .., ?_⟩, cls, ?_⟩
  · intro s
    apply (congrArg List.length (hsegment s)).trans
    split
    · next heq => rw [heq]; exact splice_length hsplice
    · rfl
  · rw [setSegment_heads]

theorem SameShape.left (h : SameShape a a') : left a' = left a := by
  rw [Arena.left, Arena.left, h.made, h.off, h.lengths]

theorem SameShape.refused (h : SameShape a a') : refused p granted a' ↔ refused p granted a := by
  rw [Arena.refused, Arena.refused, h.made, h.segmentBytes]

/-- Giving a block back brings no tail nearer to being stranded. -/
theorem Strands.of_free (hfree : a.free at_ n = .ok a') (h : Strands p granted a' len) : Strands p granted a len := by
  rw [free] at hfree
  split at hfree
  · cases hfree
    exact h
  next hnone =>
    split at hfree
    · obtain ⟨held, -, hfree⟩ := bind_ok_iff.mp hfree
      obtain ⟨live, -, hfree⟩ := bind_ok_iff.mp hfree
      obtain ⟨largeLive, -, hfree⟩ := bind_ok_iff.mp hfree
      obtain ⟨large, -, hfree⟩ := bind_ok_iff.mp hfree
      cases hfree
      exact h
    · obtain ⟨live, -, hpush⟩ := bind_ok_iff.mp hfree
      obtain ⟨hsame, cls, hheads⟩ := pushFree_same hpush
      obtain ⟨cls', hcls, hhead, hpos, hshort, hrefused⟩ := h
      refine ⟨cls', hcls, ?_, hsame.left ▸ hpos, hsame.left ▸ hshort, hsame.refused.mp hrefused⟩
      rw [hheads, List.getElem?_set] at hhead
      split at hhead
      · next heq =>
        -- the list that the block went on is not empty
        subst heq
        split at hhead
        · exact absurd ((Ref.isNone_iff _).mpr (congrArg Ref.mk hhead)) hnone
        · next hout =>
          rw [List.getElem?_eq_none (Nat.not_lt.mp hout)]
          rfl
      · exact hhead

end Arena

namespace Table
variable {imp : Imp} {p : Platform} {sky : Sky} {budget : Nat} {t t' : Table} {m : Cache} {key : List UInt8}

theorem vacate_arena {at_ : Nat} (h : t.vacate imp at_ = .ok t') : t'.arena = t.arena := by
  rw [vacate] at h
  obtain ⟨probe, -, h⟩ := bind_ok_iff.mp h
  split at h
  · obtain ⟨ctrl, -, h⟩ := bind_ok_iff.mp h
    cases h
    rfl
  · obtain ⟨ctrl, -, h⟩ := bind_ok_iff.mp h
    cases h
    rfl

theorem erase_free {at_ : Nat} (h : t.erase imp at_ = .ok t') : ∃ entry n, t.arena.free entry n = .ok t'.arena := by
  rw [erase] at h
  obtain ⟨slot, -, h⟩ := bind_ok_iff.mp h
  obtain ⟨head, -, h⟩ := bind_ok_iff.mp h
  obtain ⟨t₁, hvacate, h⟩ := bind_ok_iff.mp h
  obtain ⟨slots, -, h⟩ := bind_ok_iff.mp h
  obtain ⟨arena, hfree, h⟩ := bind_ok_iff.mp h
  obtain ⟨len, -, h⟩ := bind_ok_iff.mp h
  rw [vacate_arena hvacate] at hfree
  exact ⟨_, _, hfree.trans (congrArg _ (retime_arena h).symm)⟩

theorem lookup_strands {now : UInt32} {found : Option (Nat × Ref × Entry.Head)} {granted : Bool} {size : Nat}
    (h : t.lookup imp key (Hash.hash key t.seed) now = .ok (found, t'))
    (hstrands : Arena.Strands p granted t'.arena size) : Arena.Strands p granted t.arena size := by
  rw [lookup] at h
  obtain ⟨hit, -, h⟩ := bind_ok_iff.mp h
  cases hit with
  | none =>
    cases h
    exact hstrands
  | some hit =>
    obtain ⟨slot, -, h⟩ := bind_ok_iff.mp h
    obtain ⟨expiry, -, h⟩ := bind_ok_iff.mp h
    split at h
    · obtain ⟨t₁, herase, h⟩ := bind_ok_iff.mp h
      cases h
      obtain ⟨entry, n, hfree⟩ := erase_free herase
      exact hstrands.of_free hfree
    · cases h
      exact hstrands

theorem view_strands {now : UInt32} {r : Option Entry.View} {granted : Bool} {size : Nat}
    (h : t.view imp key (Hash.hash key t.seed) now = .ok (r, t'))
    (hstrands : Arena.Strands p granted t'.arena size) : Arena.Strands p granted t.arena size := by
  rw [view] at h
  obtain ⟨⟨found, t₁⟩, hlookup, h⟩ := bind_ok_iff.mp h
  cases found with
  | none =>
    cases h
    exact lookup_strands hlookup hstrands
  | some hit =>
    obtain ⟨bytes, -, h⟩ := bind_ok_iff.mp h
    obtain ⟨view, -, h⟩ := bind_ok_iff.mp h
    cases h
    exact lookup_strands hlookup hstrands

/-! ## A refused operation -/

theorem put_refused {granted : Bool} {value : List UInt8} {hash : UInt64} {expiry userFlags : Option UInt32}
    {full : Full}
    (h : t.put imp p granted budget key value hash expiry userFlags = .ok (.error full, t')) :
    t.set imp p granted key value hash expiry userFlags = .ok (.error full, t') := by
  rw [put] at h
  obtain ⟨⟨res, t₁⟩, hset, h⟩ := bind_ok_iff.mp h
  cases res with
  | error full' =>
    cases h
    exact hset
  | ok wrote =>
    obtain ⟨t₂, -, h⟩ := bind_ok_iff.mp h
    cases h

theorem IsCache.put_refused (h : IsCache imp t m) {granted : Bool} {value : List UInt8}
    {expiry userFlags : Option UInt32} {full : Full}
    (hput : t.put imp p granted budget key value (Hash.hash key t.seed) expiry userFlags = .ok (.error full, t'))
    (hkeeps : ∀ size, ¬ Arena.Strands p granted t.arena size) : IsCache imp t' m := by
  have hset := Table.put_refused hput
  have hperform : t.perform imp p (.set key value expiry userFlags granted) = .ok (.error full, t') := by
    rw [perform, hset]
    rfl
  exact h.refused_ok hperform hkeeps

theorem IsCache.serve_refused (h : IsCache imp t m) {op : KeyOp} {a : op.Answer}
    (hserve : op.serve imp p sky budget t key (Hash.hash key t.seed) = .ok (a, t')) (hrefused : op.Refused a)
    (hkeeps : ∀ size, ¬ Arena.Strands p sky.granted t.arena size) :
    t'.seed = t.seed ∧ ∃ kept, IsCache imp t' (Function.update m key kept) := by
  have hseed : t'.seed = t.seed := by
    have hserved := h.serve_ok p sky budget key op
    rw [hserve] at hserved
    cases hserved with
    | answered _ hseed _ _ _ => exact hseed
    | refused _ hseed => exact hseed
  obtain ⟨t₁, hseed₁, h₁, -, hview, -⟩ := h.reads_ok key sky.now
  -- a look at the key gives the arena nothing that can be stranded
  have hkeeps₁ : ∀ size, ¬ Arena.Strands p sky.granted t₁.arena size := by
    intro size hstrands
    exact hkeeps size (view_strands hview hstrands)
  have hsame : Function.update m key (m key) = m := Function.update_eq_self key m
  refine ⟨hseed, ?_⟩
  cases op with
  | set value expiry userFlags =>
    obtain ⟨full, rfl⟩ := hrefused
    exact ⟨m key, hsame.symm ▸ h.put_refused hserve hkeeps⟩
  | setWhen value when_ expiry userFlags =>
    obtain ⟨full, rfl⟩ := hrefused
    rw [KeyOp.serve, putWhen, hview, ok_bind] at hserve
    simp only at hserve
    split at hserve
    · cases hserve
    · obtain ⟨⟨res, t₂⟩, hput, hserve⟩ := bind_ok_iff.mp hserve
      cases res with
      | ok wrote => cases hserve
      | error full' =>
        cases hserve
        rw [← hseed₁] at hput
        exact ⟨_, h₁.put_refused hput hkeeps₁⟩
  | expire expiry =>
    obtain ⟨full, rfl⟩ := hrefused
    have hperform : t.perform imp p (.expire key expiry sky.now sky.granted) = .ok (.error full, t') := by
      rw [perform, show t.expire imp p sky.granted key _ expiry sky.now = _ from hserve]
      rfl
    exact ⟨m key, hsame.symm ▸ h.refused_ok hperform hkeeps⟩
  | increment by_ =>
    obtain rfl : a = .error .full := hrefused
    rw [KeyOp.serve, increment, hview, ok_bind] at hserve
    simp only at hserve
    split at hserve
    · cases hserve
    · split at hserve
      · cases hserve
      · obtain ⟨⟨res, t₂⟩, hput, hserve⟩ := bind_ok_iff.mp hserve
        cases res with
        | ok wrote => cases hserve
        | error full' =>
          cases hserve
          rw [← hseed₁] at hput
          exact ⟨_, h₁.put_refused hput hkeeps₁⟩
  | _ => exact False.elim hrefused

end Table

/-! ## Every step of a map -/

namespace Cache

def less (m : Cache) (gone : List (List UInt8)) : Cache := fun key => if key ∈ gone then none else m key

theorem less_nil (m : Cache) : m.less [] = m := by
  funext key
  exact if_neg List.not_mem_nil

theorem less_less (m : Cache) (gone gone' : List (List UInt8)) : (m.less gone).less gone' = m.less (gone ++ gone') := by
  funext key
  rw [less, less, less]
  by_cases hgone : key ∈ gone
  · rw [if_pos hgone, if_pos (List.mem_append_left _ hgone), ite_self]
  · simp [hgone]

/-- These keys are stored, and have expired. -/
def Lapsed (m : Cache) (now : UInt32) (keys : List (List UInt8)) : Prop :=
  keys.Nodup ∧ ∀ key ∈ keys, ∃ kept, m key = some kept ∧ Table.passed kept.expiry now = true

end Cache

namespace Map
variable {imp : Imp} {p : Platform} {sky : Sky} {map map' : Map} {m : Cache}

theorem withKey_eq_ok {A : Type} {hash : UInt64} {each : Table → Exec (A × Table)} {a : A}
    (h : map.withKey hash each = .ok (a, map')) :
    ∃ shard t', map.shards[map.shardOf hash]? = some shard ∧ each shard.table = .ok (a, t') ∧
      map' = { map with shards := map.shards.set (map.shardOf hash) (shard.publish t') } := by
  rw [withKey] at h
  obtain ⟨shard, hshard, h⟩ := bind_ok_iff.mp h
  obtain ⟨⟨out, t'⟩, heach, h⟩ := bind_ok_iff.mp h
  obtain ⟨shards, hupdate, h⟩ := bind_ok_iff.mp h
  obtain ⟨-, rfl⟩ := update_eq_ok.mp hupdate
  cases h
  exact ⟨shard, t', index_eq_ok.mp hshard, heach, rfl⟩

def Op.Elsewhere (key : List UInt8) : Op → Prop
  | .key other _ => key ≠ other
  | .clear => False
  | _ => True

/-- An operation that is refused leaves a map in good order, and the other keys as they were. -/
theorem IsCache.perform_refused (h : map.IsCache imp m) {op : Op} {a : op.Answer}
    (hperform : map.perform imp p sky op = .ok (a, map')) (hrefused : op.Refused a)
    (hkeeps : ∀ shard ∈ map.shards, ∀ size, ¬ Arena.Strands p sky.granted shard.table.arena size) :
    map.Alike map' ∧ ∃ m', map'.IsCache imp m' ∧
      (map.shardBudget = 0 → ∀ key, op.Elsewhere key → m' key = m key) := by
  cases op with
  | key key op =>
    rw [perform_key] at hperform
    obtain ⟨shard, t', hshard, hserve, -⟩ := withKey_eq_ok hperform
    have hholds := h.shards _ shard hshard
    rw [Map.hash, ← hholds.seed] at hserve
    obtain ⟨hseed, kept, his⟩ :=
      hholds.table.serve_refused hserve hrefused (hkeeps shard (List.mem_of_getElem? hshard))
    have hserved : Served imp map m key (fun _ => False) (some (a, kept)) (map.withKey (map.hash key) fun table =>
        op.serve imp p sky map.shardBudget table key (map.hash key)) := by
      apply h.withKey_shard key
      intro shard' hshard' _
      obtain rfl : shard = shard' := Option.some.inj (hshard.symm.trans hshard')
      rw [Map.hash, ← hholds.seed, hserve]
      exact .answered rfl hseed (.refl _) (fun _ => rfl) his
    rw [hperform] at hserved
    cases hserved with
    | answered _ halike _ hnone his' =>
      refine ⟨halike, _, his', ?_⟩
      intro hbudget other hother
      rw [hnone hbudget, Function.update_of_ne hother]
    | refused hfalse _ => exact False.elim hfalse
  | _ => exact False.elim hrefused

theorem IsCache.perform_answered (h : map.IsCache imp m) {op : Op} {a : op.Answer}
    (hperform : map.perform imp p sky op = .ok (a, map')) (hgranted : ¬ op.Refused a) :
    map.Alike map' ∧ ∃ m', map'.IsCache imp m' ∧
      (map.shardBudget = 0 → ∀ key, op.Elsewhere key → m' key = m key) := by
  cases op with
  | key key op =>
    have hserved := h.perform_key_ok p sky key op
    rw [hperform] at hserved
    cases hserved with
    | answered _ halike _ hnone his' =>
      refine ⟨halike, _, his', ?_⟩
      intro hbudget other hother
      rw [hnone hbudget, Function.update_of_ne hother]
    | refused hrefused _ => exact absurd hrefused hgranted
  | clear =>
    obtain ⟨map₁, hclear, halike, his⟩ := h.clear_ok
    rw [perform, hclear] at hperform
    cases hperform
    exact ⟨halike, _, his, fun _ _ hother => False.elim hother⟩
  | _ =>
    cases hperform
    exact ⟨.refl map, m, h, fun _ _ _ => rfl⟩

/-! ## Sweeps -/

end Map

/-- One shard of `sweep`. -/
def Shard.sweep (imp : Imp) (now : UInt32) (budget : Nat) (shard : Shard) : Exec (Nat × Shard) := do
  let ((next, removed), table) ← shard.table.sweep imp shard.sweepAt budget now
  let table ← if removed > 0 then do
      let (_, table) ← table.shrink imp
      pure table
    else pure table
  pure (removed, { shard.publish table with sweepAt := next })

namespace Map
variable {imp : Imp} {p : Platform} {sky : Sky} {map map' : Map} {m : Cache}

theorem sweep_eq (imp : Imp) (sky : Sky) (map : Map) (budget : Nat) : map.sweep imp sky budget = (do
    let shard ← index map.shards (map.sweepShard % map.shards.length)
    let (removed, shard) ← shard.sweep imp sky.now budget
    let shards ← update map.shards (map.sweepShard % map.shards.length) shard
    pure (removed, { map with shards, sweepShard := map.sweepShard + 1 })) := by
  simp only [sweep, Shard.sweep, bind_assoc]
  apply congrArg
  funext shard
  apply congrArg
  funext ⟨⟨next, removed⟩, table⟩
  simp only
  split
  · simp only [bind_assoc, pure_bind]
  · simp only [pure_bind]

theorem Holds.sweep_ok {shard : Shard} {part : Cache} (h : map.Holds imp shard part) (now : UInt32) (budget : Nat) :
    ∃ gone shard', shard.sweep imp now budget = .ok (gone.length, shard') ∧ part.Lapsed now gone ∧
      map.Holds imp shard' (part.less gone) := by
  obtain ⟨r, t₁, hperform, hseed, hall⟩ := h.table.answers .boxed (.sweep shard.sweepAt budget now) trivial
  rw [Table.perform] at hperform
  obtain ⟨⟨⟨next, removed⟩, t₂⟩, hsweep, hpure⟩ := bind_ok_iff.mp hperform
  cases hpure
  obtain ⟨part', hdoes, h₁⟩ := hall _ rfl
  cases hdoes with
  | @sweep _ _ _ _ gone hnodup hgone =>
    obtain ⟨b, t₂, hshrink, hseed', h₂⟩ := h₁.shrink_ok
    rw [Shard.sweep, hsweep, ok_bind]
    by_cases hsome : gone.length > 0
    · refine ⟨gone, { shard.publish t₂ with sweepAt := next }, ?_, ⟨hnodup, hgone⟩, ?_⟩
      · simp only [if_pos hsome, hshrink, ok_bind, pure_ok]
      · exact ⟨(hseed'.trans hseed).trans h.seed, rfl, rfl, h₂⟩
    · refine ⟨gone, { shard.publish t₁ with sweepAt := next }, ?_, ⟨hnodup, hgone⟩, ?_⟩
      · simp only [if_neg hsome, ok_bind, pure_ok]
      · exact ⟨hseed.trans h.seed, rfl, rfl, h₁⟩

/-- The map once a sweep has visited a shard. -/
def visited (map : Map) (shard : Shard) : Map :=
  { map with
    shards := map.shards.set (map.sweepShard % map.shards.length) shard
    sweepShard := map.sweepShard + 1 }

theorem visited_alike (map : Map) (shard : Shard) : map.Alike (map.visited shard) :=
  ⟨List.length_set, rfl, rfl, rfl⟩

theorem Shaped.length_pos (h : map.Shaped) : 0 < map.shards.length := by
  obtain ⟨k, -, hlen, -⟩ := h
  rw [hlen]
  exact Nat.two_pow_pos k

theorem part_less {home : List UInt8 → Nat} {gone : List (List UInt8)} {i : Nat} {now : UInt32}
    (h : (m.part home i).Lapsed now gone) :
    m.Lapsed now gone ∧ ((m.less gone).part home i = (m.part home i).less gone) ∧
      ∀ j ≠ i, (m.less gone).part home j = m.part home j := by
  have hhome : ∀ key ∈ gone, home key = i ∧ ∃ kept, m key = some kept ∧ Table.passed kept.expiry now = true := by
    intro key hkey
    obtain ⟨kept, hkept, hpassed⟩ := h.2 key hkey
    rw [Cache.part] at hkept
    split at hkept
    · next heq => exact ⟨heq, kept, hkept, hpassed⟩
    · cases hkept
  refine ⟨⟨h.1, fun key hkey => (hhome key hkey).2⟩, ?_, ?_⟩
  · funext key
    rw [Cache.part, Cache.less, Cache.less, Cache.part]
    split <;> split <;> rfl
  · intro j hj
    funext key
    rw [Cache.part, Cache.part, Cache.less]
    by_cases hkey : key ∈ gone
    · have hne : home key ≠ j := by
        intro heq
        exact hj (heq.symm.trans (hhome key hkey).1)
      rw [if_neg hne, if_neg hne]
    · rw [if_neg hkey]

theorem IsCache.lapsed (h : map.IsCache imp m) {i : Nat} {shard shard' : Shard} {now : UInt32}
    {gone : List (List UInt8)} (hshard : map.shards[i]? = some shard) (hlapsed : (m.part map.home i).Lapsed now gone)
    (hholds : map.Holds imp shard' ((m.part map.home i).less gone)) (halike : map.Alike map')
    (hshards : map'.shards = map.shards.set i shard') : m.Lapsed now gone ∧ map'.IsCache imp (m.less gone) := by
  obtain ⟨hlapsed', hown, hothers⟩ := part_less hlapsed
  refine ⟨hlapsed', halike.shaped h.shaped, ?_⟩
  intro j other hj
  rw [halike.home]
  rw [hshards] at hj
  by_cases heq : i = j
  · rw [← heq, List.getElem?_set_self (List.getElem?_eq_some_iff.mp hshard).1] at hj
    cases hj
    rw [← heq, hown]
    exact hholds.alike halike
  · rw [List.getElem?_set_ne heq] at hj
    rw [hothers j (Ne.symm heq)]
    exact (h.shards j other hj).alike halike

/-- A sweep visits one shard, and leaves of the map what has not gone. -/
theorem IsCache.sweep_ok (h : map.IsCache imp m) (sky : Sky) (budget : Nat) :
    ∃ gone shard shard', map.shards[map.sweepShard % map.shards.length]? = some shard ∧
      shard.sweep imp sky.now budget = .ok (gone.length, shard') ∧
      map.sweep imp sky budget = .ok (gone.length, map.visited shard') ∧
      m.Lapsed sky.now gone ∧ (map.visited shard').IsCache imp (m.less gone) := by
  have hlt : map.sweepShard % map.shards.length < map.shards.length := Nat.mod_lt _ h.shaped.length_pos
  have hget := List.getElem?_eq_getElem hlt
  generalize map.shards[map.sweepShard % map.shards.length] = shard at hget
  obtain ⟨gone, shard', hsweep, hlapsed, hholds⟩ := (h.shards _ shard hget).sweep_ok sky.now budget
  refine ⟨gone, shard, shard', hget, hsweep, ?_, h.lapsed hget hlapsed hholds (map.visited_alike shard') rfl⟩
  rw [sweep_eq, index_of_getElem? hget]
  simp only [ok_bind, hsweep, update_ok hlt, pure_ok]
  rfl

/-! ## Runs -/

/-- What is done to a map, and what it answers. -/
inductive Act where
  | op (did : Did)
  | sweep (sky : Sky) (budget removed : Nat)

def Returns (imp : Imp) (p : Platform) (map : Map) : Act → Map → Prop
  | .op did, map' => map.perform imp p did.sky did.op = .ok (did.answer, map')
  | .sweep sky budget removed, map' => map.sweep imp sky budget = .ok (removed, map')

/-- A step that is not refused, or is refused without a tail being stranded. -/
def Unstranded (p : Platform) (map : Map) : Act → Prop
  | .op did => did.op.Refused did.answer →
      ∀ shard ∈ map.shards, ∀ size, ¬ Arena.Strands p did.sky.granted shard.table.arena size
  | .sweep .. => True

/-- What the clock reads meanwhile. -/
def Act.now : Act → UInt32
  | .op did => did.sky.now
  | .sweep sky .. => sky.now

def Act.Elsewhere (key : List UInt8) : Act → Prop
  | .op did => did.op.Elsewhere key
  | .sweep .. => True

/-- A step leaves a map in good order; and where there is no ceiling the keys it is not on are
as they were, but for one that has expired and is swept. -/
theorem IsCache.goes (h : map.IsCache imp m) {act : Act} (hgoes : Returns imp p map act map')
    (hkeeps : Unstranded p map act) :
    map.Alike map' ∧ ∃ m', map'.IsCache imp m' ∧ (map.shardBudget = 0 → ∀ key, act.Elsewhere key → m' key = m key ∨
      ∃ kept, m key = some kept ∧ Table.passed kept.expiry act.now = true) := by
  cases act with
  | op did =>
    have hdid : map.Alike map' ∧ ∃ m', map'.IsCache imp m' ∧
        (map.shardBudget = 0 → ∀ key, did.op.Elsewhere key → m' key = m key) := by
      by_cases hrefused : did.op.Refused did.answer
      · exact h.perform_refused hgoes hrefused (hkeeps hrefused)
      · exact h.perform_answered hgoes hrefused
    obtain ⟨halike, m', his, hsame⟩ := hdid
    exact ⟨halike, m', his, fun hbudget key hkey => .inl (hsame hbudget key hkey)⟩
  | sweep sky budget removed =>
    obtain ⟨gone, shard, shard', -, -, hsweep, hlapsed, his⟩ := h.sweep_ok sky budget
    rw [Returns, hsweep] at hgoes
    cases hgoes
    refine ⟨map.visited_alike shard', _, his, ?_⟩
    intro _ key _
    by_cases hgone : key ∈ gone
    · exact .inr (hlapsed.2 key hgone)
    · exact .inl (if_neg hgone)

/-- Every map that is reached is some cache. -/
theorem reached_is {shards maxmemory : Nat} {seed : UInt64} {tr : List (Map × Act × Map)}
    (h : Run (Returns imp p) (withSeed shards maxmemory seed) tr map) (hkeeps : ∀ x ∈ tr, Unstranded p x.1 x.2.1) :
    (withSeed shards maxmemory seed).Alike map ∧ ∃ m, map.IsCache imp m := by
  have hstep : ∀ (map₁ : Map) (act : Act) (map₂ : Map),
      ((withSeed shards maxmemory seed).Alike map₁ ∧ ∃ m, map₁.IsCache imp m) → Unstranded p map₁ act →
      Returns imp p map₁ act map₂ → (withSeed shards maxmemory seed).Alike map₂ ∧ ∃ m, map₂.IsCache imp m := by
    intro map₁ act map₂ ⟨halike, m, his⟩ hact hgoes
    obtain ⟨halike', m', his', -⟩ := his.goes hgoes hact
    exact ⟨halike.trans halike', m', his'⟩
  exact (h.invariant ⟨.refl _, _, is_withSeed imp shards maxmemory seed⟩ hstep hkeeps).1

/-! ## What is stored -/

def stored (imp : Imp) (map : Map) (key : List UInt8) : Exec (Option Kept) := do
  let shard ← index map.shards (map.home key)
  shard.table.stored imp key

/-- The map stores what the cache keeps. -/
def Stores (imp : Imp) (map : Map) (m : Cache) : Prop := ∀ key, map.stored imp key = .ok (m key)

theorem Stores.read {key : List UInt8} {held : Option Kept} (h : map.Stores imp m)
    (hstored : map.stored imp key = .ok held) : m key = held := Except.ok.inj ((h key).symm.trans hstored)

theorem IsCache.stores (h : map.IsCache imp m) : map.Stores imp m := by
  intro key
  have hlt := h.shaped.home_lt key
  have hholds := h.shards _ _ (List.getElem?_eq_getElem hlt)
  rw [stored, index_ok hlt, ok_bind, hholds.table.stores key]
  exact congrArg _ (if_pos rfl)

end Map
end Rugo
