import Rugo.MapSteps
import Rugo.Lib.Runs

/- Runs of a map.

     1. `shards_invisible`: two maps without a ceiling, however many shards they
        have and however they are seeded, answer the same operations the same. -/
namespace Rugo
open Exec Runs Arena

namespace Map
variable {imp : Imp} {map : Map} {m : Cache}

/-! ## A map that was just made -/

theorem shardCount_eq (shards : Nat) : ∃ k ≤ 12, shardCount shards = 2 ^ k := by
  rw [shardCount, nextPowerOfTwo]
  have hmax : maxShards = 2 ^ 12 := rfl
  split
  · exact ⟨0, Nat.zero_le _, rfl⟩
  · next hmany =>
    refine ⟨_, ?_, rfl⟩
    have hne : min (max shards 1) maxShards - 1 ≠ 0 := by omega
    have hlt := (Nat.log2_lt hne (k := 12)).mpr (by omega)
    omega

theorem is_withSeed (imp : Imp) (shards maxmemory : Nat) (seed : UInt64) :
    (withSeed shards maxmemory seed).IsCache imp (fun _ => none) := by
  obtain ⟨k, hk, hcount⟩ := shardCount_eq shards
  refine ⟨⟨k, hk, ?_, ?_⟩, ?_⟩
  · rw [withSeed, List.length_replicate, hcount]
  · rw [withSeed, hcount, Nat.log2_two_pow]
  · intro i shard hi
    have hshard : shard = ⟨Table.new seed, 0, 0, 0⟩ := List.eq_of_mem_replicate (List.mem_of_getElem? hi)
    have hpart : Cache.part (fun _ => none) (withSeed shards maxmemory seed).home i = fun _ => none := by
      funext key
      rw [Cache.part, ite_self]
    rw [hpart, hshard]
    exact ⟨rfl, rfl, rfl, Table.is_new imp seed⟩

/-! ## Two maps -/

/-- An operation, what it could not know, and its answer. -/
structure Did where
  sky : Sky
  op : Op
  answer : op.Answer

namespace Did

def asked (d : Did) : Op × UInt32 := (d.op, d.sky.now)

def told (d : Did) : (op : Op) × op.Answer := ⟨d.op, d.answer⟩

end Did

/-- An operation that is answered, and not refused memory. -/
def Fulfils (imp : Imp) (p : Platform) (map : Map) (d : Did) (map' : Map) : Prop :=
  map.perform imp p d.sky d.op = .ok (d.answer, map') ∧ ¬ d.op.Refused d.answer

def Serves (m : Cache) (d : Did) (m' : Cache) : Prop := m.Serves d.sky.now d.op d.answer m'

/-- A run of a map without a ceiling is one of its cache. -/
theorem Fulfils.run {p : Platform} {shards : Nat} {seed : UInt64} {tr : List (Map × Did × Map)}
    (h : Run (Fulfils imp p) (withSeed shards 0 seed) tr map) :
    ∃ ctr m, Run Serves (fun _ => none) ctr m ∧ map.IsCache imp m ∧ map.shardBudget = 0 ∧
      ctr.map (fun x => x.2.1) = tr.map fun x => x.2.1 := by
  have hstep : ∀ (map : Map) (m : Cache) (d : Did) (map' : Map), (map.IsCache imp m ∧ map.shardBudget = 0) → True →
      Fulfils imp p map d map' → ∃ m', Serves m d m' ∧ map'.IsCache imp m' ∧ map'.shardBudget = 0 := by
    intro map m d map' ⟨his, hbudget⟩ _ ⟨hperform, hgranted⟩
    obtain ⟨a, map'', hperform', halike, hall⟩ | ⟨⟨e, hpanic⟩, -⟩ := his.perform_ok hbudget p d.sky d.op
    · rw [hperform] at hperform'
      cases hperform'
      obtain hrefused | ⟨m', hserves, his'⟩ := hall
      · exact absurd hrefused hgranted
      · exact ⟨m', hserves, his', halike.budget.trans hbudget⟩
    · rw [hperform] at hpanic
      cases hpanic
  have hbudget : (withSeed shards 0 seed).shardBudget = 0 := Nat.zero_div _
  obtain ⟨ctr, m, hrun, ⟨his, hzero⟩, hlabels⟩ :=
    h.simulates (C := fun _ _ => True) ⟨is_withSeed imp shards 0 seed, hbudget⟩ hstep (fun _ _ => trivial)
  exact ⟨ctr, m, hrun, his, hzero, hlabels⟩

theorem serves_unique (m : Cache) (d d' : Did) (m₁ m₂ : Cache) (h : Serves m d m₁) (h' : Serves m d' m₂)
    (hasked : d.asked = d'.asked) : d.told = d'.told ∧ m₁ = m₂ := by
  obtain ⟨⟨now, granted⟩, op, a⟩ := d
  obtain ⟨⟨now', granted'⟩, op', a'⟩ := d'
  rw [Did.asked, Did.asked, Prod.mk.injEq] at hasked
  obtain ⟨rfl, rfl⟩ := hasked
  obtain ⟨rfl, rfl⟩ := Cache.Serves.unique h h'
  exact ⟨rfl, rfl⟩

/-- Two maps without a ceiling, asked the same at the same readings of the clock:
the answers are the same, so are the lengths, and what one answers next the other
does, unless it is refused the memory. -/
theorem shards_invisible (imp imp' : Imp) (p p' : Platform) (shards shards' : Nat) (seed seed' : UInt64)
    {tr tr' : List (Map × Did × Map)} {map map' : Map}
    (h : Run (Fulfils imp p) (withSeed shards 0 seed) tr map)
    (h' : Run (Fulfils imp' p') (withSeed shards' 0 seed') tr' map')
    (hasked : (tr.map fun x => x.2.1.asked) = tr'.map fun x => x.2.1.asked) :
    (tr.map fun x => x.2.1.told) = (tr'.map fun x => x.2.1.told) ∧ map.len = map'.len ∧
    ∀ (sky sky' : Sky) (op : Op) (a : op.Answer) (after : Map), sky.now = sky'.now →
      map.perform imp p sky op = .ok (a, after) → ¬ op.Refused a →
      ∃ b after', map'.perform imp' p' sky' op = .ok (b, after') ∧ (op.Refused b ∨ b = a) := by
  obtain ⟨ctr, m, hrun, his, hbudget, hlabels⟩ := Fulfils.run h
  obtain ⟨ctr', m', hrun', his', hbudget', hlabels'⟩ := Fulfils.run h'
  have hread : ∀ {γ : Type} (f : Did → γ) {l : List (Cache × Did × Cache)} {l' : List (Map × Did × Map)},
      l.map (fun x => x.2.1) = l'.map (fun x => x.2.1) → (l.map fun x => f x.2.1) = l'.map fun x => f x.2.1 := by
    intro γ f l l' heq
    have hmap := congrArg (List.map f) heq
    rw [List.map_map, List.map_map] at hmap
    exact hmap
  have hinp : (ctr.map fun x => x.2.1.asked) = ctr'.map fun x => x.2.1.asked := by
    rw [hread Did.asked hlabels, hread Did.asked hlabels', hasked]
  -- one cache serves both, and what it is asked decides what it tells
  obtain ⟨htold, rfl⟩ := hrun.agree serves_unique hrun' hinp
  rw [hread Did.told hlabels, hread Did.told hlabels'] at htold
  refine ⟨htold, his.counts.unique his'.counts, ?_⟩
  intro sky sky' op a after hnow hperform hgranted
  obtain ⟨a₁, after₁, hperform₁, -, hall⟩ | ⟨⟨e, hpanic⟩, -⟩ := his.perform_ok hbudget p sky op
  · rw [hperform] at hperform₁
    cases hperform₁
    obtain hrefused | ⟨m₁, hserves, -⟩ := hall
    · exact absurd hrefused hgranted
    · rw [hnow] at hserves
      obtain ⟨b, after', hperform', -, hall'⟩ | ⟨-, hno⟩ := his'.perform_ok hbudget' p' sky' op
      · refine ⟨b, after', hperform', ?_⟩
        obtain hrefused | ⟨m₂, hserves', -⟩ := hall'
        · exact .inl hrefused
        · exact .inr (hserves'.unique hserves).1
      · exact absurd hserves (hno a m₁)
  · rw [hperform] at hpanic
    cases hpanic

/-- A counter is set and counted up, and a second key is set. -/
def errands : List Op := [.key [7] (.set [52, 49] none none), .key [7] (.increment 1),
    .key [8] (.set [1] (some 9) none)]

/-- What they answer, and how many keys are left. -/
def errand (imp : Imp) (p : Platform) (map : Map) : Exec (Bool × Option Int × Bool × Nat) := do
  let (a, map) ← map.perform imp p ⟨3, true⟩ (.key [7] (.set [52, 49] none none))
  let (b, map) ← map.perform imp p ⟨3, true⟩ (.key [7] (.increment 1))
  let (c, map) ← map.perform imp p ⟨3, true⟩ (.key [8] (.set [1] (some 9) none))
  pure (Except.isOk a, Except.toOption b, Except.isOk c, map.len)

theorem Fulfils.of_set {p : Platform} {sky : Sky} {key value : List UInt8} {expiry userFlags : Option UInt32}
    {a : Except Full Wrote} {map' : Map} (h : map.perform imp p sky (.key key (.set value expiry userFlags)) =
      .ok (a, map'))
    (ha : a.isOk = true) : Fulfils imp p map ⟨sky, .key key (.set value expiry userFlags), a⟩ map' := by
  refine ⟨h, ?_⟩
  rintro ⟨full, hfull⟩
  rw [show a = .error full from hfull] at ha
  cases ha

theorem errands_run {p : Platform} {map₀ : Map} (h : map₀.errand imp p = .ok (true, some 42, true, 2)) :
    ∃ tr map, Run (Fulfils imp p) map₀ tr map ∧
      (tr.map fun x => x.2.1.asked) = errands.map (fun op => (op, 3)) ∧ map.len = 2 := by
  rw [errand] at h
  obtain ⟨⟨a, m₁⟩, h₁, h⟩ := bind_ok_iff.mp h
  obtain ⟨⟨b, m₂⟩, h₂, h⟩ := bind_ok_iff.mp h
  obtain ⟨⟨c, m₃⟩, h₃, h⟩ := bind_ok_iff.mp h
  simp only [pure_ok, Except.ok.injEq, Prod.mk.injEq] at h
  obtain ⟨ha, hb, hc, hlen⟩ := h
  have hd₂ : Fulfils imp p m₁ ⟨⟨3, true⟩, .key [7] (.increment 1), b⟩ m₂ := by
    refine ⟨h₂, ?_⟩
    intro hrefused
    rw [show b = .error .full from hrefused] at hb
    cases hb
  exact ⟨_, m₃, ((Run.single (Fulfils.of_set h₁ ha)).snoc hd₂).snoc (Fulfils.of_set h₃ hc), rfl, hlen⟩

/-- One shard, and sixty-four. -/
theorem shards_invisible_errands : ∃ tr tr' map map',
    Run (Fulfils .sse2 .boxed) (withSeed 1 0 3) tr map ∧ Run (Fulfils .word .boxed) (withSeed 64 0 5) tr' map' ∧
    (tr.map fun x => x.2.1.asked) = errands.map (fun op => (op, 3)) ∧
    (tr.map fun x => x.2.1.told) = (tr'.map fun x => x.2.1.told) ∧ map.len = 2 ∧ map'.len = 2 := by
  have herrand : (withSeed 1 0 3).errand .sse2 .boxed = .ok (true, some 42, true, 2) ∧
      (withSeed 64 0 5).errand .word .boxed = .ok (true, some 42, true, 2) := by
    decide +kernel
  obtain ⟨tr, map, hrun, hasked, hlen⟩ := errands_run herrand.1
  obtain ⟨tr', map', hrun', hasked', hlen'⟩ := errands_run herrand.2
  obtain ⟨htold, heq, -⟩ := shards_invisible .sse2 .word .boxed .boxed 1 64 3 5 hrun hrun' (hasked.trans hasked'.symm)
  exact ⟨tr, tr', map, map', hrun, hrun', hasked, htold, hlen, heq.symm.trans hlen⟩

end Map
end Rugo
