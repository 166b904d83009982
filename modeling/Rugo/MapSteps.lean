import Rugo.Map
import Rugo.TableRuns

/- What an operation does to one key. `onKept` reads it off the operation: from
   what is kept under the key to the answer and what is kept there after, or
   nothing where the entry to be written cannot be described. A table serves an
   operation as its cache is told to, less whatever eviction takes. -/
namespace Rugo
open Exec

namespace Kept

/-- What is kept and has not expired. -/
def live (now : UInt32) (held : Option Kept) : Option Kept := held.filter fun kept => !Table.passed kept.expiry now

end Kept

/-- Whether an entry's header can describe what is kept under `key`. -/
def Fits (key : List UInt8) (kept : Kept) : Prop := Entry.Short (kept.view key)

instance (key : List UInt8) (kept : Kept) : Decidable (Fits key kept) :=
  inferInstanceAs (Decidable (_ ∧ _))

/-- The entry written over what was held, and the answer to that. -/
def writes {A : Type} (key : List UInt8) (kept : Kept) (answer : A) : Option (A × Option Kept) :=
  if Fits key kept then some (answer, some kept) else none

/-- What a write reports. -/
def wroteOver (held : Option Kept) : Wrote := if held.isSome then .replaced else .inserted

/-- What an operation answers and leaves, where this is held under the key. -/
def KeyOp.onKept (key : List UInt8) (now : UInt32) (held : Option Kept) :
    (op : KeyOp) → Option (op.Answer × Option Kept)
  | .get => some ((Kept.live now held).map Kept.value, Kept.live now held)
  | .view => some ((Kept.live now held).map fun kept => kept.view key, Kept.live now held)
  | .contains => some ((Kept.live now held).isSome, Kept.live now held)
  | .set value expiry userFlags => writes key ⟨value, expiry, userFlags⟩ (.ok (wroteOver held))
  | .setWhen value when_ expiry userFlags =>
    if when_.refuses (Kept.live now held).isSome then some (.ok none, Kept.live now held)
    else writes key ⟨value, expiry.over ((Kept.live now held).map Kept.expiry), userFlags⟩
      (.ok (some (wroteOver (Kept.live now held))))
  | .expire expiry =>
    some (.ok (Kept.live now held).isSome, (Kept.live now held).map fun kept => { kept with expiry })
  | .deadline => some ((Kept.live now held).map Kept.expiry, Kept.live now held)
  | .increment by_ =>
    match Table.counted ((Kept.live now held).map fun kept => kept.view key) with
    | none => some (.error .notANumber, Kept.live now held)
    | some (current, expiry, userFlags) =>
      match Signed.checkedAdd current by_ with
      | none => some (.error .outOfRange, Kept.live now held)
      | some next => writes key ⟨digits next, expiry, userFlags⟩ (.ok next)
  | .remove => some (held.isSome, none)

namespace Cache

/-- A cache that has lost some of its keys, and nothing else. -/
def Below (m' m : Cache) : Prop := ∀ key, m' key = none ∨ m' key = m key

theorem Below.refl (m : Cache) : m.Below m := fun _ => .inr rfl

theorem Below.trans {m m' m'' : Cache} (h : m''.Below m') (h' : m'.Below m) : m''.Below m := by
  intro key
  obtain hnone | heq := h key
  · exact .inl hnone
  · rw [heq]
    exact h' key

theorem below_update (m : Cache) (key : List UInt8) : Below (Function.update m key none) m := by
  intro other
  by_cases heq : other = key
  · rw [heq]
    exact .inl (Function.update_self ..)
  · exact .inr (Function.update_of_ne heq ..)

theorem settle_eq (m : Cache) (key : List UInt8) (now : UInt32) :
    m.settle key now = Function.update m key (Kept.live now (m key)) := by
  have hread : m.read key now = Kept.live now (m key) := rfl
  rw [settle, hread]
  cases hlive : Kept.live now (m key) with
  | none => rfl
  | some kept =>
    have hkept : m key = some kept := (Option.filter_eq_some_iff.mp hlive).1
    rw [if_pos (by rfl), ← hkept]
    exact (Function.update_eq_self key m).symm

end Cache

/-! ## One table -/

namespace Table
variable {imp : Imp} {t : Table} {m : Cache}

theorem IsCache.reads_ok (h : IsCache imp t m) (key : List UInt8) (now : UInt32) :
    ∃ t', t'.seed = t.seed ∧ IsCache imp t' (Function.update m key (Kept.live now (m key))) ∧
      t.get imp key (Hash.hash key t.seed) now = .ok ((Kept.live now (m key)).map Kept.value, t') ∧
      t.view imp key (Hash.hash key t.seed) now = .ok ((Kept.live now (m key)).map (fun kept => kept.view key), t') ∧
      t.contains imp key (Hash.hash key t.seed) now = .ok ((Kept.live now (m key)).isSome, t') := by
  obtain ⟨items, lost, hhas, hm⟩ := h
  obtain ⟨r, t', hsought, hget, hview, hcontains⟩ := hhas.reads_ok key now
  obtain ⟨rfl, hseed, his⟩ := hsought.shows hhas hm
  rw [Cache.settle_eq] at his
  rw [Option.map_map] at hget
  rw [Option.isSome_map] at hcontains
  exact ⟨t', hseed, his, hget, hview, hcontains⟩

theorem IsCache.set_ok (h : IsCache imp t m) (p : Platform) (granted : Bool) {key : List UInt8} {kept : Kept}
    (hfits : Fits key kept) :
    ∃ r t', t.set imp p granted key kept.value (Hash.hash key t.seed) kept.expiry kept.userFlags = .ok (r, t') ∧
      t'.seed = t.seed ∧
      ∀ w, r = .ok w → w = wroteOver (m key) ∧ IsCache imp t' (Function.update m key (some kept)) := by
  obtain ⟨r', t', hperform, hseed, hall⟩ :=
    h.answers p (.set key kept.value kept.expiry kept.userFlags granted) hfits
  rw [perform, bind_ok_iff] at hperform
  obtain ⟨⟨r, t''⟩, hset, hpure⟩ := hperform
  cases hpure
  refine ⟨r, t', hset, hseed, ?_⟩
  intro w hw
  obtain ⟨m', hdoes, his⟩ := hall (.wrote w) (by rw [hw]; rfl)
  cases hdoes
  exact ⟨rfl, his⟩

theorem IsCache.set_long (h : IsCache imp t m) (p : Platform) (granted : Bool) {key : List UInt8} {kept : Kept}
    (hlong : ¬ Fits key kept) :
    t.set imp p granted key kept.value (Hash.hash key t.seed) kept.expiry kept.userFlags = .error .bounds ∨
    ∃ full t', t.set imp p granted key kept.value (Hash.hash key t.seed) kept.expiry kept.userFlags =
      .ok (.error full, t') ∧ t'.seed = t.seed := by
  obtain ⟨items, lost, hhas, -⟩ := h
  obtain hpanic | ⟨full, arena, t', -, hset, hseed, -⟩ := hhas.set_long p granted hlong
  · exact .inl hpanic
  · exact .inr ⟨full, t', hset, hseed⟩

theorem IsCache.remove_ok (h : IsCache imp t m) (key : List UInt8) :
    ∃ t', t.remove imp key (Hash.hash key t.seed) = .ok ((m key).isSome, t') ∧ t'.seed = t.seed ∧
      IsCache imp t' (Function.update m key none) := by
  obtain ⟨r', t', hperform, hseed, hall⟩ := h.answers .boxed (.remove key) trivial
  rw [perform, bind_ok_iff] at hperform
  obtain ⟨⟨r, t''⟩, hremove, hpure⟩ := hperform
  cases hpure
  obtain ⟨m', hdoes, his⟩ := hall (.flag r) rfl
  cases hdoes
  exact ⟨t', hremove, hseed, his⟩

theorem IsCache.expire_ok (h : IsCache imp t m) (p : Platform) (granted : Bool) (key : List UInt8)
    (expiry : Option UInt32) (now : UInt32) :
    ∃ r t', t.expire imp p granted key (Hash.hash key t.seed) expiry now = .ok (r, t') ∧ t'.seed = t.seed ∧
      ∀ b, r = .ok b → b = (Kept.live now (m key)).isSome ∧
        IsCache imp t' (Function.update m key ((Kept.live now (m key)).map fun kept => { kept with expiry })) := by
  obtain ⟨r', t', hperform, hseed, hall⟩ :=
    h.answers p (.expire key expiry now granted) trivial
  rw [perform, bind_ok_iff] at hperform
  obtain ⟨⟨r, t''⟩, hexpire, hpure⟩ := hperform
  cases hpure
  refine ⟨r, t', hexpire, hseed, ?_⟩
  intro b hb
  obtain ⟨m', hdoes, his⟩ := hall (.flag b) (by rw [hb]; rfl)
  cases hdoes with
  | expire hread =>
    have hlive : Kept.live now (m key) = some _ := hread
    rw [hlive]
    exact ⟨rfl, his⟩
  | missing hread =>
    have hlive : Kept.live now (m key) = none := hread
    rw [Cache.settle_eq, hlive] at his
    rw [hlive]
    exact ⟨rfl, his⟩

theorem IsCache.shrink_ok (h : IsCache imp t m) :
    ∃ b t', t.shrink imp = .ok (b, t') ∧ t'.seed = t.seed ∧ IsCache imp t' m := by
  obtain ⟨r', t', hperform, hseed, hall⟩ := h.answers .boxed .shrink trivial
  rw [perform, bind_ok_iff] at hperform
  obtain ⟨⟨b, t''⟩, hshrink, hpure⟩ := hperform
  cases hpure
  obtain ⟨m', hdoes, his⟩ := hall (.flag b) rfl
  cases hdoes
  exact ⟨b, t', hshrink, hseed, his⟩

theorem IsCache.clear_ok (h : IsCache imp t m) :
    ∃ t', t.clear = .ok t' ∧ t'.seed = t.seed ∧ IsCache imp t' (fun _ => none) := by
  obtain ⟨r', t', hperform, hseed, hall⟩ := h.answers .boxed .clear trivial
  rw [perform, bind_ok_iff] at hperform
  obtain ⟨t'', hclear, hpure⟩ := hperform
  cases hpure
  obtain ⟨m', hdoes, his⟩ := hall .done rfl
  cases hdoes
  exact ⟨t', hclear, hseed, his⟩

theorem IsCache.evictOne_ok (h : IsCache imp t m) (roll : UInt64) (spare : Option Nat) :
    ∃ b t' m', t.evictOne imp roll spare = .ok (b, t') ∧ t'.seed = t.seed ∧ m'.Below m ∧ IsCache imp t' m' := by
  obtain ⟨r', t', hperform, hseed, hall⟩ := h.answers .boxed (.evict roll spare) trivial
  rw [perform, bind_ok_iff] at hperform
  obtain ⟨⟨b, t''⟩, hevict, hpure⟩ := hperform
  cases hpure
  obtain ⟨m', hdoes, his⟩ := hall (.flag b) rfl
  refine ⟨b, t', m', hevict, hseed, ?_, his⟩
  cases hdoes with
  | evict _ => exact Cache.below_update m _
  | spared _ _ => exact .refl m

theorem IsCache.evictLoop_ok (budget : Nat) (spare : Option Nat) (fuel : Nat) (roll : UInt64) (went : Nat)
    (h : IsCache imp t m) :
    ∃ went' t' m', evictLoop imp budget spare fuel roll went t = .ok (went', t') ∧ t'.seed = t.seed ∧
      m'.Below m ∧ IsCache imp t' m' := by
  induction fuel generalizing roll went t m with
  | zero => exact ⟨went, t, m, rfl, rfl, .refl m, h⟩
  | succ fuel ih =>
    rw [evictLoop]
    by_cases hover : t.chargedBytes > budget
    · obtain ⟨gone, t₁, m₁, hevict, hseed, hbelow, h₁⟩ := h.evictOne_ok (stir roll) spare
      rw [if_pos hover]
      simp only [hevict, ok_bind]
      cases gone with
      | false => exact ⟨went, t₁, m₁, rfl, hseed, hbelow, h₁⟩
      | true =>
        obtain ⟨went', t₂, m₂, hloop, hseed', hbelow', h₂⟩ := ih (stir roll) (went + 1) h₁
        exact ⟨went', t₂, m₂, hloop, hseed'.trans hseed, hbelow'.trans hbelow, h₂⟩
    · rw [if_neg hover]
      exact ⟨went, t, m, rfl, rfl, .refl m, h⟩

/-- Eviction takes whole entries, and none where there is no ceiling. -/
theorem IsCache.evictToFit_ok (h : IsCache imp t m) (budget : Nat) (key : List UInt8) :
    ∃ t' m', t.evictToFit imp budget key (Hash.hash key t.seed) = .ok t' ∧ t'.seed = t.seed ∧ m'.Below m ∧
      (budget = 0 → m' = m) ∧ IsCache imp t' m' := by
  rw [evictToFit]
  by_cases hfits : budget = 0 ∨ t.chargedBytes ≤ budget
  · rw [if_pos hfits]
    exact ⟨t, m, rfl, rfl, .refl m, fun _ => rfl, h⟩
  · have hbudget : budget ≠ 0 := fun hzero => hfits (.inl hzero)
    have hslot : ∃ spare, t.slotOf imp key (Hash.hash key t.seed) = .ok spare := by
      obtain ⟨items, lost, ⟨cells, F, hsound, -⟩, -⟩ := h
      obtain ⟨found, hfind, -⟩ := hsound.find_ok key
      exact ⟨found.map Prod.fst, by rw [slotOf, hfind]; rfl⟩
    obtain ⟨spare, hslot⟩ := hslot
    obtain ⟨went, t₁, m₁, hloop, hseed, hbelow, h₁⟩ :=
      h.evictLoop_ok budget spare 64 (Hash.hash key t.seed ||| 1) 0
    rw [if_neg hfits]
    simp only [hslot, hloop, ok_bind]
    by_cases hwent : went > 0
    · obtain ⟨b, t₂, hshrink, hseed', h₂⟩ := h₁.shrink_ok
      rw [if_pos hwent]
      simp only [hshrink, ok_bind]
      exact ⟨t₂, m₁, rfl, hseed'.trans hseed, hbelow, fun hzero => absurd hzero hbudget, h₂⟩
    · rw [if_neg hwent]
      exact ⟨t₁, m₁, rfl, hseed, hbelow, fun hzero => absurd hzero hbudget, h₁⟩

/-- What serving an operation comes to: it is answered, and eviction takes what it
takes; or it is refused memory; or its entry is one that cannot be written. -/
inductive Served (imp : Imp) (budget : Nat) (t : Table) (m : Cache) (key : List UInt8) {A : Type}
    (Refused : A → Prop) (want : Option (A × Option Kept)) : Exec (A × Table) → Prop
  | answered {a kept t' m'} : want = some (a, kept) → t'.seed = t.seed →
      Cache.Below m' (Function.update m key kept) → (budget = 0 → m' = Function.update m key kept) →
      IsCache imp t' m' → Served imp budget t m key Refused want (.ok (a, t'))
  | refused {a t'} : Refused a → t'.seed = t.seed → Served imp budget t m key Refused want (.ok (a, t'))
  | panics {e} : want = none → Served imp budget t m key Refused want (.error e)

theorem IsCache.put_ok (h : IsCache imp t m) (p : Platform) (granted : Bool) (budget : Nat) (key : List UInt8)
    (kept : Kept) :
    Served imp budget t m key (fun a => ∃ full, a = .error full) (writes key kept (.ok (wroteOver (m key))))
      (t.put imp p granted budget key kept.value (Hash.hash key t.seed) kept.expiry kept.userFlags) := by
  rw [put]
  by_cases hfits : Fits key kept
  · obtain ⟨r, t₁, hset, hseed, hall⟩ := h.set_ok p granted hfits
    rw [hset]
    cases r with
    | error full => exact .refused ⟨full, rfl⟩ hseed
    | ok w =>
      obtain ⟨hw, h₁⟩ := hall w rfl
      obtain ⟨t₂, m₂, hevict, hseed', hbelow, hnone, h₂⟩ := h₁.evictToFit_ok budget key
      rw [hseed] at hevict
      simp only [ok_bind, hevict, pure_ok]
      refine .answered ?_ (hseed'.trans hseed) hbelow hnone h₂
      rw [writes, if_pos hfits, hw]
  · have hwant : writes key kept (.ok (wroteOver (m key)) : Except Full Wrote) = none := if_neg hfits
    obtain hpanic | ⟨full, t₁, hset, hseed⟩ := h.set_long p granted hfits
    · rw [hpanic]
      exact .panics hwant
    · rw [hset]
      exact .refused ⟨full, rfl⟩ hseed

theorem Served.after {t₁ : Table} {held : Option Kept} {key : List UInt8} {budget : Nat} {A B : Type}
    {Refused : A → Prop} {want : Option (A × Option Kept)} {got : Exec (A × Table)}
    (h : Served imp budget t₁ (Function.update m key held) key Refused want got) (hseed : t₁.seed = t.seed)
    (f : A → B) (Refused' : B → Prop) (hrefused : ∀ a, Refused a → Refused' (f a)) :
    Served imp budget t m key Refused' (want.map fun (a, kept) => (f a, kept))
      (do let (a, t') ← got; pure (f a, t')) := by
  cases h with
  | @answered a kept t' m' hwant hseed' hbelow hnone his =>
    rw [Function.update_idem] at hbelow hnone
    have hwent : (want.map fun (a, kept) => (f a, kept)) = some (f a, kept) := by
      rw [hwant]
      rfl
    exact .answered hwent (hseed'.trans hseed) hbelow hnone his
  | refused hr hseed' => exact .refused (hrefused _ hr) (hseed'.trans hseed)
  | panics hwant =>
    refine .panics ?_
    rw [hwant]
    rfl

theorem Served.read {t' : Table} {key : List UInt8} {budget : Nat} {A : Type} {Refused : A → Prop}
    {a : A} {kept : Option Kept} (hseed : t'.seed = t.seed) (h : IsCache imp t' (Function.update m key kept)) :
    Served imp budget t m key Refused (some (a, kept)) (.ok (a, t')) :=
  .answered rfl hseed (.refl _) (fun _ => rfl) h

theorem writes_map {A B : Type} (key : List UInt8) (kept : Kept) (a : A) (f : A → B) :
    (writes key kept a).map (fun (a, kept) => (f a, kept)) = writes key kept (f a) := by
  rw [writes, writes]
  split <;> rfl

theorem IsCache.putWhen_ok (h : IsCache imp t m) (p : Platform) (sky : Sky) (budget : Nat) (key value : List UInt8)
    (when_ : When) (expiry : Expiry) (userFlags : Option UInt32) :
    Served imp budget t m key (KeyOp.setWhen value when_ expiry userFlags).Refused
      ((KeyOp.setWhen value when_ expiry userFlags).onKept key sky.now (m key))
      (t.putWhen imp p sky budget key value (Hash.hash key t.seed) when_ expiry userFlags) := by
  obtain ⟨t₁, hseed, h₁, -, hview, -⟩ := h.reads_ok key sky.now
  rw [putWhen, hview, ok_bind, KeyOp.onKept]
  simp only [Option.isSome_map, Option.map_map]
  by_cases hrefuses : when_.refuses (Kept.live sky.now (m key)).isSome = true
  · rw [if_pos hrefuses, if_pos hrefuses]
    exact .read hseed h₁
  · rw [if_neg hrefuses, if_neg hrefuses]
    let kept : Kept := ⟨value, expiry.over ((Kept.live sky.now (m key)).map Kept.expiry), userFlags⟩
    have hput := (h₁.put_ok p sky.granted budget key kept).after (t := t) hseed (Except.map some)
      (KeyOp.setWhen value when_ expiry userFlags).Refused (by
        rintro a ⟨full, ha⟩
        exact ⟨full, by rw [ha]; rfl⟩)
    rw [Function.update_self, hseed, writes_map] at hput
    exact hput

/-- What `increment` tells of its write. -/
def counts (next : Int) : Except Full Wrote → Except Uncounted Int
  | .error _ => .error .full
  | .ok _ => .ok next

theorem IsCache.increment_ok (h : IsCache imp t m) (p : Platform) (sky : Sky) (budget : Nat) (key : List UInt8)
    (by_ : Int) :
    Served imp budget t m key (KeyOp.increment by_).Refused ((KeyOp.increment by_).onKept key sky.now (m key))
      (t.increment imp p sky budget key (Hash.hash key t.seed) by_) := by
  obtain ⟨t₁, hseed, h₁, -, hview, -⟩ := h.reads_ok key sky.now
  rw [increment, hview, ok_bind, KeyOp.onKept]
  cases hcounted : counted ((Kept.live sky.now (m key)).map fun kept => kept.view key) with
  | none =>
    simp only [hcounted]
    exact .read hseed h₁
  | some tally =>
    obtain ⟨current, expiry, userFlags⟩ := tally
    simp only [hcounted]
    cases hadd : Signed.checkedAdd current by_ with
    | none =>
      simp only
      exact .read hseed h₁
    | some next =>
      let kept : Kept := ⟨digits next, expiry, userFlags⟩
      have hput := (h₁.put_ok p sky.granted budget key kept).after (t := t) hseed (counts next)
        (KeyOp.increment by_).Refused (by
          rintro a ⟨full, ha⟩
          rw [ha]
          rfl)
      rw [Function.update_self, hseed, writes_map] at hput
      simp only
      convert hput using 1
      · rfl
      · apply congrArg
        funext x
        obtain ⟨res, t'⟩ := x
        cases res <;> rfl

/-- Every operation is served as its key's content is told. -/
theorem IsCache.serve_ok (h : IsCache imp t m) (p : Platform) (sky : Sky) (budget : Nat) (key : List UInt8)
    (op : KeyOp) :
    Served imp budget t m key op.Refused (op.onKept key sky.now (m key))
      (op.serve imp p sky budget t key (Hash.hash key t.seed)) := by
  obtain ⟨t₁, hseed, h₁, hget, hview, hcontains⟩ := h.reads_ok key sky.now
  cases op with
  | get =>
    rw [KeyOp.serve, hget]
    exact .read hseed h₁
  | view =>
    rw [KeyOp.serve, hview]
    exact .read hseed h₁
  | contains =>
    rw [KeyOp.serve, hcontains]
    exact .read hseed h₁
  | set value expiry userFlags => exact h.put_ok p sky.granted budget key ⟨value, expiry, userFlags⟩
  | setWhen value when_ expiry userFlags => exact h.putWhen_ok p sky budget key value when_ expiry userFlags
  | expire expiry =>
    obtain ⟨r, t₂, hexpire, hseed', hall⟩ := h.expire_ok p sky.granted key expiry sky.now
    rw [KeyOp.serve, hexpire]
    cases r with
    | error full => exact .refused ⟨full, rfl⟩ hseed'
    | ok b =>
      obtain ⟨rfl, h₂⟩ := hall b rfl
      exact .read hseed' h₂
  | deadline =>
    rw [KeyOp.serve, deadlineOf, hview]
    simp only [ok_bind, Option.map_map, pure_ok]
    exact .read hseed h₁
  | increment by_ => exact h.increment_ok p sky budget key by_
  | remove =>
    obtain ⟨t₂, hremove, hseed', h₂⟩ := h.remove_ok key
    rw [KeyOp.serve, hremove]
    exact .read hseed' h₂

end Table

/-! ## The shards -/

def Cache.part (m : Cache) (home : List UInt8 → Nat) (i : Nat) : Cache :=
  fun key => if home key = i then m key else none

namespace Map

def home (map : Map) (key : List UInt8) : Nat := map.shardOf (map.hash key)

/-- Whatever the seed, all the keys that end in the word that cancels the constants hash to nought:
they are in one shard, have one tag and start their walks in one group, and are different keys where
what is before that word is different. -/
theorem cancelling_together (map : Map) {front front' : List UInt8} (h : front.length ≤ 8) (h' : front'.length ≤ 8) :
    (Hash.cancelling front = Hash.cancelling front' → front = front') ∧
    map.hash (Hash.cancelling front) = 0 ∧
    map.home (Hash.cancelling front) = map.home (Hash.cancelling front') ∧
    Ctrl.tagOf (map.hash (Hash.cancelling front)) = Ctrl.tagOf (map.hash (Hash.cancelling front')) ∧
    ∀ mask, groupOf (map.hash (Hash.cancelling front)) mask = groupOf (map.hash (Hash.cancelling front')) mask := by
  have hnought : map.hash (Hash.cancelling front) = 0 := Hash.hash_cancelling h map.seed
  have hnought' : map.hash (Hash.cancelling front') = 0 := Hash.hash_cancelling h' map.seed
  rw [home, home, hnought, hnought']
  exact ⟨Hash.cancelling_inj, rfl, rfl, rfl, fun _ => rfl⟩

/-- Two keys of sixteen bytes, in a map of four shards. -/
theorem cancelling_together_sixteen :
    Hash.cancelling [0, 0, 0, 0, 0, 0, 0, 0] ≠ Hash.cancelling [1, 0, 0, 0, 0, 0, 0, 0] ∧
    (withSeed 4 0 7).hash (Hash.cancelling [0, 0, 0, 0, 0, 0, 0, 0]) = 0 ∧
    (withSeed 4 0 7).home (Hash.cancelling [0, 0, 0, 0, 0, 0, 0, 0]) =
      (withSeed 4 0 7).home (Hash.cancelling [1, 0, 0, 0, 0, 0, 0, 0]) := by
  have hle : [(0 : UInt8), 0, 0, 0, 0, 0, 0, 0].length ≤ 8 := Nat.le_refl 8
  have hle' : [(1 : UInt8), 0, 0, 0, 0, 0, 0, 0].length ≤ 8 := Nat.le_refl 8
  obtain ⟨hinj, hnought, hhome, -⟩ := cancelling_together (withSeed 4 0 7) hle hle'
  exact ⟨fun h => absurd (hinj h) (by decide), hnought, hhome⟩

structure Alike (map map' : Map) : Prop where
  length : map'.shards.length = map.shards.length
  shift : map'.shardShift = map.shardShift
  seed : map'.seed = map.seed
  budget : map'.shardBudget = map.shardBudget

theorem Alike.refl (map : Map) : map.Alike map := ⟨rfl, rfl, rfl, rfl⟩

theorem Alike.trans {map map' map'' : Map} (h : map.Alike map') (h' : map'.Alike map'') : map.Alike map'' :=
  ⟨h'.length.trans h.length, h'.shift.trans h.shift, h'.seed.trans h.seed, h'.budget.trans h.budget⟩

theorem Alike.home {map map' : Map} (h : map.Alike map') : map'.home = map.home := by
  funext key
  rw [Map.home, Map.home, shardOf, shardOf, Map.hash, Map.hash, h.length, h.shift, h.seed]

/-- A power of two of shards, and the shift that picks one. -/
def Shaped (map : Map) : Prop := ∃ k ≤ 12, map.shards.length = 2 ^ k ∧ map.shardShift = 64 - k

theorem Alike.shaped {map map' : Map} (h : map.Alike map') (hshaped : map.Shaped) : map'.Shaped := by
  obtain ⟨k, hk, hlen, hshift⟩ := hshaped
  exact ⟨k, hk, h.length.trans hlen, h.shift.trans hshift⟩

theorem Shaped.home_lt {map : Map} (h : map.Shaped) (key : List UInt8) : map.home key < map.shards.length := by
  obtain ⟨k, hk, hlen, hshift⟩ := h
  rw [home, shardOf]
  split
  · next hone => omega
  · next hmany =>
    have hpos : k ≠ 0 := by
      intro hzero
      rw [hzero] at hlen
      exact hmany hlen
    have hmod : (UInt64.ofNat (64 - k)).toNat % 64 = 64 - k := by
      rw [UInt64.toNat_ofNat']
      omega
    have hpow : 2 ^ 64 = 2 ^ (64 - k) * 2 ^ k := by
      rw [← Nat.pow_add]
      congr 1
      omega
    have hlt := (map.hash key).toNat_lt
    rw [hshift, UInt64.toNat_shiftRight, hmod, hlen, Nat.shiftRight_eq_div_pow]
    apply Nat.div_lt_of_lt_mul
    omega

/-- A shard that holds these keys, with its counters published. -/
structure Holds (imp : Imp) (map : Map) (shard : Shard) (part : Cache) : Prop where
  seed : shard.table.seed = map.seed
  len : shard.len = shard.table.len
  charged : shard.charged = shard.table.chargedBytes
  table : Table.IsCache imp shard.table part

/-- The map is that cache. -/
structure IsCache (imp : Imp) (map : Map) (m : Cache) : Prop where
  shaped : map.Shaped
  shards : ∀ i shard, map.shards[i]? = some shard → map.Holds imp shard (m.part map.home i)

theorem Holds.alike {imp : Imp} {map map' : Map} {shard : Shard} {part : Cache} (h : map.Holds imp shard part)
    (ha : map.Alike map') : map'.Holds imp shard part :=
  ⟨h.seed.trans ha.seed.symm, h.len, h.charged, h.table⟩

inductive Served (imp : Imp) (map : Map) (m : Cache) (key : List UInt8) {A : Type} (Refused : A → Prop)
    (want : Option (A × Option Kept)) : Exec (A × Map) → Prop
  | answered {a kept map' m'} : want = some (a, kept) → map.Alike map' →
      Cache.Below m' (Function.update m key kept) →
      (map.shardBudget = 0 → m' = Function.update m key kept) → IsCache imp map' m' →
      Served imp map m key Refused want (.ok (a, map'))
  | refused {a map'} : Refused a → map.Alike map' → Served imp map m key Refused want (.ok (a, map'))
  | panics {e} : want = none → Served imp map m key Refused want (.error e)

variable {imp : Imp} {map : Map} {m : Cache}

theorem part_below {m' part' : Cache} (home : List UInt8 → Nat) {key : List UInt8} {kept : Option Kept}
    (hm' : m' = fun other => if home other = home key then part' other else m other)
    (hbelow : part'.Below (Function.update (m.part home (home key)) key kept)) :
    m'.part home (home key) = part' ∧ (∀ i ≠ home key, m'.part home i = m.part home i) ∧
      m'.Below (Function.update m key kept) ∧
      (part' = Function.update (m.part home (home key)) key kept → m' = Function.update m key kept) := by
  refine ⟨?_, ?_, ?_, ?_⟩
  -- in the part of the key, which the step is on
  · funext other
    rw [Cache.part, hm']
    by_cases heq : home other = home key
    · simp only [if_pos heq]
    · simp only [if_neg heq]
      have hne : other ≠ key := by
        intro hkey
        rw [hkey] at heq
        exact heq rfl
      obtain hnone | hsame := hbelow other
      · exact hnone.symm
      · rw [Function.update_of_ne hne, Cache.part, if_neg heq] at hsame
        exact hsame.symm
  · intro i hi
    funext other
    rw [Cache.part, Cache.part, hm']
    by_cases heq : home other = i
    · simp only [if_pos heq]
      rw [if_neg]
      rw [heq]
      exact hi
    · simp only [if_neg heq]
  · intro other
    rw [hm']
    by_cases heq : home other = home key
    · simp only [if_pos heq]
      obtain hnone | hsame := hbelow other
      · exact .inl hnone
      · refine .inr (hsame.trans ?_)
        by_cases hkey : other = key
        · rw [hkey, Function.update_self, Function.update_self]
        · rw [Function.update_of_ne hkey, Function.update_of_ne hkey, Cache.part, if_pos heq]
    · simp only [if_neg heq]
      have hkey : other ≠ key := by
        intro hkey
        rw [hkey] at heq
        exact heq rfl
      exact .inr (Function.update_of_ne hkey ..).symm
  · intro hpart'
    funext other
    rw [hm']
    by_cases hkey : other = key
    · simp only [hkey, if_true, hpart', Function.update_self]
    · rw [Function.update_of_ne hkey]
      by_cases heq : home other = home key
      · simp only [if_pos heq]
        rw [hpart', Function.update_of_ne hkey, Cache.part, if_pos heq]
      · simp only [if_neg heq]

theorem IsCache.withKey_shard (h : map.IsCache imp m) (key : List UInt8) {A : Type} {Refused : A → Prop}
    {want : Option (A × Option Kept)} {each : Table → Exec (A × Table)}
    (heach : ∀ shard, map.shards[map.home key]? = some shard → map.Holds imp shard (m.part map.home (map.home key)) →
      Table.Served imp map.shardBudget shard.table (m.part map.home (map.home key)) key Refused want
        (each shard.table)) :
    Served imp map m key Refused want (map.withKey (map.hash key) each) := by
  have hlt : map.shardOf (map.hash key) < map.shards.length := h.shaped.home_lt key
  have hget : map.shards[map.shardOf (map.hash key)]? = some map.shards[map.shardOf (map.hash key)] :=
    List.getElem?_eq_getElem hlt
  generalize map.shards[map.shardOf (map.hash key)] = shard at hget
  have hholds := h.shards _ shard hget
  have hserved := heach shard hget hholds
  rw [withKey, index_of_getElem? hget, ok_bind]
  generalize each shard.table = got at hserved
  cases hserved with
  | @answered a kept t' part' hwant hseed hbelow hnone his =>
    have hupdate := update_ok (a := shard.publish t') hlt
    have halike : map.Alike { map with shards := map.shards.set (map.shardOf (map.hash key)) (shard.publish t') } :=
      ⟨List.length_set, rfl, rfl, rfl⟩
    -- the step on the shard is a step on the part of the cache that is in it
    obtain ⟨hown, hothers, hbelow', hsame⟩ := part_below map.home rfl hbelow
    simp only [ok_bind, hupdate, pure_ok]
    refine .answered hwant halike hbelow' ?_ ⟨halike.shaped h.shaped, ?_⟩
    · intro hzero
      exact hsame (hnone hzero)
    · intro i other hi
      rw [halike.home]
      by_cases heq : i = map.home key
      · have hother : other = shard.publish t' := by
          rw [heq, home, List.getElem?_set_self hlt, Option.some.injEq] at hi
          exact hi.symm
        rw [heq, hown, hother]
        exact ⟨hseed.trans hholds.seed, rfl, rfl, his⟩
      · have hne : map.shardOf (map.hash key) ≠ i := Ne.symm heq
        simp only [List.getElem?_set_ne hne] at hi
        rw [hothers i heq]
        exact (h.shards i other hi).alike halike
  | refused hr hseed =>
    simp only [ok_bind, update_ok hlt, pure_ok]
    exact .refused hr ⟨List.length_set, rfl, rfl, rfl⟩
  | panics hwant => exact .panics hwant

theorem IsCache.withKey_ok (h : map.IsCache imp m) (key : List UInt8) {A : Type} {Refused : A → Prop}
    {want : Option (A × Option Kept)} {each : Table → Exec (A × Table)}
    (heach : ∀ t part, t.seed = map.seed → part key = m key → Table.IsCache imp t part →
      Table.Served imp map.shardBudget t part key Refused want (each t)) :
    Served imp map m key Refused want (map.withKey (map.hash key) each) := by
  apply h.withKey_shard key
  intro shard _ hholds
  exact heach shard.table _ hholds.seed (if_pos rfl) hholds.table

theorem IsCache.perform_key_ok (h : map.IsCache imp m) (p : Platform) (sky : Sky) (key : List UInt8) (op : KeyOp) :
    Served imp map m key op.Refused (op.onKept key sky.now (m key)) (map.perform imp p sky (.key key op)) := by
  rw [perform_key]
  apply h.withKey_ok key
  intro t part hseed hpart ht
  have hserved := ht.serve_ok p sky map.shardBudget key op
  rw [hseed, hpart] at hserved
  exact hserved

end Map

/-! ## Counting -/

namespace Cache

/-- How many keys a cache has, what has expired and is still there included. -/
def Counts (m : Cache) (n : Nat) : Prop :=
  ∃ keys : List (List UInt8), keys.Nodup ∧ (∀ key, key ∈ keys ↔ (m key).isSome) ∧ keys.length = n

theorem Counts.unique {m : Cache} {n n' : Nat} (h : m.Counts n) (h' : m.Counts n') : n = n' := by
  obtain ⟨keys, hnodup, hmem, rfl⟩ := h
  obtain ⟨keys', hnodup', hmem', rfl⟩ := h'
  apply List.Perm.length_eq
  apply (List.perm_ext_iff_of_nodup hnodup hnodup').mpr
  intro key
  rw [hmem, hmem']

theorem Counts.parts {m : Cache} (home : List UInt8 → Nat) {counts : List Nat}
    (hparts : ∀ i c, counts[i]? = some c → (m.part home i).Counts c)
    (hhome : ∀ key, home key < counts.length) : m.Counts counts.sum := by
  -- the keys of the first `n` parts, shard after shard
  have hall : ∀ n ≤ counts.length,
      Counts (fun key => if home key < n then m key else none) (counts.take n).sum := by
    intro n
    induction n with
    | zero =>
      intro _
      refine ⟨[], List.nodup_nil, ?_, rfl⟩
      intro key
      simp
    | succ n ih =>
      intro hn
      obtain ⟨keys, hnodup, hmem, hlen⟩ := ih (by omega)
      obtain ⟨own, hown, hmem', hlen'⟩ := hparts n counts[n] (List.getElem?_eq_getElem hn)
      refine ⟨keys ++ own, ?_, ?_, ?_⟩
      · rw [List.nodup_append]
        refine ⟨hnodup, hown, ?_⟩
        intro key hkey key' hkey' heq
        have hlt := (hmem key).mp hkey
        have hat := (hmem' key').mp hkey'
        rw [← heq, part] at hat
        by_cases hhomed : home key = n
        · simp [hhomed] at hlt
        · rw [if_neg hhomed] at hat
          cases hat
      · intro key
        rw [List.mem_append, hmem, hmem', part]
        by_cases hhomed : home key = n
        · simp [hhomed]
        · by_cases hlt : home key < n
          · simp [hhomed, hlt, Nat.lt_succ_of_lt hlt]
          · have hge : ¬ home key < n + 1 := by omega
            simp [hhomed, hlt, hge]
      · rw [List.length_append, hlen, hlen', List.take_add_one, List.sum_append,
          List.getElem?_eq_getElem hn]
        simp
  have hwhole := hall counts.length (Nat.le_refl _)
  rw [List.take_length] at hwhole
  have hm : (fun key => if home key < counts.length then m key else none) = m := by
    funext key
    exact if_pos (hhome key)
  rw [hm] at hwhole
  exact hwhole

end Cache

theorem Table.IsCache.counts {imp : Imp} {t : Table} {m : Cache} (h : Table.IsCache imp t m) : m.Counts t.len := by
  obtain ⟨items, lost, hhas, hm⟩ := h
  refine ⟨items.map fun item => item.view.key, hhas.keys, ?_, ?_⟩
  · intro key
    rw [Option.isSome_iff_exists]
    constructor
    · intro hkey
      obtain ⟨item, hi, rfl⟩ := List.mem_map.mp hkey
      exact ⟨_, hm.get hi⟩
    · intro ⟨kept, hkept⟩
      obtain ⟨item, hi, hkey, -⟩ := (hm key kept).mp hkept
      exact List.mem_map.mpr ⟨item, hi, hkey⟩
  · obtain ⟨cells, F, hsound, hperm⟩ := hhas
    rw [List.length_map, hsound.indexed.len, hperm.length_eq]

namespace Map
variable {imp : Imp} {map : Map} {m : Cache}

theorem IsCache.counts (h : map.IsCache imp m) : m.Counts map.len := by
  rw [len]
  apply Cache.Counts.parts map.home
  · intro i c hc
    rw [List.getElem?_map, Option.map_eq_some_iff] at hc
    obtain ⟨shard, hshard, rfl⟩ := hc
    have hholds := h.shards i shard hshard
    rw [hholds.len]
    exact hholds.table.counts
  · intro key
    rw [List.length_map]
    exact h.shaped.home_lt key

/-! ## Clearing -/

theorem Holds.clearShard_ok {shard : Shard} {part : Cache} (h : map.Holds imp shard part) :
    ∃ shard', clearShard imp shard = .ok shard' ∧ map.Holds imp shard' (fun _ => none) := by
  obtain ⟨t₁, hclear, hseed, h₁⟩ := h.table.clear_ok
  obtain ⟨b, t₂, hshrink, hseed', h₂⟩ := h₁.shrink_ok
  refine ⟨shard.publish t₂, ?_, (hseed'.trans hseed).trans h.seed, rfl, rfl, h₂⟩
  rw [clearShard, hclear, ok_bind, hshrink]
  rfl

theorem clearAll_ok {shards : List Shard} (h : ∀ shard ∈ shards, ∃ part, map.Holds imp shard part) :
    ∃ shards', shards.mapM (clearShard imp) = .ok shards' ∧ shards'.length = shards.length ∧
      ∀ shard ∈ shards', map.Holds imp shard (fun _ => none) := by
  induction shards with
  | nil => exact ⟨[], rfl, rfl, by simp⟩
  | cons shard shards ih =>
    obtain ⟨part, hshard⟩ := h shard List.mem_cons_self
    obtain ⟨shard', hclear, hholds⟩ := hshard.clearShard_ok
    obtain ⟨shards', hmap, hlen, hall⟩ := ih fun other ho => h other (List.mem_cons_of_mem _ ho)
    refine ⟨shard' :: shards', ?_, by rw [List.length_cons, List.length_cons, hlen], ?_⟩
    · rw [List.mapM_cons, hclear, ok_bind, hmap]
      rfl
    · intro other ho
      obtain rfl | ho := List.mem_cons.mp ho
      · exact hholds
      · exact hall other ho

theorem IsCache.clear_ok (h : map.IsCache imp m) :
    ∃ map', map.clear imp = .ok map' ∧ map.Alike map' ∧ map'.IsCache imp (fun _ => none) := by
  have hshards : ∀ shard ∈ map.shards, ∃ part, map.Holds imp shard part := by
    intro shard hmem
    obtain ⟨i, hi⟩ := List.mem_iff_getElem?.mp hmem
    exact ⟨_, h.shards i shard hi⟩
  obtain ⟨shards', hmap, hlen, hall⟩ := clearAll_ok hshards
  have halike : map.Alike { map with shards := shards' } := ⟨hlen, rfl, rfl, rfl⟩
  refine ⟨{ map with shards := shards' }, by rw [clear, hmap]; rfl, halike, halike.shaped h.shaped, ?_⟩
  intro i shard hi
  have hpart : Cache.part (fun _ => none) (Map.home { map with shards := shards' }) i = fun _ => none := by
    funext key
    rw [Cache.part, ite_self]
  rw [hpart]
  exact (hall shard (List.mem_of_getElem? hi)).alike halike

end Map

/-! ## Every operation -/

/-- What an operation of a map answers, and what it does to the cache. -/
inductive Cache.Serves (m : Cache) (now : UInt32) : (op : Map.Op) → op.Answer → Cache → Prop
  | key {key : List UInt8} {op : KeyOp} {a kept} : op.onKept key now (m key) = some (a, kept) →
      Serves m now (.key key op) a (Function.update m key kept)
  | len {n} : m.Counts n → Serves m now .len n m
  | clear : Serves m now .clear () (fun _ => none)
  | now : Serves m now .now now m

theorem Cache.Serves.unique {m m₁ m₂ : Cache} {now : UInt32} {op : Map.Op} {a a' : op.Answer}
    (h : m.Serves now op a m₁) (h' : m.Serves now op a' m₂) : a = a' ∧ m₁ = m₂ := by
  cases h with
  | key hkept =>
    cases h' with
    | key hkept' =>
      rw [hkept] at hkept'
      cases hkept'
      exact ⟨rfl, rfl⟩
  | len hcounts =>
    cases h' with
    | len hcounts' => exact ⟨hcounts.unique hcounts', rfl⟩
  | clear =>
    cases h' with
    | clear => exact ⟨rfl, rfl⟩
  | now =>
    cases h' with
    | now => exact ⟨rfl, rfl⟩

namespace Map
variable {imp : Imp} {map : Map} {m : Cache}

/-- A map without a ceiling serves as its cache does. An operation that is not
answered is one the cache has no answer to. -/
theorem IsCache.perform_ok (h : map.IsCache imp m) (hbudget : map.shardBudget = 0) (p : Platform) (sky : Sky)
    (op : Op) :
    (∃ a map', map.perform imp p sky op = .ok (a, map') ∧ map.Alike map' ∧
      (op.Refused a ∨ ∃ m', m.Serves sky.now op a m' ∧ map'.IsCache imp m')) ∨
    (∃ e, map.perform imp p sky op = .error e) ∧ ∀ a m', ¬ m.Serves sky.now op a m' := by
  cases op with
  | key key op =>
    have hserved := h.perform_key_ok p sky key op
    generalize map.perform imp p sky (.key key op) = got at hserved
    cases hserved with
    | @answered a kept map' m' hwant halike hbelow hnone his =>
      refine .inl ⟨a, map', rfl, halike, .inr ⟨m', ?_, his⟩⟩
      rw [hnone hbudget]
      exact .key hwant
    | @refused a map' hr halike => exact .inl ⟨a, map', rfl, halike, .inl hr⟩
    | @panics e hwant =>
      refine .inr ⟨⟨e, rfl⟩, ?_⟩
      intro a m' hserves
      cases hserves with
      | key hkept =>
        rw [hwant] at hkept
        cases hkept
  | len => exact .inl ⟨map.len, map, rfl, .refl map, .inr ⟨m, .len h.counts, h⟩⟩
  | clear =>
    obtain ⟨map', hclear, halike, his⟩ := h.clear_ok
    exact .inl ⟨(), map', by rw [perform, hclear]; rfl, halike, .inr ⟨_, .clear, his⟩⟩
  | now => exact .inl ⟨sky.now, map, rfl, .refl map, .inr ⟨m, .now, h⟩⟩

end Map
end Rugo
