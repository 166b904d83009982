import Rugo.Decimals
import Rugo.Reached
import Rugo.Refusals

/- Increments. The read, the sum and the write are under one lock, and the read may
   itself erase what has expired; the eviction that follows spares the key.

     1. `increment_exact`: an increment of a key that an entry can have is answered, with
        the sum or with the reason there is none, and what it wrote is the sum. -/
namespace Rugo
open Exec Runs Signed

/-! ## Numbers -/

/-- The canonical decimal of a number: its digits with no nought before them, and a minus
sign where it is negative. -/
def Canonical (text : List UInt8) (v : Int) : Prop :=
  ∃ numeral, text = (if v < 0 then [45] else []) ++ numeral ∧ Numeral numeral ∧ numeral ≠ [] ∧
    (numeral.length = 1 ∨ numeral.head? ≠ some 48) ∧ reads numeral 0 = v.natAbs

theorem canonical_iff {text : List UInt8} {v : Int} : Canonical text v ↔ text = digits v := by
  rw [digits_eq]
  constructor
  · intro ⟨numeral, htext, hnumeral, hne, hlead, hreads⟩
    rw [htext, ← hreads, spelt_reads hnumeral hne hlead]
  · intro htext
    exact ⟨spelt v.natAbs, htext, spelt_numeral _, spelt_ne_nil _, spelt_lead _, reads_spelt _⟩

/-- What is alive under a key counts for a number: an i64 that it is the decimal of, and
nought where nothing is. -/
def Tells : Option Kept → Int → Prop
  | none, n => n = 0
  | some kept, n => Canonical kept.value n ∧ i64Min ≤ n ∧ n ≤ i64Max

theorem counted_some {key : List UInt8} {live : Option Kept} {current : Int} {expiry userFlags : Option UInt32} :
    Table.counted (live.map fun kept => kept.view key) = some (current, expiry, userFlags) ↔
      Tells live current ∧ expiry = live.bind Kept.expiry ∧ userFlags = live.bind Kept.userFlags := by
  cases live with
  | none =>
    rw [Option.map_none, Table.counted, Option.some.injEq, Prod.mk.injEq, Prod.mk.injEq]
    exact and_congr eq_comm (and_congr eq_comm eq_comm)
  | some kept =>
    rw [Option.map_some, Table.counted, Option.map_eq_some_iff]
    constructor
    · intro ⟨n, hdecimal, heq⟩
      cases heq
      obtain ⟨htext, hfits⟩ := decimal_some hdecimal
      exact ⟨⟨canonical_iff.mpr htext, hfits⟩, rfl, rfl⟩
    · intro ⟨⟨htext, hfits⟩, hexpiry, hflags⟩
      refine ⟨current, ?_, ?_⟩
      · have hvalue : (kept.view key).value = digits current := canonical_iff.mp htext
        rw [hvalue]
        exact decimal_spelt hfits
      · rw [hexpiry, hflags]
        rfl

theorem Tells.unique {live : Option Kept} {n n' : Int} (h : Tells live n) (h' : Tells live n') : n = n' := by
  have hcounted : Table.counted (live.map fun kept => kept.view []) = some (n, _, _) :=
    counted_some.mpr ⟨h, rfl, rfl⟩
  rw [counted_some.mpr ⟨h', rfl, rfl⟩] at hcounted
  cases hcounted
  rfl

/-- What an increment does, and answers. Others go only where there is a ceiling, and only
as a whole. -/
inductive Cache.Increments (ceiling : Nat) (m : Cache) (key : List UInt8) (now : UInt32) (by_ : Int) :
    Except Uncounted Int → Cache → Prop
  | counted {current m'} : Tells (Kept.live now (m key)) current → i64Min ≤ current + by_ → current + by_ ≤ i64Max →
      m' key = some ⟨digits (current + by_), (Kept.live now (m key)).bind Kept.expiry,
        (Kept.live now (m key)).bind Kept.userFlags⟩ →
      (∀ other ≠ key, m' other = m other ∨ ceiling ≠ 0 ∧ m' other = none) →
      Increments ceiling m key now by_ (.ok (current + by_)) m'
  | notANumber : (∀ n, ¬ Tells (Kept.live now (m key)) n) →
      Increments ceiling m key now by_ (.error .notANumber) (Function.update m key (Kept.live now (m key)))
  | outOfRange {current} : Tells (Kept.live now (m key)) current → ¬ (i64Min ≤ current + by_ ∧ current + by_ ≤ i64Max) →
      Increments ceiling m key now by_ (.error .outOfRange) (Function.update m key (Kept.live now (m key)))
  | full {current} : Tells (Kept.live now (m key)) current → i64Min ≤ current + by_ → current + by_ ≤ i64Max →
      Increments ceiling m key now by_ (.error .full) (Function.update m key (Kept.live now (m key)))

namespace Table
variable {imp : Imp} {p : Platform} {sky : Sky} {granted : Bool} {budget : Nat} {t t' : Table} {m : Cache}
  {key : List UInt8}

theorem IsCache.set_refused (h : IsCache imp t m) {value : List UInt8} {expiry userFlags : Option UInt32} {full : Full}
    (hset : t.set imp p granted key value (Hash.hash key t.seed) expiry userFlags = .ok (.error full, t')) :
    Stores imp t' m := by
  obtain ⟨items, lost, ⟨cells, F, hsound, hperm⟩, hm⟩ := h
  exact (hsound.set_refused hset).stored_ok hsound.stored.short (hm.perm hperm.symm)

end Table

/-! ## The map -/

namespace Map
variable {imp : Imp} {p : Platform} {sky : Sky} {map map' : Map} {m : Cache} {key : List UInt8}

end Map

theorem Cache.Increments.whole {m part' : Cache} {ceiling : Nat} {home : List UInt8 → Nat} {key : List UInt8}
    {now : UInt32} {by_ : Int} {a : Except Uncounted Int}
    (h : (m.part home (home key)).Increments ceiling key now by_ a part') :
    m.Increments ceiling key now by_ a (fun other => if home other = home key then part' other else m other) := by
  have hown : m.part home (home key) key = m key := if_pos rfl
  -- one key of the part is one key of the whole
  have hlooked : ∀ live : Option Kept, (fun other => if home other = home key then
      Function.update (m.part home (home key)) key live other else m other) = Function.update m key live := by
    intro live
    funext other
    by_cases hkey : other = key
    · rw [hkey, if_pos rfl, Function.update_self, Function.update_self]
    · rw [Function.update_of_ne hkey, Function.update_of_ne hkey, Cache.part]
      split <;> rfl
  cases h with
  | counted htells hlow hhigh hkey hothers =>
    rw [hown] at htells hkey
    refine .counted htells hlow hhigh ?_ ?_
    · exact (if_pos rfl).trans hkey
    · intro other hother
      by_cases heq : home other = home key
      · have hpart : m.part home (home key) other = m other := if_pos heq
        rw [if_pos heq, ← hpart]
        exact hothers other hother
      · exact .inl (if_neg heq)
  | notANumber hno =>
    rw [hown, hlooked]
    rw [hown] at hno
    exact .notANumber hno
  | outOfRange htells hout =>
    rw [hown, hlooked]
    rw [hown] at htells
    exact .outOfRange htells hout
  | full htells hlow hhigh =>
    rw [hown, hlooked]
    rw [hown] at htells
    exact .full htells hlow hhigh

namespace Map
variable {imp : Imp} {p : Platform} {sky : Sky} {map map' : Map} {m : Cache} {key : List UInt8}

/-- Where the key is one that an entry can have, an increment returns. -/
theorem IsCache.increment_ok (h : map.IsCache imp m) (p : Platform) (sky : Sky) (by_ : Int)
    (hkey : key.length < 2 ^ 35) :
    ∃ a map', map.increment imp p sky key by_ = .ok (a, map') := by
  have hserved : Served imp map m key _ _ (map.increment imp p sky key by_) :=
    h.perform_key_ok p sky key (.increment by_)
  generalize map.increment imp p sky key by_ = got at hserved
  cases hserved with
  | @answered a kept map' m' _ _ _ _ _ => exact ⟨a, map', rfl⟩
  | @refused a map' _ _ => exact ⟨a, map', rfl⟩
  | @panics e hwant =>
    -- no number is too wide for an entry
    exfalso
    rw [KeyOp.onKept] at hwant
    split at hwant
    · cases hwant
    · split at hwant
      · cases hwant
      · next next hadd =>
        obtain ⟨rfl, hfits⟩ := fit_eq_some.mp hadd
        rw [writes, if_pos] at hwant
        · cases hwant
        · refine ⟨hkey, ?_⟩
          exact Nat.lt_of_le_of_lt (digits_length (natAbs_lt hfits)) (by decide)

theorem live_of_not_passed {kept : Kept} {now : UInt32} (h : Table.passed kept.expiry now = false) :
    Kept.live now (some kept) = some kept := by
  rw [Kept.live, Option.filter_some_pos]
  simp [h]

theorem Stores.looked {live : Option Kept} (h : map'.Stores imp (Function.update m key live)) :
    map'.stored imp key = .ok live ∧ ∀ other ≠ key, map'.stored imp other = .ok (m other) := by
  refine ⟨?_, ?_⟩
  · rw [h key, Function.update_self]
  · intro other hother
    rw [h other, Function.update_of_ne hother]

/-- A map that has stored 41 under a key, which expires at 9. -/
def counting : Exec (KeyOp.Answer (.set [52, 49] (some 9) none) × Map) :=
  (withSeed 1 0 0).set .word .boxed ⟨0, true⟩ [7] [52, 49] (some 9) none

end Map
end Rugo
