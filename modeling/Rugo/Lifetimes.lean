import Rugo.Expiries
import Rugo.Reached
import Rugo.SetOptions

/- How long a key lives that was given so many milliseconds. The clock is a word that holds
   the second of some tick, and the tick is not later than the time it is read at; an
   expiry is the word that was read and the duration in whole seconds, rounded up.

     1. `outlives_iff`: a key lives to the end of what it was given exactly where the word
        was that of the second it was read in, and the milliseconds into that second and
        those of the duration, less one, do not come to another.
     2. `dies_young`: one second, given in the last millisecond of another, and gone with it. -/
namespace Rugo
open Exec Progs Runs Resp Commands

/-! ## The clock -/

/-- `unix_now`, at a time in milliseconds since the epoch. -/
def unixNow (t : Nat) : UInt32 := if t / 1000 < 2 ^ 32 then UInt32.ofNat (t / 1000) else u32Max

/-- What the clock may read: the second of some tick that was not later. -/
def Ticked (t : Nat) (now : UInt32) : Prop := ∃ t₀ ≤ t, now = unixNow t₀

theorem unixNow_toNat (t : Nat) : (unixNow t).toNat = min (t / 1000) (2 ^ 32 - 1) := by
  rw [unixNow]
  split
  · next hlt =>
    rw [UInt32.toNat_ofNat', Nat.mod_eq_of_lt hlt]
    omega
  · next hge =>
    have hmax : u32Max.toNat = 2 ^ 32 - 1 := rfl
    rw [hmax]
    omega

theorem Ticked.le {t : Nat} {now : UInt32} (h : Ticked t now) : now.toNat ≤ t / 1000 := by
  obtain ⟨t₀, hle, rfl⟩ := h
  have hmono : t₀ / 1000 ≤ t / 1000 := Nat.div_le_div_right hle
  rw [unixNow_toNat]
  omega

/-! ## A duration -/

def lasting (millis : Bool) (value : Nat) : Nat := if millis then value else 1000 * value

def until_ (millis : Bool) (value : Nat) (now : UInt32) : UInt32 :=
  stamp (moment now value (if millis then 1000 else 1) false)

theorem until_toNat {millis : Bool} {value : Nat} {now : UInt32} (hpos : 0 < value)
    (hfits : now.toNat + (lasting millis value + 999) / 1000 < 2 ^ 32) :
    moment now value (if millis then 1000 else 1) false = now.toNat + (lasting millis value + 999) / 1000 ∧
      (until_ millis value now).toNat = now.toNat + (lasting millis value + 999) / 1000 := by
  have hmin : Signed.i64Min = -2 ^ 63 := rfl
  have hmax : Signed.i64Max = 2 ^ 63 - 1 := rfl
  have hscale : (if millis then 1000 else 1 : Int) = 1 ∨ (if millis then 1000 else 1 : Int) = 1000 := by
    cases millis <;> simp
  have hvalue : Signed.i64Min ≤ (value : Int) ∧ (value : Int) ≤ Signed.i64Max := by
    rw [lasting] at hfits
    split at hfits
    · omega
    · omega
  have hsums : Sums now value (if millis then 1000 else 1) false := by
    cases millis with
    | true => exact .inr (.inl rfl)
    | false =>
      refine .inr (.inr ?_)
      rw [lasting, if_neg Bool.false_ne_true] at hfits
      omega
  have hexact := exact_of_sums hvalue hscale hsums
  -- the duration rounded up to seconds
  have hsecond : second now value (if millis then 1000 else 1) false =
      now.toNat + (lasting millis value + 999) / 1000 := by
    rw [second, ceil_eq hscale, lasting]
    cases millis with
    | true =>
      simp only [if_true, Bool.false_eq_true, if_false]
      split
      · omega
      · omega
    | false =>
      simp only [Bool.false_eq_true, if_false]
      omega
  have hstamp := hexact.stamp
  rw [hsecond, clamped] at hstamp
  refine ⟨hexact.moment.trans hsecond, ?_⟩
  rw [until_]
  omega

/-- The arguments of a command that gives a key so many milliseconds, and the value it writes
if it writes one. -/
inductive Gives (key : List UInt8) : Option (List UInt8) → Bool → Nat → List (List UInt8) → Prop
  | option {name value opts said millis} {n : Nat} : name.map upper = ascii "SET" →
      Commands.words opts = some said → Legal said → .get ∉ said →
      .expire n (if millis then 1000 else 1) false ∈ said → 0 < n →
      Gives key (some value) millis n (name :: key :: value :: opts)
  | timed {name text value millis} {n : Nat} : name.map upper = ascii (if millis then "PSETEX" else "SETEX") →
      integerOf text = some (n : Int) → 0 < n → Gives key (some value) millis n [name, key, text, value]
  | expire {name text millis} {n : Nat} : name.map upper = ascii (if millis then "PEXPIRE" else "EXPIRE") →
      integerOf text = some (n : Int) → 0 < n → Gives key none millis n [name, key, text]

/-- A command run on a map, its calls under these skies. -/
def Ends (imp : Imp) (p : Platform) (env : Env) (args : List (List UInt8)) (dialect : Dialect) (sky : Nat → Sky)
    (map : Map) (ran : Commands.Ran) (map' : Map) : Prop :=
  (Commands.run env args dialect).run (fun sky map op => map.perform imp p sky op) sky map = .ok (ran, map')

theorem Gives.pos {key : List UInt8} {written : Option (List UInt8)} {millis : Bool} {n : Nat}
    {args : List (List UInt8)} (h : Gives key written millis n args) : 0 < n := by
  cases h with
  | option _ _ _ _ _ hpos => exact hpos
  | timed _ _ hpos => exact hpos
  | expire _ _ hpos => exact hpos

section command
variable {imp : Imp} {p : Platform} {env : Env} {dialect : Dialect} {sky : Nat → Sky} {map map' : Map}
    {ran : Commands.Ran}

theorem Ends.work {args : List (List UInt8)} {work : Work (List UInt8)}
    (h : Ends imp p env args dialect sky map ran map')
    (hrun : Commands.run env args dialect = (do let reply ← work; pure ⟨reply, dialect, false⟩)) :
    work.run (fun sky map op => map.perform imp p sky op) sky map = .ok (ran.reply, map') := by
  rw [Ends, hrun] at h
  obtain ⟨reply, map₁, sky', hwork, hret⟩ := Prog.run_bind h
  cases hret
  exact hwork

theorem run_timed {op : UInt32 → Map.Op} {reply : (now : UInt32) → (op now).Answer → List UInt8} {text : List UInt8}
    (h : Prog.run (fun sky map op => Map.perform imp p sky map op)
      (Prog.call Map.Op.now fun now => Prog.call (op now) fun answer => .ret (reply now answer)) sky map =
        .ok (text, map')) :
    ∃ answer, map.perform imp p (sky 1) (op (sky 0).now) = .ok (answer, map') ∧ reply (sky 0).now answer = text := by
  obtain ⟨⟨now, map₁⟩, hnow, h⟩ := bind_ok_iff.mp h
  cases hnow
  obtain ⟨⟨answer, map₂⟩, hperform, h⟩ := bind_ok_iff.mp h
  cases h
  exact ⟨answer, hperform, rfl⟩

theorem run_keyspace {name : List UInt8} {rest : List (List UInt8)} {word : String} {work : Work (List UInt8)}
    (hname : name.map upper = ascii word) (hword : (ascii word).length ≤ maxName)
    (hnone : strings dialect (name :: rest) (ascii word) = none)
    (hwork : keyspace (name :: rest) (ascii word) = some work) :
    Commands.run env (name :: rest) dialect = (do let reply ← work; pure ⟨reply, dialect, false⟩) := by
  rw [Commands.run, if_neg (short_name hname hword), hname]
  simp only [hnone, hwork]

/-- What a command that took did: it wrote, whatever was there or because it was as asked, or
it gave what was there the expiry. -/
inductive Granted (imp : Imp) (p : Platform) (sky : Sky) (map map' : Map) (key : List UInt8) (expiry : UInt32) :
    Option (List UInt8) → Prop
  | wrote {value when_ wrote} :
      map.perform imp p sky (.key key (.setWhen value when_ (.at_ expiry) none)) = .ok (.ok wrote, map') →
      when_ = .always ∨ wrote.isSome → Granted imp p sky map map' key expiry (some value)
  | changed : map.perform imp p sky (.key key (.expire (some expiry))) = .ok (.ok true, map') →
      Granted imp p sky map map' key expiry none

def written (dialect : Dialect) : Except Full (Option Wrote) → List UInt8
  | .ok none => Encoder.null dialect
  | .ok (some _) => okay
  | .error _ => oom

theorem writing_eq (key value : List UInt8) (opts : Options) :
    writing dialect key value opts =
      Prog.call (Map.Op.key key (.setWhen value opts.when_ opts.expiry none)) fun wrote =>
        .ret (written dialect wrote) := by
  change Prog.call _ _ = _
  congr 1
  funext wrote
  cases wrote with
  | error full => rfl
  | ok wrote => cases wrote <;> rfl

theorem written_taken {answer : Except Full (Option Wrote)}
    (h : written dialect answer = okay ∨ written dialect answer = flag true) : ∃ wrote, answer = .ok (some wrote) := by
  cases answer with
  | error full => exact absurd h (show ¬ (oom = okay ∨ oom = flag true) by decide)
  | ok wrote =>
    cases wrote with
    | none => cases dialect <;> exact absurd h (by decide)
    | some wrote => exact ⟨wrote, rfl⟩

theorem option_granted {name key value : List UInt8} {opts : List (List UInt8)} {said : List Word} {millis : Bool}
    {n : Nat} (h : Ends imp p env (name :: key :: value :: opts) dialect sky map ran map')
    (hname : name.map upper = ascii "SET") (hsaid : Commands.words opts = some said) (hlegal : Legal said)
    (hget : .get ∉ said) (hexpire : .expire n (if millis then 1000 else 1) false ∈ said)
    (htaken : ran.reply = okay ∨ ran.reply = flag true) :
    Granted imp p (sky 1) map map' key (until_ millis n (sky 0).now) (some value) := by
  have hwork := h.work (run_strings hname (by decide) rfl)
  cases opts with
  | nil =>
    cases hsaid
    cases hexpire
  | cons word rest =>
    have hdrop : (name :: key :: value :: word :: rest).drop 3 = word :: rest := rfl
    obtain ⟨said', hread, -, hall⟩ | ⟨-, hno, -⟩ := loops (word :: rest) hdrop
    · obtain rfl : said = said' := Option.some.inj (hsaid.symm.trans hread)
      rw [set_taken dialect name key value hall] at hwork
      simp only [writing_eq] at hwork
      obtain ⟨answer, hperform, hreply⟩ := run_timed hwork
      rw [← hreply] at htaken
      obtain ⟨wrote, rfl⟩ := written_taken htaken
      have hlast := foldl_one (Word.apply_expiry (sky 0).now) ⟨.always, .never⟩ hlegal.2 hexpire rfl
      rw [hlast] at hperform
      exact .wrote hperform (.inr rfl)
    · exact absurd (hno said hsaid) hget

def timedly : Except Full (Option Wrote) → List UInt8
  | .ok _ => okay
  | .error _ => oom

theorem timedSet_eq (name key value : List UInt8) {text : List UInt8} (millis : Bool) {n : Nat}
    (htext : integerOf text = some (n : Int)) (hpos : 0 < n) :
    timedSet [name, key, text, value] millis = Prog.call Map.Op.now fun now =>
      Prog.call (Map.Op.key key (.setWhen value .always (.at_ (until_ millis n now)) none)) fun wrote =>
        .ret (timedly wrote) := by
  have harity : (arity [name, key, text, value] 4 (if millis then "psetex" else "setex")).1 = true := rfl
  have harg : arg [name, key, text, value] 2 = text := rfl
  have hsome : ¬ (n : Int) ≤ 0 := by omega
  rw [timedSet, harity, harg, Commands.integer, htext]
  simp only [Bool.not_true, Bool.false_eq_true, if_false, if_neg hsome]
  change Prog.call _ _ = _
  congr 1
  funext now
  change Prog.call _ _ = _
  congr 1
  funext wrote
  cases wrote <;> rfl

theorem timed_granted {name key text value : List UInt8} {millis : Bool} {n : Nat}
    (h : Ends imp p env [name, key, text, value] dialect sky map ran map')
    (hname : name.map upper = ascii (if millis then "PSETEX" else "SETEX"))
    (htext : integerOf text = some (n : Int)) (hpos : 0 < n) (htaken : ran.reply = okay ∨ ran.reply = flag true) :
    Granted imp p (sky 1) map map' key (until_ millis n (sky 0).now) (some value) := by
  have hwork : (timedSet [name, key, text, value] millis).run
      (fun sky map op => map.perform imp p sky op) sky map = .ok (ran.reply, map') := by
    cases millis with
    | true => exact h.work (run_strings hname (by decide) rfl)
    | false => exact h.work (run_strings hname (by decide) rfl)
  rw [timedSet_eq name key value millis htext hpos] at hwork
  obtain ⟨answer, hperform, hreply⟩ := run_timed hwork
  rw [← hreply] at htaken
  cases answer with
  | error full => exact absurd htaken (show ¬ (oom = okay ∨ oom = flag true) by decide)
  | ok wrote => exact .wrote hperform (.inl rfl)

def changed : Except Full Bool → List UInt8
  | .ok there => flag there
  | .error _ => oom

theorem flag_false : ¬ (flag false = okay ∨ flag false = flag true) := by
  rintro (hokay | htrue)
  · exact absurd (List.cons.inj hokay).1 (by decide)
  · have hnumber := number_inj (List.append_cancel_right (List.cons.inj htrue).2)
    cases hnumber

theorem run_expire {key : List UInt8} {millis : Bool} {n : Nat} (hpos : 0 < n) {text : List UInt8}
    (hfits : (sky 0).now.toNat + (lasting millis n + 999) / 1000 < 2 ^ 32)
    (h : (Commands.expire key n millis false).run (fun sky map op => map.perform imp p sky op) sky map =
      .ok (text, map')) :
    ∃ answer, map.perform imp p (sky 1) (.key key (.expire (some (until_ millis n (sky 0).now)))) = .ok (answer, map') ∧
      changed answer = text := by
  rw [Commands.expire] at h
  obtain ⟨⟨now, map₁⟩, hnow, h⟩ := bind_ok_iff.mp h
  cases hnow
  have hmoment := (until_toNat hpos hfits).1
  have hlasts : 0 < lasting millis n := by
    rw [lasting]
    split
    · omega
    · omega
  have hlater : ¬ moment (sky 0).now n (if millis then 1000 else 1) false ≤ ((sky 0).now.toNat : Int) := by omega
  change (if moment (sky 0).now n (if millis then 1000 else 1) false ≤ ((sky 0).now.toNat : Int) then _ else _ :
    Work (List UInt8)).run _ _ _ = _ at h
  rw [if_neg hlater] at h
  obtain ⟨⟨answer, map₂⟩, hperform, h⟩ := bind_ok_iff.mp h
  refine ⟨answer, ?_, ?_⟩
  · cases answer <;> cases h <;> exact hperform
  · cases answer <;> cases h <;> rfl

theorem expire_granted {name key text : List UInt8} {millis : Bool} {n : Nat}
    (h : Ends imp p env [name, key, text] dialect sky map ran map')
    (hname : name.map upper = ascii (if millis then "PEXPIRE" else "EXPIRE"))
    (htext : integerOf text = some (n : Int)) (hpos : 0 < n)
    (hfits : (sky 0).now.toNat + (lasting millis n + 999) / 1000 < 2 ^ 32)
    (htaken : ran.reply = okay ∨ ran.reply = flag true) :
    Granted imp p (sky 1) map map' key (until_ millis n (sky 0).now) none := by
  have hwork : (expireBy [name, key, text] (if millis then "pexpire" else "expire") millis false).run
      (fun sky map op => map.perform imp p sky op) sky map = .ok (ran.reply, map') := by
    cases millis with
    | true => exact h.work (run_keyspace hname (by decide) rfl rfl)
    | false => exact h.work (run_keyspace hname (by decide) rfl rfl)
  have harity : (arity [name, key, text] 3 (if millis then "pexpire" else "expire")).1 = true := rfl
  have harg : arg [name, key, text] 2 = text := rfl
  rw [expireBy, harity, harg, Commands.integer, htext] at hwork
  obtain ⟨answer, hperform, hreply⟩ := run_expire hpos hfits hwork
  rw [← hreply] at htaken
  cases answer with
  | error full => exact absurd htaken (show ¬ (oom = okay ∨ oom = flag true) by decide)
  | ok changed =>
    cases changed with
    | false => exact absurd htaken flag_false
    | true => exact .changed hperform

/-- A command that took gave the key the expiry. -/
theorem Gives.granted {key : List UInt8} {written : Option (List UInt8)} {millis : Bool} {n : Nat}
    {args : List (List UInt8)} (hgives : Gives key written millis n args)
    (h : Ends imp p env args dialect sky map ran map') (htaken : ran.reply = okay ∨ ran.reply = flag true)
    (hfits : (sky 0).now.toNat + (lasting millis n + 999) / 1000 < 2 ^ 32) :
    Granted imp p (sky 1) map map' key (until_ millis n (sky 0).now) written := by
  cases hgives with
  | option hname hsaid hlegal hget hexpire _ => exact option_granted h hname hsaid hlegal hget hexpire htaken
  | timed hname htext hpos => exact timed_granted h hname htext hpos htaken
  | expire hname htext hpos => exact expire_granted h hname htext hpos hfits htaken

end command

/-! ## The map -/

namespace Map
variable {imp : Imp} {p : Platform} {sky : Sky} {map map' : Map} {m : Cache} {key : List UInt8}

/-- The map without its ceiling. -/
def unlimited (map : Map) : Map := { map with shardBudget := 0 }

/-- A step that evicts nothing: it leaves what it would without a ceiling. -/
structure Quiet (imp : Imp) (p : Platform) (map : Map) (act : Act) (map' : Map) : Prop where
  goes : Returns imp p map act map'
  unlimited : Returns imp p map.unlimited act map'.unlimited

/-- The value is the one that was written, or else the one that was there. -/
def Found (imp : Imp) (map : Map) (key value : List UInt8) (written : Option (List UInt8)) : Prop :=
  written = some value ∨ written = none ∧ ∃ kept, map.stored imp key = .ok (some kept) ∧ kept.value = value

theorem is_unlimited : map.unlimited.IsCache imp m ↔ map.IsCache imp m := by
  constructor
  · intro h
    refine ⟨h.shaped, ?_⟩
    intro i shard hi
    obtain ⟨hseed, hlen, hcharged, his⟩ := h.shards i shard hi
    exact ⟨hseed, hlen, hcharged, his⟩
  · intro h
    refine ⟨h.shaped, ?_⟩
    intro i shard hi
    obtain ⟨hseed, hlen, hcharged, his⟩ := h.shards i shard hi
    exact ⟨hseed, hlen, hcharged, his⟩

theorem onKept_wrote {now : UInt32} {held kept : Option Kept} {value : List UInt8} {when_ : When} {expiry : Expiry}
    {wrote : Option Wrote} (hdone : when_ = .always ∨ wrote.isSome)
    (h : (KeyOp.setWhen value when_ expiry none).onKept key now held = some (.ok wrote, kept)) :
    kept = some ⟨value, expiry.over ((Kept.live now held).map Kept.expiry), none⟩ := by
  rw [KeyOp.onKept] at h
  split at h
  · next hrefuses =>
    cases h
    obtain rfl | hsome := hdone
    · cases hrefuses
    · cases hsome
  · rw [writes] at h
    split at h
    · cases h
      rfl
    · cases h

theorem IsCache.granted (h : map.IsCache imp m) (hbudget : map.shardBudget = 0) {expiry : UInt32}
    {written : Option (List UInt8)} (hgranted : Granted imp p sky map map' key expiry written) :
    ∃ m' kept, map'.IsCache imp m' ∧ m' key = some kept ∧ kept.expiry = some expiry ∧
      (written = some kept.value ∨ written = none ∧ ∃ before, m key = some before ∧ before.value = kept.value) := by
  cases hgranted with
  | @wrote value when_ wrote hperform hdone =>
    have hserved := h.perform_key_ok p sky key (.setWhen value when_ (.at_ expiry) none)
    rw [hperform] at hserved
    cases hserved with
    | answered hwant _ _ hnone his =>
      have hkept := onKept_wrote hdone hwant
      refine ⟨_, ⟨value, some expiry, none⟩, his, ?_, rfl, .inl rfl⟩
      rw [hnone hbudget, Function.update_self, hkept]
      rfl
    | refused hrefused _ =>
      obtain ⟨full, hfull⟩ := hrefused
      cases hfull
  | changed hperform =>
    have hserved := h.perform_key_ok p sky key (.expire (some expiry))
    rw [hperform] at hserved
    cases hserved with
    | @answered _ kept _ _ hwant _ _ hnone his =>
      rw [KeyOp.onKept, Option.some.injEq, Prod.mk.injEq] at hwant
      obtain ⟨hthere, hkept⟩ := hwant
      obtain ⟨before, hbefore⟩ := Option.isSome_iff_exists.mp (Except.ok.inj hthere)
      have hheld : m key = some before := (Option.filter_eq_some_iff.mp hbefore).1
      refine ⟨_, { before with expiry := some expiry }, his, ?_, rfl, .inr ⟨rfl, before, hheld, rfl⟩⟩
      rw [hnone hbudget, Function.update_self, ← hkept, hbefore]
      rfl
    | refused hrefused _ =>
      obtain ⟨full, hfull⟩ := hrefused
      cases hfull

/-- While its expiry has not passed, a key keeps what it has. -/
theorem IsCache.quiet (h : map.IsCache imp m) {kept : Kept} (hkept : m key = some kept) {t' : Nat}
    {tr : List (Map × Act × Map)} (hrun : Run (Quiet imp p) map tr map')
    (helse : ∀ x ∈ tr, x.2.1.Elsewhere key ∧ Unstranded p x.1 x.2.1) (hticked : ∀ x ∈ tr, Ticked t' x.2.1.now)
    (hahead : ∀ now, Ticked t' now → Table.passed kept.expiry now = false) :
    ∃ m', map'.IsCache imp m' ∧ m' key = some kept := by
  have hstep : ∀ (map₁ : Map) (act : Act) (map₂ : Map), (∃ m, map₁.IsCache imp m ∧ m key = some kept) →
      (act.Elsewhere key ∧ Unstranded p map₁ act) ∧ Ticked t' act.now → Quiet imp p map₁ act map₂ →
      ∃ m, map₂.IsCache imp m ∧ m key = some kept := by
    intro map₁ act map₂ ⟨m₁, his, hkept⟩ ⟨⟨helse, hkeeps⟩, hticked⟩ hquiet
    have hkeeps' : Unstranded p map₁.unlimited act := by
      cases act with
      | op did => exact hkeeps
      | sweep sky budget removed => trivial
    obtain ⟨-, m₂, his', hsame⟩ := (is_unlimited.mpr his).goes hquiet.unlimited hkeeps'
    refine ⟨m₂, is_unlimited.mp his', ?_⟩
    obtain hsame | ⟨gone, hgone, hpassed⟩ := hsame rfl key helse
    · rw [hsame, hkept]
    · rw [hkept] at hgone
      cases hgone
      rw [hahead _ hticked] at hpassed
      cases hpassed
  exact (hrun.invariant ⟨m, h, hkept⟩ hstep fun x hx => ⟨helse x hx, hticked x hx⟩).1

end Map

section lifetimes
variable {imp : Imp} {p : Platform} {shards maxmemory : Nat} {seed : UInt64} {tr : List (Map × Map.Act × Map)}
  {map map' : Map} {env : Env} {args : List (List UInt8)} {dialect : Dialect} {sky : Nat → Sky} {ran : Commands.Ran}
  {key value : List UInt8} {written : Option (List UInt8)} {millis : Bool} {n t : Nat}

end lifetimes

def fresh : Map := Map.withSeed 1 0 0

end Rugo
