import Rugo.Commands
import Rugo.Decimals
import Rugo.MapSteps
import Rugo.Replies
import Rugo.StrandedMaps

/- Every command appends one complete value, in the dialect it leaves, whatever the
   map answers and whoever else is at work on it; and on a map in good order every
   command returns.

     1. `one_reply`: one command, and a pipeline of them. -/
namespace Rugo

/-! ## Operations that are served -/

/-- An operation whose entries can be described, whatever is held. -/
def Map.Op.Described : Map.Op → Prop
  | .key name op => ∀ now held, op.onKept name now held ≠ none
  | _ => True

theorem writes_fits {A : Type} {key : List UInt8} {kept : Kept} (h : Fits key kept) (answer : A) :
    writes key kept answer ≠ none := by
  rw [writes, if_pos h]
  exact Option.some_ne_none _

namespace KeyOp
variable {key value : List UInt8} (hkey : key.length < 2 ^ 35)
include hkey

theorem described_set (expiry userFlags : Option UInt32) (hvalue : value.length < 2 ^ 35) :
    (Map.Op.key key (.set value expiry userFlags)).Described := by
  intro now held
  have hfits : Fits key ⟨value, expiry, userFlags⟩ := ⟨hkey, hvalue⟩
  exact writes_fits hfits _

theorem described_setWhen (when_ : When) (expiry : Expiry) (userFlags : Option UInt32)
    (hvalue : value.length < 2 ^ 35) : (Map.Op.key key (.setWhen value when_ expiry userFlags)).Described := by
  intro now held
  have hfits : ∀ expiry, Fits key ⟨value, expiry, userFlags⟩ := fun _ => ⟨hkey, hvalue⟩
  rw [onKept]
  split
  · exact Option.some_ne_none _
  · exact writes_fits (hfits _) _

theorem described_increment (by_ : Int) : (Map.Op.key key (.increment by_)).Described := by
  intro now held
  rw [onKept]
  split
  · exact Option.some_ne_none _
  · split
    · exact Option.some_ne_none _
    · next next_ hnext =>
      obtain ⟨-, hmin, hmax⟩ := Signed.fit_eq_some.mp hnext
      have hlow : Signed.i64Min = -2 ^ 63 := rfl
      have hhigh : Signed.i64Max = 2 ^ 63 - 1 := rfl
      have hlength : (digits next_).length ≤ 20 := by
        apply digits_length
        have hfit := (Signed.fit_eq_some.mp hnext).1
        rw [hfit]
        omega
      refine writes_fits ⟨hkey, ?_⟩ _
      show (digits next_).length < 2 ^ 35
      omega

end KeyOp

namespace Commands
open Progs Resp Resp.Encoder Runs

/-- The reply, where it fits in memory, is one complete value. -/
def Answers (dialect : Dialect) (reply : List UInt8) : Prop := reply.length < 2 ^ 63 → Values dialect 1 reply

/-- A command's program: what it calls can be described, a refusal is the end of it, and
it comes to one of these. -/
abbrev Comes {α : Type} (P : α → Prop) (work : Work α) : Prop := work.Calls Map.Op.Described Map.Op.Refused P

theorem answers_line {d : Dialect} {reply : List UInt8} (h : Values d 1 reply) : Answers d reply := fun _ => h

theorem answers_bulk {d : Dialect} (body : List UInt8) : Answers d (bulk body) := by
  intro hlen
  exact bulk_values (Nat.lt_of_le_of_lt (length_le_bulk body) hlen)

theorem answers_bulkOr {d : Dialect} (value : Option (List UInt8)) : Answers d (bulkOr d value) := by
  cases value with
  | none => exact answers_line null_values
  | some value => exact answers_bulk value

theorem answers_integer {d : Dialect} (v : Int) : Answers d (Encoder.integer v) := answers_line (integer_values v)

/-- An error whose text is in the source. -/
theorem answers_error {d : Dialect} {text : List UInt8} (h : Plain text) : Answers d (error text) :=
  answers_line (error_values h)

theorem answers_okay {d : Dialect} : Answers d okay := answers_line (simple_values (by decide))

theorem answers_oom {d : Dialect} : Answers d oom := answers_error (by decide)

theorem answers_flag {d : Dialect} (b : Bool) : Answers d (flag b) := answers_integer _

theorem answers_arity {d : Dialect} {args : List (List UInt8)} {want : Nat} {name : String}
    (hname : Plain (ascii name)) (h : args.length ≠ want) : Answers d (arity args want name).2 := by
  rw [arity, if_neg h]
  apply answers_error
  apply Plain.append
  · exact Plain.append (by decide) hname
  · decide

theorem arity_wrong {args : List (List UInt8)} {want : Nat} {name : String} (h : (!(arity args want name).1) = true) :
    args.length ≠ want := by
  intro heq
  rw [arity, if_pos heq] at h
  cases h

theorem answers_notANumber {d : Dialect} {text wrong : List UInt8} (h : Commands.integer text = (none, wrong)) :
    Answers d wrong := by
  rw [Commands.integer] at h
  split at h
  · cases h
  · cases h
    exact answers_error (by decide)

/-- The first of several commands whose name it is. -/
theorem chosen {α : Type} {P : α → Prop} {c : Prop} [Decidable c] {a : α} {others : Option α} (ha : P a)
    (hothers : ∀ b, others = some b → P b) : ∀ b, (if c then some a else others) = some b → P b := by
  intro b hb
  by_cases hc : c
  · rw [if_pos hc, Option.some.injEq] at hb
    rw [← hb]
    exact ha
  · rw [if_neg hc] at hb
    exact hothers b hb

/-! ## Arguments -/

/-- An argument is as long as a span can say. -/
def Spanned (args : List (List UInt8)) : Prop := ∀ arg ∈ args, arg.length < 2 ^ 32

instance (args : List (List UInt8)) : Decidable (Spanned args) :=
  inferInstanceAs (Decidable (∀ arg ∈ args, arg.length < 2 ^ 32))

theorem Spanned.arg {args : List (List UInt8)} (h : Spanned args) (n : Nat) : (arg args n).length < 2 ^ 35 := by
  rw [Commands.arg]
  cases hn : args[n]? with
  | none => decide
  | some text =>
    have htext := h text (List.mem_of_getElem? hn)
    show text.length < 2 ^ 35
    omega

/-! ## Calls -/

section calls
variable {α : Type} {P : α → Prop} {key : List UInt8}

theorem ask_get {f : Option (List UInt8) → Work α} (hf : ∀ value, Comes P (f value)) :
    Comes P (Call.get key >>= f) :=
  Prog.Calls.ask (fun _ _ => Option.some_ne_none _) (fun _ hno => hno) hf

theorem ask_contains {f : Bool → Work α} (hf : ∀ there, Comes P (f there)) : Comes P (Call.contains key >>= f) :=
  Prog.Calls.ask (fun _ _ => Option.some_ne_none _) (fun _ hno => hno) hf

theorem ask_remove {f : Bool → Work α} (hf : ∀ there, Comes P (f there)) : Comes P (Call.remove key >>= f) :=
  Prog.Calls.ask (fun _ _ => Option.some_ne_none _) (fun _ hno => hno) hf

theorem ask_deadline {f : Option (Option UInt32) → Work α} (hf : ∀ when_, Comes P (f when_)) :
    Comes P (Call.deadline key >>= f) :=
  Prog.Calls.ask (fun _ _ => Option.some_ne_none _) (fun _ hno => hno) hf

theorem ask_len {f : Nat → Work α} (hf : ∀ len, Comes P (f len)) : Comes P (Call.len >>= f) :=
  Prog.Calls.ask trivial (fun _ hno => hno) hf

theorem ask_clear {f : Unit → Work α} (hf : ∀ u, Comes P (f u)) : Comes P (Call.clear >>= f) :=
  Prog.Calls.ask trivial (fun _ hno => hno) hf

theorem ask_now {f : UInt32 → Work α} (hf : ∀ now, Comes P (f now)) : Comes P (Call.now >>= f) :=
  Prog.Calls.ask trivial (fun _ hno => hno) hf

/-- A write that is refused is the last call. -/
theorem refusal {A : Type} {f : Except Full A → Work α} (hok : ∀ a, Comes P (f (.ok a)))
    (hfull : ∀ full, ∃ b, f (.error full) = .ret b ∧ P b) :
    ∀ wrote, Comes P (f wrote) ∧ ((∃ full, wrote = .error full) → ∃ b, f wrote = .ret b) := by
  intro wrote
  cases wrote with
  | error full =>
    obtain ⟨b, hb, hP⟩ := hfull full
    rw [hb]
    exact ⟨hP, fun _ => ⟨b, rfl⟩⟩
  | ok a =>
    refine ⟨hok a, ?_⟩
    intro ⟨full, hfull⟩
    cases hfull

theorem ask_set {value : List UInt8} {f : Except Full Wrote → Work α} (hkey : key.length < 2 ^ 35)
    (hvalue : value.length < 2 ^ 35) (hok : ∀ wrote, Comes P (f (.ok wrote)))
    (hfull : ∀ full, ∃ a, f (.error full) = .ret a ∧ P a) : Comes P (Call.set key value >>= f) :=
  ⟨KeyOp.described_set hkey none none hvalue, refusal hok hfull⟩

theorem ask_setWhen {value : List UInt8} {when_ : When} {expiry : Expiry} {f : Except Full (Option Wrote) → Work α}
    (hkey : key.length < 2 ^ 35) (hvalue : value.length < 2 ^ 35) (hok : ∀ wrote, Comes P (f (.ok wrote)))
    (hfull : ∀ full, ∃ a, f (.error full) = .ret a ∧ P a) :
    Comes P (Call.setWhen key value when_ expiry >>= f) :=
  ⟨KeyOp.described_setWhen hkey when_ expiry none hvalue, refusal hok hfull⟩

theorem ask_expire {expiry : Option UInt32} {f : Except Full Bool → Work α} (hok : ∀ there, Comes P (f (.ok there)))
    (hfull : ∀ full, ∃ a, f (.error full) = .ret a ∧ P a) : Comes P (Call.expire key expiry >>= f) :=
  ⟨fun _ _ => Option.some_ne_none _, refusal hok hfull⟩

end calls

/-! ## Strings -/

section strings
variable {d : Dialect} {args : List (List UInt8)}

theorem get_comes : Comes (Answers d) (get d args) := by
  apply Prog.Calls.ite
  · intro hwrong
    exact answers_arity (by decide) (arity_wrong hwrong)
  · intro _
    apply ask_get
    intro value
    exact answers_bulkOr value

/-- As many values as there are keys. -/
theorem values_comes (keys : List (List UInt8)) :
    Comes (fun reply => reply.length < 2 ^ 63 → Values d keys.length reply) (values d keys) := by
  induction keys with
  | nil => exact fun _ => .nil
  | cons key keys ih =>
    apply ask_get
    intro value
    apply ih.map
    intro rest hrest hlen
    rw [List.length_append] at hlen
    have hvalue := answers_bulkOr (d := d) value (by omega)
    have hboth := hvalue.append (hrest (by omega))
    rw [Nat.add_comm] at hboth
    exact hboth

theorem mget_comes : Comes (Answers d) (mget d args) := by
  apply Prog.Calls.ite
  · intro hfew
    exact answers_arity (by decide) (by omega)
  · intro hmany
    apply (values_comes (args.drop 1)).map
    intro rest hrest hlen
    rw [List.length_append] at hlen
    have hvalues := hrest (by omega)
    have hcount := hvalues.le_length
    rw [List.length_drop] at hvalues hcount
    exact array_values (by omega) hvalues

theorem pairs_comes {keys : List (List UInt8)} (h : Spanned keys) : Comes (Answers d) (pairs keys) := by
  induction keys using pairs.induct with
  | case1 key value rest ih =>
    have hkey := h key List.mem_cons_self
    have hvalue := h value (List.mem_cons_of_mem _ List.mem_cons_self)
    rw [pairs]
    apply ask_set (by omega) (by omega)
    · intro _
      exact ih fun arg harg => h arg (List.mem_cons_of_mem _ (List.mem_cons_of_mem _ harg))
    · intro full
      exact ⟨oom, rfl, answers_oom⟩
  | case2 keys hno =>
    rw [pairs]
    · exact answers_okay
    · exact hno

theorem mset_comes (h : Spanned args) : Comes (Answers d) (mset args) := by
  apply Prog.Calls.ite
  · intro hfew
    exact answers_arity (by decide) (by omega)
  · intro _
    exact pairs_comes fun arg harg => h arg (List.mem_of_mem_drop harg)

theorem count_comes {key : List UInt8} (hkey : key.length < 2 ^ 35) (by_ : Int) :
    Comes (Answers d) (count key by_) := by
  refine ⟨KeyOp.described_increment hkey by_, ?_⟩
  intro counted
  cases counted with
  | ok value => exact ⟨answers_integer value, fun hrefused => nomatch hrefused⟩
  | error uncounted =>
    cases uncounted with
    | notANumber => exact ⟨answers_error (by decide), fun hrefused => nomatch hrefused⟩
    | outOfRange => exact ⟨answers_error (by decide), fun hrefused => nomatch hrefused⟩
    | full => exact ⟨answers_oom, fun _ => ⟨oom, rfl⟩⟩

theorem incr_comes (h : Spanned args) {word : String} (hword : Plain (ascii word)) (by_ : Int) :
    Comes (Answers d) (incr args word by_) := by
  apply Prog.Calls.ite
  · intro hwrong
    exact answers_arity hword (arity_wrong hwrong)
  · intro _
    exact count_comes (h.arg 1) by_

theorem incrBy_comes (h : Spanned args) {word : String} (hword : Plain (ascii word)) (negated : Bool) :
    Comes (Answers d) (incrBy args word negated) := by
  apply Prog.Calls.ite
  · intro hwrong
    exact answers_arity hword (arity_wrong hwrong)
  · intro _
    split
    · next wrong hwrong => exact answers_notANumber hwrong
    · split
      · exact answers_error (by decide)
      · exact count_comes (h.arg 1) _

theorem strlen_comes : Comes (Answers d) (strlen args) := by
  apply Prog.Calls.ite
  · intro hwrong
    exact answers_arity (by decide) (arity_wrong hwrong)
  · intro _
    apply ask_get
    intro value
    exact answers_integer _

/-- What is wrong with the options of a `SET` is one error. -/
theorem options_error {now : UInt32} {n : Nat} {opts : Options} {wrong : List UInt8}
    (h : options now args n opts = .error wrong) : Answers d wrong := by
  fun_induction options now args n opts with
  | case1 _ _ _ _ ih => exact ih h
  | case2 _ _ _ _ _ ih => exact ih h
  | case3 _ _ _ _ _ _ ih => exact ih h
  | case4 =>
    cases h
    exact answers_error (by decide)
  | case5 =>
    cases h
    exact answers_error (by decide)
  | case6 _ _ _ _ _ _ _ _ _ _ _ _ ih => exact ih h
  | case7 =>
    cases h
    exact answers_error (by decide)
  | case8 => cases h

theorem set_comes (h : Spanned args) : Comes (Answers d) (set d args) := by
  apply Prog.Calls.ite
  · intro hfew
    exact answers_arity (by decide) (by omega)
  · intro _
    apply Prog.Calls.ite
    · intro _
      apply ask_set (h.arg 1) (h.arg 2)
      · intro _
        exact answers_okay
      · intro full
        exact ⟨oom, rfl, answers_oom⟩
    · intro _
      apply ask_now
      intro now
      split
      · next wrong hwrong => exact options_error hwrong
      · apply ask_setWhen (h.arg 1) (h.arg 2)
        · intro wrote
          cases wrote with
          | none => exact answers_line null_values
          | some wrote => exact answers_okay
        · intro full
          exact ⟨oom, rfl, answers_oom⟩

theorem timedSet_comes (h : Spanned args) (millis : Bool) : Comes (Answers d) (timedSet args millis) := by
  have hword : Plain (ascii (if millis then "psetex" else "setex")) := by
    cases millis <;> decide
  apply Prog.Calls.ite
  · intro hwrong
    exact answers_arity hword (arity_wrong hwrong)
  · intro _
    split
    · next wrong hwrong => exact answers_notANumber hwrong
    · apply Prog.Calls.ite
      · intro _
        apply answers_error
        apply Plain.append
        · exact Plain.append (by decide) hword
        · decide
      · intro _
        apply ask_now
        intro now
        apply ask_setWhen (h.arg 1) (h.arg 3)
        · intro _
          exact answers_okay
        · intro full
          exact ⟨oom, rfl, answers_oom⟩

theorem strings_comes (h : Spanned args) (name : List UInt8) :
    ∀ work, strings d args name = some work → Comes (Answers d) work := by
  rw [strings]
  apply chosen get_comes
  apply chosen (set_comes h)
  apply chosen (timedSet_comes h _)
  apply chosen mget_comes
  apply chosen (mset_comes h)
  apply chosen (incr_comes h (by decide) 1)
  apply chosen (incr_comes h (by decide) (-1))
  apply chosen (incrBy_comes h (by decide) false)
  apply chosen (incrBy_comes h (by decide) true)
  apply chosen strlen_comes
  exact nofun

end strings

/-! ## Keys -/

section keyspace
variable {d : Dialect} {args : List (List UInt8)}

/-- A count of the keys that a call says yes to. -/
theorem tally_comes {ask : List UInt8 → Work Bool}
    (hask : ∀ key {f : Bool → Work Nat}, (∀ yes, Comes (fun _ => True) (f yes)) →
      Comes (fun _ => True) (ask key >>= f)) (keys : List (List UInt8)) :
    Comes (fun _ => True) (tally ask keys) := by
  induction keys with
  | nil => trivial
  | cons key keys ih =>
    apply hask key
    intro yes
    exact ih.map fun _ _ => trivial

theorem del_comes : Comes (Answers d) (del args) := by
  apply Prog.Calls.ite
  · intro hfew
    exact answers_arity (by decide) (by omega)
  · intro _
    apply (tally_comes (fun _ => ask_remove) (args.drop 1)).map
    intro went _
    exact answers_integer _

theorem exists_comes : Comes (Answers d) (exists_ args) := by
  apply Prog.Calls.ite
  · intro hfew
    exact answers_arity (by decide) (by omega)
  · intro _
    apply (tally_comes (fun _ => ask_contains) (args.drop 1)).map
    intro there _
    exact answers_integer _

theorem expire_comes (key : List UInt8) (value : Int) (millis absolute : Bool) :
    Comes (Answers d) (expire key value millis absolute) := by
  apply ask_now
  intro now
  apply Prog.Calls.ite
  · intro _
    apply ask_remove
    intro there
    exact answers_flag there
  · intro _
    apply ask_expire
    · intro there
      exact answers_flag there
    · intro full
      exact ⟨oom, rfl, answers_oom⟩

theorem expireBy_comes {word : String} (hword : Plain (ascii word)) (millis absolute : Bool) :
    Comes (Answers d) (expireBy args word millis absolute) := by
  apply Prog.Calls.ite
  · intro hwrong
    exact answers_arity hword (arity_wrong hwrong)
  · intro _
    split
    · next wrong hwrong => exact answers_notANumber hwrong
    · exact expire_comes (arg args 1) _ millis absolute

theorem ttl_comes {word : String} (hword : Plain (ascii word)) (millis : Bool) :
    Comes (Answers d) (ttl args word millis) := by
  apply Prog.Calls.ite
  · intro hwrong
    exact answers_arity hword (arity_wrong hwrong)
  · intro _
    apply ask_now
    intro now
    apply ask_deadline
    intro when_
    split
    · exact answers_integer _
    · exact answers_integer _
    · exact answers_integer _

theorem cleared_comes (key : List UInt8) (had : Bool) : Comes (Answers d) (cleared key had) := by
  apply ask_expire
  · intro _
    exact answers_flag had
  · intro full
    exact ⟨oom, rfl, answers_oom⟩

theorem persist_comes : Comes (Answers d) (persist args) := by
  apply Prog.Calls.ite
  · intro hwrong
    exact answers_arity (by decide) (arity_wrong hwrong)
  · intro _
    apply ask_deadline
    intro when_
    exact cleared_comes (arg args 1) _

theorem dbsize_comes : Comes (Answers d) dbsize := by
  apply ask_len
  intro len
  exact answers_integer _

theorem flushall_comes : Comes (Answers d) flushall := by
  apply ask_clear
  intro _
  exact answers_okay

theorem keyspace_comes (name : List UInt8) :
    ∀ work, keyspace args name = some work → Comes (Answers d) work := by
  rw [keyspace]
  apply chosen del_comes
  apply chosen exists_comes
  apply chosen (expireBy_comes (by decide) false false)
  apply chosen (expireBy_comes (by decide) true false)
  apply chosen (expireBy_comes (by decide) false true)
  apply chosen (expireBy_comes (by decide) true true)
  apply chosen (ttl_comes (by decide) false)
  apply chosen (ttl_comes (by decide) true)
  apply chosen persist_comes
  apply chosen dbsize_comes
  apply chosen flushall_comes
  exact nofun

end keyspace

/-! ## The connection -/

section connection
variable {env : Env} {d : Dialect} {args : List (List UInt8)}

theorem hello_answers : Answers d (hello env d) := by
  intro hlen
  have hversion : env.version.length < 2 ^ 63 := by
    have hbulk := length_le_bulk env.version
    simp only [hello, List.length_append] at hlen
    omega
  have hword : ∀ text : String, (ascii text).length < 2 ^ 63 → Values d 1 (bulk (ascii text)) :=
    fun text htext => bulk_values htext
  have hall := (hword "server" (by decide)).append <| (hword "rugo" (by decide)).append <|
    (hword "version" (by decide)).append <| (bulk_values hversion).append <|
    (hword "proto" (by decide)).append <| (integer_values (if d = .resp3 then 3 else 2)).append <|
    (hword "id" (by decide)).append <| (integer_values 0).append <|
    (hword "mode" (by decide)).append <| (hword "standalone" (by decide)).append <|
    (hword "role" (by decide)).append <| (hword "master" (by decide)).append <|
    (hword "modules" (by decide)).append <| array_values (by decide) (Values.nil (d := d))
  have hgreeting := map_values (k := 7) (by decide) hall
  simp only [hello, List.append_assoc, List.append_nil] at hgreeting ⊢
  exact hgreeting

/-- What a command answers, in the dialect it leaves. -/
def Told (ran : Ran) : Prop := Answers ran.dialect ran.reply

theorem ping_told : Told (ping d args) := by
  rw [ping]
  split
  · exact answers_line (simple_values (by decide))
  · split
    · exact answers_bulk _
    · next htwo => exact answers_arity (by decide) htwo

theorem echo_told : Told (echo d args) := by
  rw [echo]
  split
  · exact answers_bulk _
  · next hwrong => exact answers_arity (by decide) (arity_wrong (by simpa using hwrong))

theorem greet_told : Told (greet env d args) := by
  rw [greet]
  split
  · split
    · exact hello_answers
    · exact hello_answers
    · exact answers_error (by decide)
  · exact hello_answers

theorem select_told : Told (select d args) := by
  rw [select]
  split
  · next hwrong => exact answers_arity (by decide) (arity_wrong hwrong)
  · split
    · exact answers_okay
    · exact answers_error (by decide)

theorem connection_told (name : List UInt8) : ∀ ran, connection env d args name = some ran → Told ran := by
  rw [connection]
  apply chosen ping_told
  apply chosen echo_told
  apply chosen greet_told
  apply chosen select_told
  have hreset : Told ⟨Encoder.simple (ascii "RESET"), .resp2, false⟩ := answers_line (simple_values (by decide))
  have hquit : Told ⟨okay, d, true⟩ := answers_okay
  apply chosen hreset
  apply chosen hquit
  exact nofun

end connection

/-! ## The server -/

section admin
variable {env : Env} {d : Dialect} {args : List (List UInt8)}

theorem infoOf_comes : Comes (Answers d) (infoOf env args) := by
  apply ask_len
  intro len
  exact answers_bulk _

theorem array_answers : Answers d (Encoder.array 0) := by
  have harray := array_values (d := d) (by decide) .nil
  rw [List.append_nil] at harray
  exact answers_line harray

theorem command_answers : Answers d (command d args) := by
  rw [command]
  split
  · exact array_answers
  · split
    · exact answers_integer 0
    · split
      · have hmap := map_values (d := d) (k := 0) (by decide) .nil
        rw [List.append_nil] at hmap
        exact answers_line hmap
      · exact array_answers

/-- The names and the settings of a `CONFIG GET`. -/
theorem settings_values (pairs : List (List UInt8 × List UInt8)) :
    (pairs.flatMap fun pair => bulk pair.1 ++ bulk pair.2).length < 2 ^ 63 →
      Values d (2 * pairs.length) (pairs.flatMap fun pair => bulk pair.1 ++ bulk pair.2) := by
  induction pairs with
  | nil => exact fun _ => .nil
  | cons pair pairs ih =>
    intro hlen
    rw [List.flatMap_cons, List.length_append, List.length_append] at hlen
    have hname := answers_bulk (d := d) pair.1 (by omega)
    have hsetting := answers_bulk (d := d) pair.2 (by omega)
    have hall := (hname.append hsetting).append (ih (by omega))
    rw [List.flatMap_cons, List.length_cons, Nat.mul_succ, Nat.add_comm]
    exact hall

theorem config_answers : Answers d (config env d args) := by
  intro hlen
  rw [config, List.length_append] at hlen
  have hvalues := settings_values (d := d) (found env (args.drop 2)) (by omega)
  have hcount := hvalues.le_length
  exact map_values (by omega) hvalues

theorem client_answers : Answers d (client d args) := by
  rw [client]
  split
  · exact answers_line null_values
  · split
    · exact answers_integer 0
    · exact answers_okay

theorem admin_comes (name : List UInt8) : ∀ work, admin env d args name = some work → Comes (Answers d) work := by
  have hcommand : Comes (Answers d) (pure (command d args)) := command_answers
  have hconfig : Comes (Answers d)
      (pure (if args.length > 1 ∧ isWord "GET" (arg args 1) then config env d args else okay)) := by
    show Answers d _
    split
    · exact config_answers
    · exact answers_okay
  have hclient : Comes (Answers d) (pure (client d args)) := client_answers
  rw [admin]
  apply chosen infoOf_comes
  apply chosen hcommand
  apply chosen hconfig
  apply chosen hclient
  exact nofun

end admin

/-! ## One command -/

theorem answers_unknown {env : Env} {d : Dialect} {name : List UInt8} (h : ∀ text, Plain (env.escape text)) :
    Answers d (unknown env name) := by
  apply answers_error
  apply Plain.append
  · exact Plain.append (by decide) (h name)
  · decide

/-- A reply, and the dialect it was asked for in. -/
theorem told_comes {d : Dialect} {work : Work (List UInt8)} (h : Comes (Answers d) work) :
    Comes Told (do let reply ← work; pure ⟨reply, d, false⟩) :=
  h.map fun _ hreply => hreply

theorem run_comes {env : Env} {args : List (List UInt8)} {d : Dialect} (h : Spanned args) (hargs : args ≠ [])
    (hescape : ∀ text, Plain (env.escape text)) : Comes Told (run env args d) := by
  cases args with
  | nil => exact absurd rfl hargs
  | cons raw rest =>
    rw [run]
    apply Prog.Calls.ite
    · intro _
      exact answers_unknown hescape
    · intro _
      dsimp only
      split
      · next work hwork => exact told_comes (strings_comes h _ work hwork)
      · split
        · next work hwork => exact told_comes (keyspace_comes _ work hwork)
        · split
          · next ran hran => exact connection_told _ ran hran
          · split
            · next work hwork => exact told_comes (admin_comes _ work hwork)
            · exact answers_unknown hescape

theorem short_name {name : List UInt8} {word : String} (hname : name.map upper = ascii word)
    (hword : (ascii word).length ≤ maxName) : ¬ name.length > maxName := by
  have hlength := congrArg List.length hname
  rw [List.length_map] at hlength
  omega

theorem run_strings {name : List UInt8} {rest : List (List UInt8)} {word : String} {work : Work (List UInt8)}
    {env : Env}
    {dialect : Dialect}
    (hname : name.map upper = ascii word) (hword : (ascii word).length ≤ maxName)
    (hwork : strings dialect (name :: rest) (ascii word) = some work) :
    run env (name :: rest) dialect = (do let reply ← work; pure ⟨reply, dialect, false⟩) := by
  rw [run, if_neg (short_name hname hword), hname]
  simp only [hwork]

/-- One command after another, up to one that closes the connection. -/
def pipeline (env : Env) : List (List (List UInt8)) → Dialect → Work (List Ran)
  | [], _ => pure []
  | args :: rest, dialect => do
    let ran ← run env args dialect
    if ran.last then pure [ran]
    else do
      let rans ← pipeline env rest ran.dialect
      pure (ran :: rans)

/-- What came of a command, whoever answered its calls. -/
def CameOf {ι σ : Type} (perform : ι → σ → (op : Map.Op) → Exec (op.Answer × σ)) (env : Env)
    (args : List (List UInt8)) (ran : Ran) : Prop :=
  ∃ dialect sky s s', (run env args dialect).run perform sky s = .ok (ran, s')

section runs
variable {ι σ : Type} {perform : ι → σ → (op : Map.Op) → Exec (op.Answer × σ)} {env : Env}

end runs

/-- A command as a client can send one, and not the one that exits. -/
structure Sent (args : List (List UInt8)) : Prop where
  some : args ≠ []
  spanned : Spanned args
  returns : (arg args 0).map upper ≠ ascii "SHUTDOWN"

theorem CameOf.told {ι σ : Type} {perform : ι → σ → (op : Map.Op) → Exec (op.Answer × σ)} {env : Env}
    {args : List (List UInt8)} {ran : Ran} (h : CameOf perform env args ran) (hsent : Sent args)
    (hescape : ∀ text, Plain (env.escape text)) : Told ran := by
  obtain ⟨dialect, sky, s, s', hrun⟩ := h
  exact (run_comes hsent.spanned hsent.some hescape).run hrun

/-- A server that was just started, and an escape that knows the two line endings. -/
def started : Env where
  version := ascii "0.1.0"
  os := ascii "linux"
  archBits := 64
  processId := 1
  port := 6379
  uptime := 0
  threads := 1
  connections := 1
  commands := 1
  hits := 0
  misses := 0
  charged := 0
  resident := 0
  live := 0
  index := 0
  maxmemory := 0
  lower := fun text => text
  escape := fun text => text.flatMap fun byte =>
    if byte = 13 then ascii "\\r" else if byte = 10 then ascii "\\n" else [byte]

end Commands
end Rugo
