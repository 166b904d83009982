import Rugo.CommandReplies
import Rugo.Expiries

/- The options of a `SET`. `words` reads a list of options as the README spells them,
   and `Legal` is what it allows: one presence condition at most, and one word about the
   expiry at most. `Says` is what such a list says when the clock stands at `now`: the exact
   second that an expiry means, and what the list holds, in whatever order.

     1. `set_options_iff`: `SET` does what legal options say and refuses all else, exactly
        for the options whose `GET`s are there if and only if they are not legal, and whose
        expiry is a sum that fits.
     2. `get_refused`: `GET` alone is legal and refused; `NX XX` is not and is taken; and
        an expiry as far off as can be is one that has passed. -/
namespace Rugo.Commands
open Progs Resp Signed

/-- An option, with the argument it takes. -/
inductive Word where
  | nx
  | xx
  | get
  | keepttl
  | expire (value scale : Int) (absolute : Bool)
  deriving DecidableEq, Repr

namespace Word

def isPresence : Word → Bool
  | nx | xx => true
  | _ => false

def isExpiry : Word → Bool
  | keepttl | expire .. => true
  | _ => false

end Word

/-- The options of a `SET`, where each of them is one it is said to take. -/
def words : List (List UInt8) → Option (List Word)
  | [] => some []
  | word :: rest =>
    if isWord "NX" word then (words rest).map (.nx :: ·)
    else if isWord "XX" word then (words rest).map (.xx :: ·)
    else if isWord "GET" word then (words rest).map (.get :: ·)
    else if isWord "KEEPTTL" word then (words rest).map (.keepttl :: ·)
    else match unit word, rest with
      | some (scale, absolute), text :: rest =>
        match integerOf text with
        | some value =>
          if absolute ∨ value > 0 then (words rest).map (.expire value scale absolute :: ·) else none
        | none => none
      | _, _ => none

/-- At most one presence condition, and at most one word about the expiry. -/
def Legal (said : List Word) : Prop := said.countP Word.isPresence ≤ 1 ∧ said.countP Word.isExpiry ≤ 1

instance (said : List Word) : Decidable (Legal said) := inferInstanceAs (Decidable (_ ∧ _))

/-- The conditional write, and its reply. -/
def writing (dialect : Dialect) (key value : List UInt8) (opts : Options) : Work (List UInt8) := do
  let wrote ← Call.setWhen key value opts.when_ opts.expiry
  match wrote with
  | .ok none => pure (Encoder.null dialect)
  | .ok (some _) => pure okay
  | .error _ => pure oom

/-- `SET` answers an error, and calls on nothing but the clock. -/
def Refuses (dialect : Dialect) (name key value : List UInt8) (options : List (List UInt8)) : Prop :=
  ∃ text, set dialect (name :: key :: value :: options) = do
    let _ ← Call.now
    pure (Encoder.error text)

/-- The expiry that the options ask for is a sum that fits. -/
def Fits (now : UInt32) (said : List Word) : Prop :=
  ∀ value scale absolute, .expire value scale absolute ∈ said → Sums now value scale absolute

/-! ## The loop -/

def Word.apply (now : UInt32) (opts : Options) : Word → Options
  | nx => { opts with when_ := .absent }
  | xx => { opts with when_ := .present }
  | get => opts
  | keepttl => { opts with expiry := .keep }
  | expire value scale absolute => { opts with expiry := .at_ (stamp (moment now value scale absolute)) }

section loop
variable {args : List (List UInt8)}

theorem arg_of_drop {n : Nat} {word : List UInt8} {rest : List (List UInt8)} (h : args.drop n = word :: rest) :
    n < args.length ∧ arg args n = word ∧ args[n + 1]? = rest.head? ∧ args.drop (n + 1) = rest := by
  have hlt : n < args.length := by
    by_contra hge
    rw [List.drop_eq_nil_of_le (by omega)] at h
    cases h
  have hget : args[n]? = some word := by
    rw [← List.head?_drop, h]
    rfl
  have hrest : args.drop (n + 1) = rest := by
    rw [← List.drop_drop, h]
    rfl
  refine ⟨hlt, ?_, ?_, hrest⟩
  · rw [arg, hget]
    rfl
  · rw [← List.head?_drop, hrest]

theorem isWord_other {word other : String} {text : List UInt8} (h : isWord word text = true)
    (hne : (ascii word == ascii other) = false) : isWord other text = false := by
  have htext : text.map upper = ascii word := eq_of_beq h
  rw [isWord, htext]
  exact hne

theorem unit_get {text : List UInt8} (h : isWord "GET" text = true) : unit text = none := by
  have hother : ∀ word, (ascii "GET" == ascii word) = false → isWord word text = false := fun word hne =>
    isWord_other h hne
  rw [unit, hother "EX" (by decide), hother "PX" (by decide), hother "EXAT" (by decide), hother "PXAT" (by decide)]
  rfl

/-- What the loop makes of the options from `n` on: it takes them one after the other,
or it says what is wrong, which is so for every list with a `GET` in it. -/
def Loops (args : List (List UInt8)) (n : Nat) (options : List (List UInt8)) : Prop :=
  (∃ read, words options = some read ∧ .get ∉ read ∧
    ∀ now opts, Commands.options now args n opts = .ok (read.foldl (Word.apply now) opts)) ∨
  ∃ text, (∀ read, words options = some read → .get ∈ read) ∧
    ∀ now opts, Commands.options now args n opts = .error (Encoder.error text)

theorem Loops.more {n n' : Nat} {options rest : List (List UInt8)} {word : Word} (h : Loops args n' rest)
    (hword : word ≠ .get) (hread : words options = (words rest).map (word :: ·))
    (hloop : ∀ now opts, Commands.options now args n opts = Commands.options now args n' (word.apply now opts)) :
    Loops args n options := by
  obtain ⟨read, hrest, hget, hall⟩ | ⟨text, hget, hall⟩ := h
  · left
    refine ⟨word :: read, by rw [hread, hrest]; rfl, ?_, ?_⟩
    · rw [List.mem_cons, not_or]
      exact ⟨Ne.symm hword, hget⟩
    · intro now opts
      rw [hloop, hall, List.foldl_cons]
  · right
    refine ⟨text, ?_, ?_⟩
    · intro read hsome
      rw [hread, Option.map_eq_some_iff] at hsome
      obtain ⟨rest', hrest, rfl⟩ := hsome
      exact List.mem_cons_of_mem _ (hget rest' hrest)
    · intro now opts
      rw [hloop, hall]

theorem loops (options : List (List UInt8)) {n : Nat} (hdrop : args.drop n = options) : Loops args n options := by
  induction options using words.induct generalizing n with
  | case1 =>
    left
    refine ⟨[], rfl, by simp, ?_⟩
    intro now opts
    have hge : ¬ n < args.length := by
      have hlen := congrArg List.length hdrop
      rw [List.length_drop, List.length_nil] at hlen
      omega
    rw [Commands.options, if_neg hge]
    rfl
  | case2 word rest hnx ih =>
    obtain ⟨hlt, harg, -, hrest⟩ := arg_of_drop hdrop
    refine Loops.more (ih hrest) (by simp : Word.nx ≠ .get) ?_ ?_
    · rw [words.eq_def]
      simp only [if_pos hnx]
    · intro now opts
      rw [Commands.options, if_pos hlt, harg, if_pos hnx]
      rfl
  | case3 word rest hnx hxx ih =>
    obtain ⟨hlt, harg, -, hrest⟩ := arg_of_drop hdrop
    refine Loops.more (ih hrest) (by simp : Word.xx ≠ .get) ?_ ?_
    · rw [words.eq_def]
      simp only [if_neg hnx, if_pos hxx]
    · intro now opts
      rw [Commands.options, if_pos hlt, harg, if_neg hnx, if_pos hxx]
      rfl
  | case4 word rest hnx hxx hget ih =>
    -- the one option that the source does not have
    obtain ⟨hlt, harg, -, hrest⟩ := arg_of_drop hdrop
    right
    refine ⟨ascii "ERR syntax error", ?_, ?_⟩
    · intro read hread
      rw [words.eq_def] at hread
      simp only [if_neg hnx, if_neg hxx, if_pos hget, Option.map_eq_some_iff] at hread
      obtain ⟨rest', -, rfl⟩ := hread
      exact List.mem_cons_self
    · intro now opts
      have hkeep : ¬ isWord "KEEPTTL" word = true := by
        rw [isWord_other hget (by decide)]
        exact Bool.false_ne_true
      rw [Commands.options, if_pos hlt, harg, if_neg hnx, if_neg hxx, if_neg hkeep, unit_get hget]
  | case5 word rest hnx hxx hget hkeep ih =>
    obtain ⟨hlt, harg, -, hrest⟩ := arg_of_drop hdrop
    refine Loops.more (ih hrest) (by simp : Word.keepttl ≠ .get) ?_ ?_
    · rw [words.eq_def]
      simp only [if_neg hnx, if_neg hxx, if_neg hget, if_pos hkeep]
    · intro now opts
      rw [Commands.options, if_pos hlt, harg, if_neg hnx, if_neg hxx, if_pos hkeep]
      rfl
  | case6 word hnx hxx hget hkeep scale absolute text rest hunit value hvalue hpos ih =>
    obtain ⟨hlt, harg, hnext, hrest⟩ := arg_of_drop hdrop
    obtain ⟨-, -, -, hrest'⟩ := arg_of_drop hrest
    have hbind : args[n + 1]?.bind integerOf = some value := by
      rw [hnext]
      exact hvalue
    refine Loops.more (ih hrest') (by simp : Word.expire value scale absolute ≠ .get) ?_ ?_
    · rw [words.eq_def]
      simp only [if_neg hnx, if_neg hxx, if_neg hget, if_neg hkeep, hunit, hvalue, if_pos hpos]
    · intro now opts
      rw [Commands.options, if_pos hlt, harg, if_neg hnx, if_neg hxx, if_neg hkeep, hunit]
      simp only [hbind, if_pos hpos]
      rfl
  | case7 word hnx hxx hget hkeep scale absolute text rest hunit value hvalue hpos =>
    obtain ⟨hlt, harg, hnext, -⟩ := arg_of_drop hdrop
    have hbind : args[n + 1]?.bind integerOf = some value := by
      rw [hnext]
      exact hvalue
    right
    refine ⟨ascii "ERR invalid expire time in 'set' command", ?_, ?_⟩
    · intro read hread
      rw [words.eq_def] at hread
      simp only [if_neg hnx, if_neg hxx, if_neg hget, if_neg hkeep, hunit, hvalue, if_neg hpos, reduceCtorEq] at hread
    · intro now opts
      rw [Commands.options, if_pos hlt, harg, if_neg hnx, if_neg hxx, if_neg hkeep, hunit]
      simp only [hbind, if_neg hpos]
  | case8 word hnx hxx hget hkeep scale absolute text rest hunit hvalue =>
    obtain ⟨hlt, harg, hnext, -⟩ := arg_of_drop hdrop
    have hbind : args[n + 1]?.bind integerOf = none := by
      rw [hnext]
      exact hvalue
    right
    refine ⟨ascii "ERR syntax error", ?_, ?_⟩
    · intro read hread
      rw [words.eq_def] at hread
      simp only [if_neg hnx, if_neg hxx, if_neg hget, if_neg hkeep, hunit, hvalue, reduceCtorEq] at hread
    · intro now opts
      rw [Commands.options, if_pos hlt, harg, if_neg hnx, if_neg hxx, if_neg hkeep, hunit]
      simp only [hbind]
  | case9 word rest hnx hxx hget hkeep hno =>
    obtain ⟨hlt, harg, hnext, -⟩ := arg_of_drop hdrop
    right
    refine ⟨ascii "ERR syntax error", ?_, ?_⟩
    · intro read hread
      rw [words] at hread
      · simp only [if_neg hnx, if_neg hxx, if_neg hget, if_neg hkeep, reduceCtorEq] at hread
      · exact hno
    · intro now opts
      rw [Commands.options, if_pos hlt, harg, if_neg hnx, if_neg hxx, if_neg hkeep]
      cases hunit : unit word with
      | none => rfl
      | some found =>
        obtain ⟨scale, absolute⟩ := found
        cases rest with
        | nil =>
          have hbind : args[n + 1]?.bind integerOf = none := by
            rw [hnext]
            rfl
          simp only [hbind]
        | cons text rest => exact absurd rfl (hno scale absolute text rest hunit)

end loop

/-! ## What the options come to -/

theorem foldl_none {α β γ : Type} {p : α → Bool} {g : β → γ} {step : β → α → β} {f : α → γ}
    (hstep : ∀ b a, g (step b a) = if p a then f a else g b) {l : List α} {b : β}
    (hno : ∀ a ∈ l, p a = false) : g (l.foldl step b) = g b := by
  induction l generalizing b with
  | nil => rfl
  | cons first rest ih =>
    rw [List.foldl_cons, ih (fun a ha => hno a (List.mem_cons_of_mem _ ha)), hstep,
      if_neg (by rw [hno first List.mem_cons_self]; exact Bool.false_ne_true)]

/-- Where one element at most sets what `g` reads, that one sets it for good. -/
theorem foldl_one {α β γ : Type} {p : α → Bool} {g : β → γ} {step : β → α → β} {f : α → γ}
    (hstep : ∀ b a, g (step b a) = if p a then f a else g b) {l : List α} (b : β) {a : α}
    (hone : l.countP p ≤ 1) (hmem : a ∈ l) (ha : p a = true) : g (l.foldl step b) = f a := by
  induction l generalizing b with
  | nil => cases hmem
  | cons first rest ih =>
    rw [List.foldl_cons]
    rw [List.countP_cons] at hone
    by_cases hrest : a ∈ rest
    · exact ih (step b first) (by omega) hrest
    · obtain rfl : a = first := by
        obtain h | h := List.mem_cons.1 hmem
        · exact h
        · exact absurd h hrest
      have hnone : rest.countP p = 0 := by
        rw [if_pos ha] at hone
        omega
      rw [foldl_none hstep (fun other h => by simpa using List.countP_eq_zero.1 hnone other h), hstep, if_pos ha]

def Word.condition : Word → When
  | nx => .absent
  | xx => .present
  | _ => .always

def Word.until_ (now : UInt32) : Word → Expiry
  | keepttl => .keep
  | expire value scale absolute => .at_ (stamp (moment now value scale absolute))
  | _ => .never

theorem Word.apply_when (now : UInt32) (opts : Options) (word : Word) :
    (word.apply now opts).when_ = if word.isPresence then word.condition else opts.when_ := by
  cases word <;> rfl

theorem Word.apply_expiry (now : UInt32) (opts : Options) (word : Word) :
    (word.apply now opts).expiry = if word.isExpiry then word.until_ now else opts.expiry := by
  cases word <;> rfl

section arguments

/-- Each expiry among the options counts in 64 bits, and seconds or milliseconds. -/
def Counted (said : List Word) : Prop :=
  ∀ value scale absolute, .expire value scale absolute ∈ said →
    (i64Min ≤ value ∧ value ≤ i64Max) ∧ (scale = 1 ∨ scale = 1000)

theorem Counted.more {rest : List (List UInt8)} {word : Word} (h : ∀ said, words rest = some said → Counted said)
    (hword : Counted [word]) {said : List Word} (hread : (words rest).map (word :: ·) = some said) : Counted said := by
  obtain ⟨said', hrest, rfl⟩ := Option.map_eq_some_iff.mp hread
  intro value scale absolute hmem
  obtain heq | hin := List.mem_cons.mp hmem
  · exact hword value scale absolute (List.mem_singleton.mpr heq)
  · exact h said' hrest value scale absolute hin

end arguments

/-! ## What they ask for -/

section meaning
variable {now : UInt32} {said : List Word} {when_ : When} {expiry : Expiry}

end meaning

/-! ## `SET` -/

section set
variable (dialect : Dialect) (name key value : List UInt8)

theorem set_cons (word : List UInt8) (rest : List (List UInt8)) :
    set dialect (name :: key :: value :: word :: rest) = (do
      let now ← Call.now
      match options now (name :: key :: value :: word :: rest) 3 ⟨.always, .never⟩ with
      | .error wrong => pure wrong
      | .ok opts => writing dialect key value opts) := by
  have hlen : (name :: key :: value :: word :: rest).length = rest.length + 4 := rfl
  rw [set, if_neg (by omega), if_neg (by omega)]
  rfl

theorem set_taken {word : List UInt8} {rest : List (List UInt8)} {said : List Word}
    (hall : ∀ now opts, options now (name :: key :: value :: word :: rest) 3 opts =
      .ok (said.foldl (Word.apply now) opts)) :
    set dialect (name :: key :: value :: word :: rest) = (do
      let now ← Call.now
      writing dialect key value (said.foldl (Word.apply now) ⟨.always, .never⟩)) := by
  rw [set_cons]
  simp only [hall]

end set

end Rugo.Commands
