import Mathlib.Algebra.Group.Nat.Defs
import Mathlib.Data.List.Basic
import Mathlib.Data.List.TakeDrop

/- Computations that may panic, and slices whose ends are checked. An `Exec`
   value is what a run of safe code comes to: a result, or the panic that
   stopped it. Every index, range and subtraction of the code under study goes
   through one of the operations below, so "does not panic" is "is `.ok`". The
   lemmas come in pairs: what an operation returns when its bounds hold, and
   what a window reads after another window was written. `Halts` leaves open
   what a computation comes to, and says only that it is over. -/

/-- What stops a computation: an index or a range outside its slice, an
unsigned subtraction below zero, a loop that never leaves, or a result that its
word does not hold. -/
inductive Panic where
  | bounds
  | underflow
  | spin
  | overflow
  deriving DecidableEq, Repr

abbrev Exec (α : Type) := Except Panic α

namespace Exec
variable {α β : Type}

@[simp] theorem ok_bind (a : α) (f : α → Exec β) : (Except.ok a >>= f) = f a := rfl
@[simp] theorem error_bind (e : Panic) (f : α → Exec β) : (Except.error e >>= f) = .error e := rfl
@[simp] theorem pure_ok (a : α) : (pure a : Exec α) = .ok a := rfl
@[simp] theorem map_ok (f : α → β) (a : α) : (f <$> (Except.ok a : Exec α)) = .ok (f a) := rfl

theorem isOk_iff {ε : Type} {x : Except ε α} : x.isOk = true ↔ ∃ a, x = .ok a := by
  cases x with
  | error e => simp [Except.isOk, Except.toBool]
  | ok a => simp [Except.isOk, Except.toBool]

theorem bind_ok_iff {x : Exec α} {f : α → Exec β} {b : β} :
    (x >>= f) = .ok b ↔ ∃ a, x = .ok a ∧ f a = .ok b := by
  cases x with
  | error e => simp
  | ok a => simp

/-- `a - b`, unsigned. -/
def minus (a b : Nat) : Exec Nat :=
  if b ≤ a then .ok (a - b) else .error .underflow

/-- `l[i]`. -/
def index (l : List α) (i : Nat) : Exec α :=
  match l[i]? with
  | some a => .ok a
  | none => .error .bounds

/-- `l[i] = a`. -/
def update (l : List α) (i : Nat) (a : α) : Exec (List α) :=
  if i < l.length then .ok (l.set i a) else .error .bounds

/-- `&l[i..j]`. -/
def slice (l : List α) (i j : Nat) : Exec (List α) :=
  if i ≤ j ∧ j ≤ l.length then .ok ((l.drop i).take (j - i)) else .error .bounds

/-- `l[i..i + bs.len()].copy_from_slice(bs)`. -/
def splice (l : List α) (i : Nat) (bs : List α) : Exec (List α) :=
  if i + bs.length ≤ l.length then .ok (l.take i ++ bs ++ l.drop (i + bs.length)) else .error .bounds

theorem minus_ok {a b : Nat} (h : b ≤ a) : minus a b = .ok (a - b) := by simp [minus, h]

theorem minus_eq_ok {a b c : Nat} : minus a b = .ok c ↔ b ≤ a ∧ c = a - b := by
  by_cases h : b ≤ a <;> simp [minus, h, eq_comm]

theorem index_ok {l : List α} {i : Nat} (h : i < l.length) : index l i = .ok l[i] := by
  simp [index, h]

theorem index_of_getElem? {l : List α} {i : Nat} {a : α} (h : l[i]? = some a) :
    index l i = .ok a := by
  simp [index, h]

theorem index_eq_ok {l : List α} {i : Nat} {a : α} : index l i = .ok a ↔ l[i]? = some a := by
  unfold index
  cases l[i]? <;> simp

theorem update_ok {l : List α} {i : Nat} {a : α} (h : i < l.length) :
    update l i a = .ok (l.set i a) := by
  simp [update, h]

theorem update_eq_ok {l l' : List α} {i : Nat} {a : α} :
    update l i a = .ok l' ↔ i < l.length ∧ l' = l.set i a := by
  by_cases h : i < l.length <;> simp [update, h, eq_comm]

theorem slice_ok {l : List α} {i j : Nat} (h : i ≤ j) (hj : j ≤ l.length) :
    slice l i j = .ok ((l.drop i).take (j - i)) := by
  simp [slice, h, hj]

theorem slice_eq_ok {l s : List α} {i j : Nat} :
    slice l i j = .ok s ↔ (i ≤ j ∧ j ≤ l.length) ∧ s = (l.drop i).take (j - i) := by
  by_cases h : i ≤ j ∧ j ≤ l.length
  · rw [slice, if_pos h]; simp [h, eq_comm]
  · rw [slice, if_neg h]; simp [h]

theorem slice_all (l : List α) : slice l 0 l.length = .ok l := by
  rw [slice_ok (Nat.zero_le _) (Nat.le_refl _), List.drop_zero, Nat.sub_zero, List.take_length]

theorem slice_length {l s : List α} {i j : Nat} (h : slice l i j = .ok s) : s.length = j - i := by
  obtain ⟨⟨hi, hj⟩, rfl⟩ := slice_eq_ok.mp h
  rw [List.length_take, List.length_drop]
  omega

theorem splice_ok {l bs : List α} {i : Nat} (h : i + bs.length ≤ l.length) :
    splice l i bs = .ok (l.take i ++ bs ++ l.drop (i + bs.length)) := by
  simp [splice, h]

theorem splice_eq_ok {l l' bs : List α} {i : Nat} :
    splice l i bs = .ok l' ↔
      i + bs.length ≤ l.length ∧ l' = l.take i ++ bs ++ l.drop (i + bs.length) := by
  by_cases h : i + bs.length ≤ l.length
  · rw [splice, if_pos h]; simp [h, eq_comm]
  · rw [splice, if_neg h]; simp [h]

theorem splice_length {l l' bs : List α} {i : Nat} (h : splice l i bs = .ok l') :
    l'.length = l.length := by
  obtain ⟨hi, rfl⟩ := splice_eq_ok.mp h
  simp only [List.length_append, List.length_take, List.length_drop]
  omega

/-- Element by element: a splice is the written bytes inside its window and
the old list outside it. -/
theorem splice_getElem? {l l' bs : List α} {i : Nat} (h : splice l i bs = .ok l') (n : Nat) :
    l'[n]? = if i ≤ n ∧ n < i + bs.length then bs[n - i]? else l[n]? := by
  obtain ⟨hi, rfl⟩ := splice_eq_ok.mp h
  have htake : (l.take i).length = i := by rw [List.length_take]; omega
  split
  · next hn =>
    rw [List.append_assoc, List.getElem?_append_right (by omega), htake,
      List.getElem?_append_left (by omega)]
  · next hn =>
    rcases Nat.lt_or_ge n i with hlt | hge
    · rw [List.append_assoc, List.getElem?_append_left (by omega), List.getElem?_take_of_lt hlt]
    · rw [List.getElem?_append_right (by simp only [List.length_append]; omega),
        List.getElem?_drop, List.length_append, htake]
      congr 1
      omega

/-- A window read where a window was just written is what was written. -/
theorem slice_splice_same {l l' bs : List α} {i : Nat} (h : splice l i bs = .ok l') :
    slice l' i (i + bs.length) = .ok bs := by
  have hlen := splice_length h
  obtain ⟨hi, rfl⟩ := splice_eq_ok.mp h
  have htake : (l.take i).length = i := by rw [List.length_take]; omega
  rw [slice_ok (by omega) (by omega), List.append_assoc, List.drop_append_of_le_length (by omega)]
  simp

/-- A window read outside the one written is what it was. -/
theorem slice_splice_disjoint {l l' bs : List α} {i j k : Nat} (h : splice l i bs = .ok l')
    (hd : k ≤ i ∨ i + bs.length ≤ j) : slice l' j k = slice l j k := by
  have hlen := splice_length h
  unfold slice
  rw [hlen]
  split
  · next hjk =>
    congr 1
    apply List.ext_getElem?
    intro n
    simp only [List.getElem?_take, List.getElem?_drop]
    split
    · rw [splice_getElem? h, if_neg (by omega)]
    · rfl
  · rfl

/-! ## Loops -/

/-- `for i in 0..n { s = f(i, s) }`. -/
def forRange {σ : Type} : Nat → (Nat → σ → Exec σ) → σ → Exec σ
  | 0, _, s => pure s
  | n + 1, f, s => do
    let s ← forRange n f s
    f n s

/-- The loop rule: what holds before the first pass and is carried by each one
holds after the last, and no pass stops. -/
theorem forRange_rule {σ : Type} {I : Nat → σ → Prop} {n : Nat} {f : Nat → σ → Exec σ} {s : σ}
    (h0 : I 0 s) (hstep : ∀ i < n, ∀ s, I i s → ∃ s', f i s = .ok s' ∧ I (i + 1) s') :
    ∃ s', forRange n f s = .ok s' ∧ I n s' := by
  induction n with
  | zero => exact ⟨s, rfl, h0⟩
  | succ n ih =>
    obtain ⟨s1, hs1, hI1⟩ := ih fun i hi => hstep i (Nat.lt_succ_of_lt hi)
    obtain ⟨s2, hs2, hI2⟩ := hstep n (Nat.lt_succ_self n) s1 hI1
    exact ⟨s2, by rw [forRange, hs1, ok_bind, hs2], hI2⟩

/-- A loop that returns keeps what each pass that returns keeps. -/
theorem forRange_ok {σ : Type} {I : Nat → σ → Prop} {n : Nat} {f : Nat → σ → Exec σ} {s s' : σ} (h0 : I 0 s)
    (hstep : ∀ i < n, ∀ s s', I i s → f i s = .ok s' → I (i + 1) s') (h : forRange n f s = .ok s') : I n s' := by
  induction n generalizing s' with
  | zero =>
    cases h
    exact h0
  | succ n ih =>
    rw [forRange, bind_ok_iff] at h
    obtain ⟨s₁, hs₁, h⟩ := h
    exact hstep n (Nat.lt_succ_self n) s₁ s' (ih (fun i hi => hstep i (Nat.lt_succ_of_lt hi)) hs₁) h

/-- A computation that does not go round for ever: it returns, or it is stopped by
another panic. -/
def Halts (x : Exec α) : Prop := x ≠ .error .spin

namespace Halts
variable {x y : Exec α}

@[simp] theorem ok (a : α) : Halts (.ok a : Exec α) := by simp [Halts]

@[simp] theorem bind_iff {f : α → Exec β} : Halts (x >>= f) ↔ Halts x ∧ ∀ a, x = .ok a → Halts (f a) := by
  cases x with
  | error e => simp [Halts]
  | ok a => simp [Halts]

@[simp] theorem ite_iff {c : Prop} [Decidable c] :
    Halts (if c then x else y) ↔ (c → Halts x) ∧ (¬ c → Halts y) := by
  by_cases h : c <;> simp [h]

@[simp] theorem minus (a b : Nat) : Halts (minus a b) := by
  unfold Exec.minus
  split <;> simp [Halts]

@[simp] theorem index (l : List α) (i : Nat) : Halts (index l i) := by
  unfold Exec.index
  split <;> simp [Halts]

@[simp] theorem update (l : List α) (i : Nat) (a : α) : Halts (update l i a) := by
  unfold Exec.update
  split <;> simp [Halts]

@[simp] theorem slice (l : List α) (i j : Nat) : Halts (slice l i j) := by
  unfold Exec.slice
  split <;> simp [Halts]

@[simp] theorem splice (l : List α) (i : Nat) (bs : List α) : Halts (splice l i bs) := by
  unfold Exec.splice
  split <;> simp [Halts]

/-- A loop ends where each pass does, from what the passes before it leave. -/
theorem forRange {σ : Type} {I : Nat → σ → Prop} {n : Nat} {f : Nat → σ → Exec σ} {s : σ} (h0 : I 0 s)
    (hstep : ∀ i < n, ∀ s, I i s → Halts (f i s) ∧ ∀ s', f i s = .ok s' → I (i + 1) s') :
    Halts (forRange n f s) := by
  induction n with
  | zero => exact ok s
  | succ n ih =>
    rw [Exec.forRange, bind_iff]
    refine ⟨ih fun i hi => hstep i (Nat.lt_succ_of_lt hi), ?_⟩
    intro s' hs'
    have hI := forRange_ok h0 (fun i hi s s' hs => (hstep i (Nat.lt_succ_of_lt hi) s hs).2 s') hs'
    exact (hstep n (Nat.lt_succ_self n) s' hI).1

end Halts

end Exec
