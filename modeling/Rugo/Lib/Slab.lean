import Mathlib.Data.List.Nodup
import Rugo.Lib.Exec

/- A vector with holes and a stack of the holes. A value is put in the hole
   freed last, or behind the rest when there is none, and a slot that is cleared
   goes on the stack. `Sound` says that the stack holds each hole once and
   nothing else; every operation keeps it, and touches one slot. -/
namespace Slabs
open Exec

structure Slab (α : Type) where
  slots : List (Option α)
  /-- The holes, the one freed last first. -/
  free : List Nat

namespace Slab
variable {α : Type}

def empty : Slab α := ⟨[], []⟩

/-- What is in a slot, if there is such a slot and it is not a hole. -/
def get? (s : Slab α) (at_ : Nat) : Option α := (s.slots[at_]?).join

/-- Put `a` somewhere, and say where. -/
def put (s : Slab α) (a : α) : Exec (Nat × Slab α) :=
  match s.free with
  | at_ :: free => do
    let slots ← update s.slots at_ (some a)
    pure (at_, ⟨slots, free⟩)
  | [] => pure (s.slots.length, ⟨s.slots ++ [some a], []⟩)

def set (s : Slab α) (at_ : Nat) (a : α) : Exec (Slab α) := do
  let slots ← update s.slots at_ (some a)
  pure { s with slots }

/-- Clear a slot, and put it on the stack. -/
def clear (s : Slab α) (at_ : Nat) : Exec (Slab α) := do
  let slots ← update s.slots at_ none
  pure ⟨slots, at_ :: s.free⟩

structure Sound (s : Slab α) : Prop where
  nodup : s.free.Nodup
  holes : ∀ at_, at_ ∈ s.free ↔ s.slots[at_]? = some none

theorem sound_empty : (empty : Slab α).Sound := ⟨List.nodup_nil, by simp [empty]⟩

theorem get?_eq_some {s : Slab α} {at_ : Nat} {a : α} :
    s.get? at_ = some a ↔ s.slots[at_]? = some (some a) := by
  rw [get?, Option.join_eq_some_iff]

theorem get?_lt {s : Slab α} {at_ : Nat} {a : α} (h : s.get? at_ = some a) : at_ < s.slots.length := by
  rw [get?_eq_some] at h
  exact (List.getElem?_eq_some_iff.mp h).1

/-- No hole holds anything. -/
theorem Sound.get?_free {s : Slab α} (h : s.Sound) {at_ : Nat} (hf : at_ ∈ s.free) :
    s.get? at_ = none := by
  rw [get?, (h.holes at_).mp hf]
  rfl

/-- What one slot holds, and every other as before. -/
def Changed (s s' : Slab α) (at_ : Nat) (a : Option α) : Prop :=
  s'.get? at_ = a ∧ ∀ i, i ≠ at_ → s'.get? i = s.get? i

/-- One slot changed twice. -/
theorem Changed.trans {s s' s'' : Slab α} {at_ : Nat} {a b : Option α} (h : Changed s s' at_ a)
    (h' : Changed s' s'' at_ b) : Changed s s'' at_ b :=
  ⟨h'.1, fun i hne => (h'.2 i hne).trans (h.2 i hne)⟩

/-- What is true of the slots left alone and of what is put in the one changed is true of all. -/
theorem Changed.each {s s' : Slab α} {at_ : Nat} {new : Option α} (h : Changed s s' at_ new) {P : Nat → α → Prop}
    (hold : ∀ i a, i ≠ at_ → s.get? i = some a → P i a) (hnew : ∀ a, new = some a → P at_ a) (i : Nat) (a : α)
    (hi : s'.get? i = some a) : P i a := by
  by_cases heq : i = at_
  · rw [heq, h.1] at hi
    rw [heq]
    exact hnew a hi
  · rw [h.2 i heq] at hi
    exact hold i a heq hi

theorem put_ok {s : Slab α} (h : s.Sound) (a : α) : ∃ at_ s', s.put a = .ok (at_, s') ∧ s'.Sound ∧
    s.get? at_ = none ∧ Changed s s' at_ (some a) ∧
    (at_ < s.slots.length ∧ s'.slots.length = s.slots.length ∨
      s.free = [] ∧ s'.slots.length = s.slots.length + 1) := by
  cases hfree : s.free with
  | nil =>
    -- a new slot at the end
    refine ⟨s.slots.length, ⟨s.slots ++ [some a], []⟩, by rw [put, hfree]; rfl, ⟨List.nodup_nil, ?_⟩, ?_,
      ⟨?_, ?_⟩, .inr ⟨rfl, by simp⟩⟩
    · intro i
      have hnone := h.holes i
      rw [hfree] at hnone
      rw [List.getElem?_append]
      split
      · exact hnone
      · simp only [List.not_mem_nil, List.getElem?_singleton, false_iff]
        split <;> simp
    · rw [get?, List.getElem?_eq_none (Nat.le_refl _)]
      rfl
    · simp [get?]
    · intro i hne
      rw [get?, get?, List.getElem?_append]
      split
      · rfl
      · next hge =>
        rw [List.getElem?_eq_none (by simp; omega), List.getElem?_eq_none (by omega)]
  | cons at_ free =>
    -- the slot that was freed last
    have hmem : at_ ∈ s.free := by rw [hfree]; exact List.mem_cons_self
    have hslot := (h.holes at_).mp hmem
    have hlt := (List.getElem?_eq_some_iff.mp hslot).1
    have hnodup := h.nodup
    rw [hfree, List.nodup_cons] at hnodup
    refine ⟨at_, ⟨s.slots.set at_ (some a), free⟩, by rw [put, hfree]; simp only [update_ok hlt]; rfl,
      ⟨hnodup.2, ?_⟩, h.get?_free hmem, ⟨?_, ?_⟩, .inl ⟨hlt, by simp⟩⟩
    · intro i
      have hi := h.holes i
      rw [hfree, List.mem_cons] at hi
      rw [List.getElem?_set]
      split
      · next heq =>
        rw [← heq]
        simp [hnodup.1]
      · next hne =>
        rw [← hi]
        simp [Ne.symm hne]
    · simp [get?, hlt]
    · intro i hne
      rw [get?, get?, List.getElem?_set_ne (Ne.symm hne)]

theorem set_ok {s : Slab α} (h : s.Sound) {at_ : Nat} {b : α} (hb : s.get? at_ = some b) (a : α) :
    ∃ s', s.set at_ a = .ok s' ∧ s'.Sound ∧ Changed s s' at_ (some a) ∧
      s'.slots.length = s.slots.length ∧ s'.free = s.free := by
  have hlt := get?_lt hb
  refine ⟨{ s with slots := s.slots.set at_ (some a) }, by rw [set, update_ok hlt]; rfl,
    ⟨h.nodup, ?_⟩, ⟨?_, ?_⟩, by simp, rfl⟩
  · intro i
    rw [h.holes i, List.getElem?_set]
    split
    · next heq =>
      rw [← heq, get?_eq_some.mp hb]
      simp
    · rfl
  · simp [get?, hlt]
  · intro i hne
    rw [get?, get?, List.getElem?_set_ne (Ne.symm hne)]

theorem clear_ok {s : Slab α} (h : s.Sound) {at_ : Nat} {b : α} (hb : s.get? at_ = some b) :
    ∃ s', s.clear at_ = .ok s' ∧ s'.Sound ∧ Changed s s' at_ none ∧
      s'.slots.length = s.slots.length ∧ s'.free = at_ :: s.free := by
  have hlt := get?_lt hb
  have hheld := get?_eq_some.mp hb
  refine ⟨⟨s.slots.set at_ none, at_ :: s.free⟩, by rw [clear, update_ok hlt]; rfl, ⟨?_, ?_⟩,
    ⟨?_, ?_⟩, by simp, rfl⟩
  · rw [List.nodup_cons]
    refine ⟨?_, h.nodup⟩
    rw [h.holes, hheld]
    simp
  · intro i
    rw [List.mem_cons, h.holes i, List.getElem?_set]
    split
    · next heq =>
      rw [← heq]
      simp [hlt]
    · next hne => simp [Ne.symm hne]
  · simp [get?, hlt]
  · intro i hne
    rw [get?, get?, List.getElem?_set_ne (Ne.symm hne)]

end Slab
end Slabs
