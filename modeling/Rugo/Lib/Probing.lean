import Mathlib.Data.List.Basic
import Mathlib.Data.List.Count
import Mathlib.Data.List.Perm.Basic
import Rugo.Lib.Triangular

/- Open addressing with tombstones, probed a group of `w` lanes at a time along
   a triangular walk over `2^k` groups. An entry is placed if no group that its
   walk passes on the way to it has an empty lane: a search may then stop at the
   first group that has one. Placing an entry in a free lane keeps that, for no
   lane becomes empty; so does erasing one, where its lane becomes a tombstone,
   or its group has an empty lane already, so that no walk ever passed it. -/
namespace Probing
open Triangular

/-- A lane of the table. -/
inductive Lane (α : Type) where
  | empty
  | tomb
  | full (a : α)

namespace Lane
variable {α : Type}

def item? : Lane α → Option α
  | empty => none
  | tomb => none
  | full a => some a

def isEmpty : Lane α → Bool
  | empty => true
  | tomb => false
  | full _ => false

def isTomb : Lane α → Bool
  | empty => false
  | tomb => true
  | full _ => false

theorem item?_eq_some {l : Lane α} {a : α} : l.item? = some a ↔ l = full a := by
  cases l <;> simp [item?]

theorem isEmpty_iff {l : Lane α} : l.isEmpty = true ↔ l = empty := by
  cases l <;> simp [isEmpty]

end Lane

variable {α : Type}

def entries (cells : List (Lane α)) : List α := cells.filterMap Lane.item?

def tombs (cells : List (Lane α)) : Nat := cells.countP Lane.isTomb

def empties (cells : List (Lane α)) : Nat := cells.countP Lane.isEmpty

def group (w : Nat) (cells : List (Lane α)) (g : Nat) : List (Lane α) := (cells.drop (g * w)).take w

theorem mem_entries {cells : List (Lane α)} {a : α} :
    a ∈ entries cells ↔ ∃ i : Nat, cells[i]? = some (Lane.full a) := by
  rw [entries, List.mem_filterMap]
  constructor
  · intro ⟨l, hl, ha⟩
    rw [Lane.item?_eq_some.mp ha] at hl
    exact List.mem_iff_getElem?.mp hl
  · intro ⟨i, hi⟩
    exact ⟨Lane.full a, List.mem_of_getElem? hi, rfl⟩

theorem entries_cons (l : Lane α) (cells : List (Lane α)) :
    entries (l :: cells) = l.item?.toList ++ entries cells := by
  cases l <;> rfl

theorem entries_replicate (n : Nat) : entries (List.replicate n (.empty : Lane α)) = [] := by
  induction n with
  | zero => rfl
  | succ n ih =>
    rw [List.replicate_succ, entries_cons, ih]
    rfl

theorem length_eq (cells : List (Lane α)) :
    cells.length = (entries cells).length + tombs cells + empties cells := by
  induction cells with
  | nil => rfl
  | cons l cells ih =>
    rw [List.length_cons, ih, entries_cons, List.length_append, tombs, tombs, empties, empties,
      List.countP_cons, List.countP_cons]
    cases l <;> simp only [Lane.item?, Lane.isTomb, Lane.isEmpty, Option.toList, List.length_nil,
      List.length_singleton, if_true, Bool.false_eq_true, if_false] <;> omega

/-! ## Writing one lane -/

theorem countP_set {β : Type} {l : List β} {i : Nat} {old : β} (p : β → Bool) (h : l[i]? = some old) (new : β) :
    (l.set i new).countP p + (if p old then 1 else 0) = l.countP p + (if p new then 1 else 0) := by
  induction l generalizing i with
  | nil => cases h
  | cons b l ih =>
    cases i with
    | zero =>
      cases h
      rw [List.set_cons_zero, List.countP_cons, List.countP_cons]
      omega
    | succ i =>
      rw [List.set_cons_succ, List.countP_cons, List.countP_cons]
      have := ih h
      omega

section set
variable {cells : List (Lane α)} {i : Nat} {old : Lane α}

theorem entries_set (h : cells[i]? = some old) (new : Lane α) :
    (new.item?.toList ++ entries cells).Perm (old.item?.toList ++ entries (cells.set i new)) := by
  induction cells generalizing i with
  | nil => cases h
  | cons l cells ih =>
    cases i with
    | zero =>
      cases h
      rw [List.set_cons_zero, entries_cons, entries_cons]
      exact List.perm_append_comm_assoc _ _ _
    | succ i =>
      rw [List.set_cons_succ, entries_cons, entries_cons]
      calc new.item?.toList ++ (l.item?.toList ++ entries cells)
        List.Perm _ (l.item?.toList ++ (new.item?.toList ++ entries cells)) := List.perm_append_comm_assoc _ _ _
        List.Perm _ (l.item?.toList ++ (old.item?.toList ++ entries (cells.set i new))) := (ih h).append_left _
        List.Perm _ (old.item?.toList ++ (l.item?.toList ++ entries (cells.set i new))) :=
          List.perm_append_comm_assoc _ _ _

theorem tombs_set (h : cells[i]? = some old) (new : Lane α) :
    tombs (cells.set i new) + (if old.isTomb then 1 else 0) =
      tombs cells + (if new.isTomb then 1 else 0) :=
  countP_set Lane.isTomb h new

end set

/-! ## Groups -/

section groups
variable {w k : Nat} {cells : List (Lane α)}

theorem group_getElem? {g j : Nat} (hj : j < w) : (group w cells g)[j]? = cells[g * w + j]? := by
  rw [group, List.getElem?_take_of_lt hj, List.getElem?_drop]

theorem mem_group (hw : 0 < w) {g : Nat} {l : Lane α} :
    l ∈ group w cells g ↔ ∃ i, i / w = g ∧ cells[i]? = some l := by
  rw [List.mem_iff_getElem?]
  constructor
  · intro ⟨j, hj⟩
    have hlt : j < w := by
      have := (List.getElem?_eq_some_iff.mp hj).1
      rw [group, List.length_take] at this
      omega
    rw [group_getElem? hlt] at hj
    refine ⟨g * w + j, ?_, hj⟩
    rw [Nat.mul_comm, Nat.mul_add_div hw, Nat.div_eq_of_lt hlt, Nat.add_zero]
  · intro ⟨i, hg, hi⟩
    refine ⟨i % w, ?_⟩
    rw [group_getElem? (Nat.mod_lt _ hw), ← hg, Nat.div_add_mod']
    exact hi

theorem group_length (hlen : cells.length = 2 ^ k * w) {g : Nat} (hg : g < 2 ^ k) :
    (group w cells g).length = w := by
  have hle : (g + 1) * w ≤ 2 ^ k * w := Nat.mul_le_mul_right w hg
  rw [Nat.add_mul, Nat.one_mul] at hle
  rw [group, List.length_take, List.length_drop]
  omega

theorem div_lt (hw : 0 < w) (hlen : cells.length = 2 ^ k * w) {i : Nat} {l : Lane α}
    (h : cells[i]? = some l) : i / w < 2 ^ k := by
  rw [Nat.div_lt_iff_lt_mul hw, ← hlen]
  exact (List.getElem?_eq_some_iff.mp h).1

theorem walk_empty (hw : 0 < w) (hlen : cells.length = 2 ^ k * w) (h : Lane.empty ∈ cells) {g : Nat}
    (hg : g < 2 ^ k) : ∃ n < 2 ^ k, Lane.empty ∈ group w cells (walk (2 ^ k - 1) g n) := by
  obtain ⟨i, hi⟩ := List.mem_iff_getElem?.mp h
  obtain ⟨n, hn, hwalk⟩ := walk_covers hg (div_lt hw hlen hi)
  refine ⟨n, hn, ?_⟩
  rw [mem_group hw]
  exact ⟨i, hwalk.symm, hi⟩

theorem mem_group_set (hw : 0 < w) {i g : Nat} {l new : Lane α}
    (h : l ∈ group w (cells.set i new) g) : l = new ∧ i / w = g ∨ l ∈ group w cells g := by
  rw [mem_group hw] at h
  obtain ⟨j, hg, hj⟩ := h
  by_cases heq : i = j
  · rw [List.getElem?_set, if_pos heq] at hj
    split at hj
    · cases hj
      exact .inl ⟨rfl, heq ▸ hg⟩
    · cases hj
  · rw [List.getElem?_set_ne heq] at hj
    exact .inr ((mem_group hw).mpr ⟨j, hg, hj⟩)

end groups

/-! ## Placed entries -/

/-- The groups that the walk from `g` passes before its `n`-th have no empty lane. -/
def Passes (w k : Nat) (cells : List (Lane α)) (g n : Nat) : Prop :=
  ∀ m < n, Lane.empty ∉ group w cells (walk (2 ^ k - 1) g m)

theorem passes_zero (w k : Nat) (cells : List (Lane α)) (g : Nat) : Passes w k cells g 0 :=
  fun m hm => absurd hm (Nat.not_lt_zero m)

theorem Passes.succ {w k : Nat} {cells : List (Lane α)} {g n : Nat} (h : Passes w k cells g n)
    (hno : Lane.empty ∉ group w cells (walk (2 ^ k - 1) g n)) : Passes w k cells g (n + 1) :=
  Nat.forall_lt_succ_right.mpr ⟨h, hno⟩

/-- No walk passes every group of a table with an empty lane. -/
theorem Passes.not_round {w k : Nat} {cells : List (Lane α)} {g : Nat} (hw : 0 < w) (hlen : cells.length = 2 ^ k * w)
    (hempty : Lane.empty ∈ cells) (hg : g < 2 ^ k) : ¬ Passes w k cells g (2 ^ k) := by
  intro h
  obtain ⟨n, hn, hmem⟩ := walk_empty hw hlen hempty hg
  exact h n hn hmem

/-- Each entry is on its walk, before the first empty lane. -/
structure Placed (w k : Nat) (home : α → Nat) (cells : List (Lane α)) : Prop where
  length : cells.length = 2 ^ k * w
  reach : ∀ i a, cells[i]? = some (.full a) →
    ∃ n < 2 ^ k, walk (2 ^ k - 1) (home a) n = i / w ∧ Passes w k cells (home a) n

section placed
variable {w k : Nat} {home : α → Nat} {cells : List (Lane α)}

theorem placed_replicate : Placed w k home (List.replicate (2 ^ k * w) .empty) where
  length := List.length_replicate
  reach := by
    intro i a h
    obtain ⟨hi, heq⟩ := List.getElem?_eq_some_iff.mp h
    rw [List.getElem_replicate] at heq
    cases heq

/-- A search that has seen every group up to one with an empty lane, and no entry
it was for, is over. -/
theorem Placed.absent (hw : 0 < w) (h : Placed w k home cells) {P : α → Prop} {g n : Nat}
    (hhome : ∀ a, P a → home a = g) (hempty : Lane.empty ∈ group w cells (walk (2 ^ k - 1) g n))
    (hseen : ∀ m ≤ n, ∀ a, Lane.full a ∈ group w cells (walk (2 ^ k - 1) g m) → ¬ P a) :
    ∀ a ∈ entries cells, ¬ P a := by
  intro a ha hP
  obtain ⟨i, hi⟩ := mem_entries.mp ha
  obtain ⟨m, -, hwalk, hpass⟩ := h.reach i a hi
  rw [hhome a hP] at hwalk hpass
  have hmem : Lane.full a ∈ group w cells (walk (2 ^ k - 1) g m) := (mem_group hw).mpr ⟨i, hwalk.symm, hi⟩
  by_cases hle : m ≤ n
  · exact hseen m hle a hmem hP
  · exact hpass n (Nat.lt_of_not_le hle) hempty

theorem Passes.set (hw : 0 < w) {i g n : Nat} {new : Lane α} (h : Passes w k cells g n)
    (hnew : new = .empty → Lane.empty ∈ group w cells (i / w)) :
    Passes w k (cells.set i new) g n := by
  intro m hm hempty
  obtain ⟨heq, hgroup⟩ | hold := mem_group_set hw hempty
  · apply h m hm
    rw [← hgroup]
    exact hnew heq.symm
  · exact h m hm hold

/-- An entry written in a free lane on its walk. -/
theorem Placed.insert (hw : 0 < w) (h : Placed w k home cells) {i : Nat} {a : α} {n : Nat}
    (hn : n < 2 ^ k) (hwalk : walk (2 ^ k - 1) (home a) n = i / w) (hpass : Passes w k cells (home a) n) :
    Placed w k home (cells.set i (.full a)) where
  length := List.length_set.trans h.length
  reach := by
    intro j b hj
    have hkeep : ∀ {g n}, Passes w k cells g n → Passes w k (cells.set i (.full a)) g n := by
      intro g n hp
      apply hp.set hw
      intro heq
      cases heq
    by_cases heq : i = j
    · rw [List.getElem?_set, if_pos heq] at hj
      split at hj
      · cases hj
        exact ⟨n, hn, heq ▸ hwalk, hkeep hpass⟩
      · cases hj
    · rw [List.getElem?_set_ne heq] at hj
      obtain ⟨m, hm, hw', hp⟩ := h.reach j b hj
      exact ⟨m, hm, hw', hkeep hp⟩

theorem Placed.replace (hw : 0 < w) (h : Placed w k home cells) {i : Nat} {a b : α}
    (hi : cells[i]? = some (.full a)) (hhome : home b = home a) :
    Placed w k home (cells.set i (.full b)) := by
  obtain ⟨n, hn, hwalk, hpass⟩ := h.reach i a hi
  rw [← hhome] at hwalk hpass
  exact h.insert hw hn hwalk hpass

theorem Placed.erase (hw : 0 < w) (h : Placed w k home cells) {i : Nat} {lane : Lane α}
    (hfree : lane.item? = none) (hlane : lane = .empty → Lane.empty ∈ group w cells (i / w)) :
    Placed w k home (cells.set i lane) where
  length := List.length_set.trans h.length
  reach := by
    intro j b hj
    by_cases heq : i = j
    · rw [List.getElem?_set, if_pos heq] at hj
      split at hj
      · cases hj
        cases hfree
      · cases hj
    · rw [List.getElem?_set_ne heq] at hj
      obtain ⟨m, hm, hwalk, hp⟩ := h.reach j b hj
      exact ⟨m, hm, hwalk, hp.set hw hlane⟩

end placed
end Probing
