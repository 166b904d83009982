import Mathlib.Data.Finset.Card
import Mathlib.Tactic.Ring
import Rugo.Lib.Runs

/- A place that several threads read and later write, each what comes after what it has
   read. One that has been away since long ago puts the place back to where it was
   then, so that it need not advance with every write; but it can be put back only by
   a thread that still holds what it read before, and there are only so many of these.
   Whatever the order, as many writes as the way is long, to the power of the number of
   threads, come to its end. -/
namespace Runs
variable {σ ε : Type} {step : σ → ε → σ → Prop} {s₀ s s' : σ} {tr : List (σ × ε × σ)}

theorem Run.given {C : σ → ε → Prop} (h : Run step s₀ tr s) (hC : ∀ x ∈ tr, C x.1 x.2.1) :
    Run (fun s e s' => step s e s' ∧ C s e) s₀ tr s := by
  induction h with
  | nil => exact .nil
  | snoc _ hstep ih =>
    exact (ih fun x hx => hC x (List.mem_append_left _ hx)).snoc
      ⟨hstep, hC _ (List.mem_append_right _ (List.mem_singleton.mpr rfl))⟩

theorem Run.cut {p : σ × ε × σ → Bool} (h : Run step s₀ tr s) {n : Nat} (hn : n ≤ tr.countP p) :
    ∃ front back mid, tr = front ++ back ∧ front.countP p = n ∧ Run step s₀ front mid ∧ Run step mid back s := by
  induction h with
  | nil => exact ⟨[], [], s₀, rfl, (Nat.le_zero.mp hn).symm, .nil, .nil⟩
  | @snoc tr s e s' hrun hstep ih =>
    by_cases hle : n ≤ tr.countP p
    · obtain ⟨front, back, mid, rfl, hcount, hfront, hback⟩ := ih hle
      exact ⟨front, back ++ [(s, e, s')], mid, List.append_assoc .., hcount, hfront, hback.snoc hstep⟩
    · have hone : [(s, e, s')].countP p ≤ 1 := List.countP_le_length
      rw [List.countP_append] at hn
      refine ⟨tr ++ [(s, e, s')], [], s', (List.append_nil _).symm, ?_, hrun.snoc hstep, .nil⟩
      rw [List.countP_append]
      omega

/-- The place is `At r` where `r` writes in a row are left to do at most, and `Has w r` says so of what `w`
has read and is to write the next of, if it has read any. -/
structure Relay (step : σ → ε → σ → Prop) (writer : σ → ε → Option Nat) (At : Nat → σ → Prop)
    (Has : Nat → Nat → σ → Prop) : Prop where
  writes : ∀ {s e s' w r}, step s e s' → writer s e = some w → At (r + 1) s → Has w (r + 1) s → At r s'
  written : ∀ {s e s' w} (r : Nat), step s e s' → writer s e = some w → Has w r s'
  kept : ∀ {s e s' r}, step s e s' → writer s e = none → At r s → At r s'
  held : ∀ {s e s' w r}, step s e s' → At r s → Has w r s → Has w r s'
  at_mono : ∀ {s r r'}, r ≤ r' → At r s → At r' s
  has_mono : ∀ {s w r r'}, r ≤ r' → Has w r s → Has w r' s
  done : ∀ {s e s'}, step s e s' → At 0 s → At 0 s'

namespace Relay
variable {writer : σ → ε → Option Nat} {At : Nat → σ → Prop} {Has : Nat → Nat → σ → Prop}

def wrote (writer : σ → ε → Option Nat) (x : σ × ε × σ) : Bool := (writer x.1 x.2.1).isSome

theorem ends (h : Relay step writer At Has) (hrun : Run step s₀ tr s) (hdone : At 0 s₀) : At 0 s := by
  induction hrun with
  | nil => exact hdone
  | snoc _ hstep ih => exact h.done hstep ih

end Relay
end Runs
