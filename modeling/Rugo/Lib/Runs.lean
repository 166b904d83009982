import Mathlib.Data.List.Basic
import Rugo.Lib.Exec

/- Runs of a labelled step relation. A run keeps every step it took, oldest
   first: the state it left, the label, the state it reached, so that "in every
   state reached" and "every step of which" are statements about the list.
   Three rules cover the uses below: an invariant kept by every step that meets
   a condition; a property that a step establishes exactly when it meets one;
   and a forward simulation, which carries a run to a run with the same labels.
   `play` computes the run of given inputs. -/
namespace Runs
open Exec
variable {σ τ ε : Type}

inductive Run (step : σ → ε → σ → Prop) (s₀ : σ) : List (σ × ε × σ) → σ → Prop
  | nil : Run step s₀ [] s₀
  | snoc {tr s e s'} : Run step s₀ tr s → step s e s' → Run step s₀ (tr ++ [(s, e, s')]) s'

variable {step : σ → ε → σ → Prop} {s₀ s : σ} {tr : List (σ × ε × σ)}

theorem Run.single {e : ε} (h : step s₀ e s) : Run step s₀ [(s₀, e, s)] s := .snoc .nil h

theorem Run.trans {tr' : List (σ × ε × σ)} {s' : σ} (h : Run step s₀ tr s) (h' : Run step s tr' s') :
    Run step s₀ (tr ++ tr') s' := by
  induction h' with
  | nil =>
    rw [List.append_nil]
    exact h
  | snoc _ hstep ih =>
    rw [← List.append_assoc]
    exact ih.snoc hstep

theorem Run.mono {step' : σ → ε → σ → Prop} (hstep : ∀ s e s', step s e s' → step' s e s') (h : Run step s₀ tr s) :
    Run step' s₀ tr s := by
  induction h with
  | nil => exact .nil
  | snoc _ hs ih => exact ih.snoc (hstep _ _ _ hs)

theorem Run.split {front back : List (σ × ε × σ)} {x : σ × ε × σ} (h : Run step s₀ (front ++ x :: back) s) :
    Run step s₀ front x.1 ∧ step x.1 x.2.1 x.2.2 ∧ Run step x.2.2 back s := by
  generalize htr : front ++ x :: back = tr at h
  induction h generalizing back with
  | nil => simp at htr
  | @snoc tr s e s' hrun hs ih =>
    obtain rfl | ⟨init, last, rfl⟩ := List.eq_nil_or_concat back
    · obtain ⟨rfl, hx⟩ := List.append_inj' htr rfl
      cases hx
      exact ⟨hrun, hs, .nil⟩
    · rw [List.concat_eq_append, ← List.cons_append, ← List.append_assoc] at htr
      obtain ⟨hfront, hlast⟩ := List.append_inj' htr rfl
      cases hlast
      obtain ⟨hbefore, hx, hafter⟩ := ih hfront
      rw [List.concat_eq_append]
      exact ⟨hbefore, hx, hafter.snoc hs⟩

/-- What does not hold at first and does at last came to hold at some step. -/
theorem Run.became {P : σ → Prop} (h0 : ¬ P s₀) (h : Run step s₀ tr s) (hP : P s) :
    ∃ x ∈ tr, ¬ P x.1 ∧ step x.1 x.2.1 x.2.2 ∧ P x.2.2 := by
  induction h with
  | nil => exact absurd hP h0
  | @snoc tr s e s' _ hs ih =>
    by_cases hbefore : P s
    · obtain ⟨x, hx, hstep⟩ := ih hbefore
      exact ⟨x, List.mem_append_left _ hx, hstep⟩
    · exact ⟨(s, e, s'), by simp, hbefore, hs, hP⟩

/-- What holds at the start and is kept by every step meeting `C` holds
before and after every step of a run whose steps all meet `C`. -/
theorem Run.invariant {I : σ → Prop} {C : σ → ε → Prop} (h0 : I s₀)
    (hstep : ∀ s e s', I s → C s e → step s e s' → I s')
    (h : Run step s₀ tr s) (hC : ∀ x ∈ tr, C x.1 x.2.1) :
    I s ∧ ∀ x ∈ tr, I x.1 ∧ I x.2.2 := by
  induction h with
  | nil => exact ⟨h0, by simp⟩
  | @snoc tr s e s' _ hs ih =>
    obtain ⟨hI, hall⟩ := ih fun x hx => hC x (List.mem_append_left _ hx)
    have hI' : I s' := hstep s e s' hI (hC (s, e, s') (by simp)) hs
    refine ⟨hI', fun x hx => ?_⟩
    rcases List.mem_append.mp hx with hx | hx
    · exact hall x hx
    · rw [List.mem_singleton] at hx; subst hx; exact ⟨hI, hI'⟩

/-- Every step of a run is a step, from a state that meets the invariant. -/
theorem Run.steps {I : σ → Prop} (h0 : I s₀) (hstep : ∀ s e s', I s → step s e s' → I s')
    (h : Run step s₀ tr s) : I s ∧ ∀ x ∈ tr, I x.1 ∧ step x.1 x.2.1 x.2.2 := by
  induction h with
  | nil => exact ⟨h0, by simp⟩
  | @snoc tr s e s' _ hs ih =>
    obtain ⟨hI, hall⟩ := ih
    refine ⟨hstep s e s' hI hs, ?_⟩
    intro x hx
    rcases List.mem_append.mp hx with hx | hx
    · exact hall x hx
    · rw [List.mem_singleton.mp hx]
      exact ⟨hI, hs⟩

/-- If steps meeting `C` keep the invariant, the invariant gives `P`, and a
step missing `C` ends where `P` fails, then `P` holds in every state reached
exactly when every step met `C`. -/
theorem Run.holds_iff {I P : σ → Prop} {C : σ → ε → Prop} (h0 : I s₀)
    (hstep : ∀ s e s', I s → C s e → step s e s' → I s') (hP : ∀ s, I s → P s)
    (hmiss : ∀ s e s', I s → ¬ C s e → step s e s' → ¬ P s') (h : Run step s₀ tr s) :
    (∀ x ∈ tr, P x.2.2) ↔ ∀ x ∈ tr, C x.1 x.2.1 := by
  refine ⟨fun hall => ?_, fun hC x hx => hP _ ((h.invariant h0 hstep hC).2 x hx).2⟩
  induction h with
  | nil => simp
  | @snoc tr s e s' hr hs ih =>
    have hC := ih fun x hx => hall x (List.mem_append_left _ hx)
    have hI := (hr.invariant h0 hstep hC).1
    intro x hx
    rcases List.mem_append.mp hx with hx | hx
    · exact hC x hx
    · rw [List.mem_singleton] at hx; subst hx
      by_contra hne
      exact hmiss s e s' hI hne hs (hall (s, e, s') (by simp))

/-- Forward simulation: each step that meets `C` is matched by a step with the
same label. -/
theorem Run.simulates {astep : τ → ε → τ → Prop} {R : σ → τ → Prop} {C : σ → ε → Prop} {t₀ : τ}
    (h0 : R s₀ t₀)
    (hstep : ∀ s t e s', R s t → C s e → step s e s' → ∃ t', astep t e t' ∧ R s' t')
    (h : Run step s₀ tr s) (hC : ∀ x ∈ tr, C x.1 x.2.1) :
    ∃ atr t, Run astep t₀ atr t ∧ R s t ∧ atr.map (fun x => x.2.1) = tr.map (fun x => x.2.1) := by
  induction h with
  | nil => exact ⟨[], t₀, .nil, h0, rfl⟩
  | @snoc tr s e s' _ hs ih =>
    obtain ⟨atr, t, hrun, hR, hlab⟩ := ih fun x hx => hC x (List.mem_append_left _ hx)
    obtain ⟨t', hst, hR'⟩ := hstep s t e s' hR (hC (s, e, s') (by simp)) hs
    exact ⟨atr ++ [(t, e, t')], t', .snoc hrun hst, hR', by simp [hlab]⟩

/-- Forward simulation of steps of which some do nothing that the other can see: each step
that meets `C` is matched by none, or by one labelled as `f` says. -/
theorem Run.refines {ε' : Type} {astep : τ → ε' → τ → Prop} {R : σ → τ → Prop} {C : σ → ε → Prop}
    {f : ε → Option ε'} {t₀ : τ} (h0 : R s₀ t₀)
    (hstep : ∀ s t e s', R s t → C s e → step s e s' →
      (f e = none ∧ R s' t) ∨ ∃ e' t', f e = some e' ∧ astep t e' t' ∧ R s' t')
    (h : Run step s₀ tr s) (hC : ∀ x ∈ tr, C x.1 x.2.1) :
    ∃ atr t, Run astep t₀ atr t ∧ R s t ∧ atr.map (fun x => x.2.1) = tr.filterMap fun x => f x.2.1 := by
  induction h with
  | nil => exact ⟨[], t₀, .nil, h0, rfl⟩
  | @snoc tr s e s' _ hs ih =>
    obtain ⟨atr, t, hrun, hR, hlab⟩ := ih fun x hx => hC x (List.mem_append_left _ hx)
    obtain ⟨hnone, hR'⟩ | ⟨e', t', hsome, hst, hR'⟩ := hstep s t e s' hR (hC (s, e, s') (by simp)) hs
    · exact ⟨atr, t, hrun, hR', by simp [hlab, hnone]⟩
    · exact ⟨atr ++ [(t, e', t')], t', .snoc hrun hst, hR', by simp [hlab, hsome]⟩

/-- Two runs of a relation whose labels' inputs decide everything: where the inputs
are the same, so are the outputs, and the ends. -/
theorem Run.agree {ι ω : Type} {inp : ε → ι} {out : ε → ω}
    (hdet : ∀ s e e' s₁ s₂, step s e s₁ → step s e' s₂ → inp e = inp e' → out e = out e' ∧ s₁ = s₂)
    {tr' : List (σ × ε × σ)} {s' : σ} (h : Run step s₀ tr s) (h' : Run step s₀ tr' s')
    (hinp : tr.map (fun x => inp x.2.1) = tr'.map fun x => inp x.2.1) :
    (tr.map fun x => out x.2.1) = (tr'.map fun x => out x.2.1) ∧ s = s' := by
  induction h generalizing tr' s' with
  | nil =>
    cases h' with
    | nil => exact ⟨rfl, rfl⟩
    | snoc _ _ => simp at hinp
  | @snoc tr s e s₁ _ hs ih =>
    cases h' with
    | nil => simp at hinp
    | snoc hrun' hs' =>
      rw [List.map_append, List.map_append] at hinp
      obtain ⟨hinp, hlast⟩ := List.append_inj' hinp rfl
      obtain ⟨hout, rfl⟩ := ih hrun' hinp
      simp only [List.map_cons, List.map_nil, List.cons.injEq, and_true] at hlast
      obtain ⟨hlast', rfl⟩ := hdet _ _ _ _ _ hs hs' hlast
      refine ⟨?_, rfl⟩
      rw [List.map_append, List.map_append, hout]
      simp only [List.map_cons, List.map_nil, hlast']

/-! ## A run that is computed -/

section play
variable {ι ω : Type}

/-- The run of these inputs, one after another. -/
def play (next : σ → ι → Exec (ω × σ)) : List ι → σ → Exec (List (σ × (ι × ω) × σ) × σ)
  | [], s => pure ([], s)
  | i :: rest, s => do
    let (out, s₁) ← next s i
    let (tr, s') ← play next rest s₁
    pure ((s, (i, out), s₁) :: tr, s')

theorem play_run {next : σ → ι → Exec (ω × σ)} {step : σ → ι × ω → σ → Prop} {is : List ι} {s s' : σ}
    {tr : List (σ × (ι × ω) × σ)} (hstep : ∀ s i out s', next s i = .ok (out, s') → step s (i, out) s')
    (h : play next is s = .ok (tr, s')) : Run step s tr s' := by
  induction is generalizing s tr with
  | nil =>
    cases h
    exact .nil
  | cons i rest ih =>
    obtain ⟨⟨out, s₁⟩, hnext, h⟩ := bind_ok_iff.mp h
    obtain ⟨⟨tr₁, s₂⟩, hrest, h⟩ := bind_ok_iff.mp h
    cases h
    exact (Run.single (hstep s i out s₁ hnext)).trans (ih hrest)

theorem play_inputs {next : σ → ι → Exec (ω × σ)} {is : List ι} {s s' : σ} {tr : List (σ × (ι × ω) × σ)}
    (h : play next is s = .ok (tr, s')) : tr.map (fun x => x.2.1.1) = is := by
  induction is generalizing s tr with
  | nil =>
    cases h
    rfl
  | cons i rest ih =>
    obtain ⟨⟨out, s₁⟩, -, h⟩ := bind_ok_iff.mp h
    obtain ⟨⟨tr₁, s₂⟩, hrest, h⟩ := bind_ok_iff.mp h
    cases h
    rw [List.map_cons, ih hrest]

end play

end Runs
