import Mathlib

/-!
# Runs of a transition system

A system is a partial step function: `step s a` is the state after action `a`, `none`
when `s` does not allow it. A run is a list of actions, each allowed in turn; an
invariant may look at the actions taken so far (`Run.invariant_trace`) or at the state
alone (`Run.invariant`).
-/

namespace Transition

variable {σ α : Type*}

/-- The actions `acts`, taken in order from `s`, lead to `s'`. -/
def Run (step : σ → α → Option σ) (s : σ) (acts : List α) (s' : σ) : Prop :=
  acts.foldlM step s = some s'

variable {step : σ → α → Option σ} {s s' : σ} {acts : List α} {a : α}

instance [DecidableEq σ] : Decidable (Run step s acts s') :=
  inferInstanceAs (Decidable (acts.foldlM step s = some s'))

theorem Run.nil : Run step s [] s := rfl

theorem Run.snoc_iff :
    Run step s (acts ++ [a]) s' ↔ ∃ t, Run step s acts t ∧ step t a = some s' := by
  rw [Run, List.foldlM_append]
  simp [Run, Option.bind_eq_some_iff]

theorem Run.cons_iff : Run step s (a :: acts) s' ↔ ∃ t, step s a = some t ∧ Run step t acts s' := by
  rw [Run, List.foldlM_cons]
  simp [Run, Option.bind_eq_some_iff]

theorem Run.append_iff {acts' : List α} :
    Run step s (acts ++ acts') s' ↔ ∃ t, Run step s acts t ∧ Run step t acts' s' := by
  rw [Run, List.foldlM_append]
  simp [Run, Option.bind_eq_some_iff]

/-- The run of actions that are all allowed. -/
theorem Run.get (h : (acts.foldlM step s).isSome = true) :
    Run step s acts ((acts.foldlM step s).get h) := (Option.some_get h).symm

/-- What holds at the start and is preserved by each step of the run holds at its end;
`P` may also speak about the actions taken so far. -/
theorem Run.invariant_trace {P : List α → σ → Prop} (h : Run step s acts s') (h₀ : P [] s)
    (hstep : ∀ acts t a t', Run step s acts t → P acts t → step t a = some t' →
      P (acts ++ [a]) t') : P acts s' := by
  induction acts using List.reverseRecOn generalizing s' with
  | nil =>
    cases Option.some.inj h
    exact h₀
  | append_singleton acts a ih =>
    obtain ⟨t, hrun, ht⟩ := Run.snoc_iff.mp h
    exact hstep acts t a s' hrun (ih hrun) ht

theorem Run.invariant {P : σ → Prop} (h : Run step s acts s') (h₀ : P s)
    (hstep : ∀ t a t', P t → step t a = some t' → P t') : P s' :=
  h.invariant_trace (P := fun _ => P) h₀ fun _ t a t' _ => hstep t a t'

end Transition
