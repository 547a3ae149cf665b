import Mathlib.Logic.Relation

/-!
# Runs of a guarded transition system

A system is a relation `Step s a s'`, labelled by the action taken, and a run
from a start state takes actions one after another. Most of what a program
promises it promises along runs whose steps all meet a condition – the caller
keeps to the contract, or the step stays clear of a branch that goes wrong – so
the condition is part of the definition here: `Thunix.Reach Step Ok s₀` is the
set of states a run from `s₀` reaches when every action `a` taken from a state
`s` on the way satisfies `Ok s a`.

The rule of the file is the induction rule, `Thunix.Reach.invariant`: what holds
at the start and is preserved by every admissible step holds of every state
reached. Where the steps are computed by a function, `Thunix.runOf` computes runs,
and `Thunix.reach_of_runOf` says that they are runs.
-/

namespace Thunix

variable {σ α : Type*}

/-- The states reached from `s₀` by a run whose steps all satisfy `Ok`. -/
inductive Reach (Step : σ → α → σ → Prop) (Ok : σ → α → Prop) (s₀ : σ) : σ → Prop
  /-- The run that has not started. -/
  | start : Reach Step Ok s₀ s₀
  /-- One more admissible step. -/
  | step {s s' : σ} {a : α} : Reach Step Ok s₀ s → Ok s a → Step s a s' → Reach Step Ok s₀ s'

variable {Step : σ → α → σ → Prop} {Ok : σ → α → Prop} {s₀ : σ}

/-- **The invariant rule.** -/
theorem Reach.invariant {Inv : σ → Prop} (hstart : Inv s₀)
    (hstep : ∀ s a s', Inv s → Ok s a → Step s a s' → Inv s') {s : σ}
    (h : Reach Step Ok s₀ s) : Inv s := by
  induction h with
  | start => exact hstart
  | step _ hok hs ih => exact hstep _ _ _ ih hok hs

/-! ### Computed runs -/

/-- The steps a partial function takes. -/
def StepOf (step : σ → α → Option σ) (s : σ) (a : α) (s' : σ) : Prop := step s a = some s'

/-- Take the actions of a list one after another, as long as they satisfy `Ok`. -/
def runOf (step : σ → α → Option σ) (Ok : σ → α → Prop) [∀ s a, Decidable (Ok s a)] :
    List α → σ → Option σ
  | [], s => some s
  | a :: as, s => if Ok s a then (step s a).bind (runOf step Ok as) else none

/-- **A computed run is a run.** -/
theorem reach_of_runOf {step : σ → α → Option σ} {Ok : σ → α → Prop} [∀ s a, Decidable (Ok s a)]
    {as : List α} {s₀ s s' : σ} (hs : Reach (StepOf step) Ok s₀ s)
    (h : runOf step Ok as s = some s') : Reach (StepOf step) Ok s₀ s' := by
  induction as generalizing s with
  | nil => cases h; exact hs
  | cons a as ih =>
    rw [runOf] at h
    by_cases hok : Ok s a
    · rw [if_pos hok] at h
      obtain ⟨s1, h1, h2⟩ := Option.bind_eq_some_iff.mp h
      exact ih (hs.step hok h1) h2
    · rw [if_neg hok] at h
      cases h

end Thunix
