import Mathlib.Logic.Basic

/-!
# Transition systems

A system that takes one action after the other, with a condition on the actions it takes. What
holds at the start and is kept by every action that meets the condition holds in every state that
such actions lead to.

## Main definitions

* `TransitionSystem` — a state to start in, and a partial step function
* `TransitionSystem.Reaches` — the states that actions which meet a condition lead to
* `TransitionSystem.runIf` — a run through a list of actions

## Main results

* `Reaches.invariant` — the induction over a run
* `reaches_of_runIf` — the end of a run is reached
-/

set_option autoImplicit false

namespace Yalantinglibs

/-- A system with states `σ` that takes actions `α`. -/
structure TransitionSystem (σ α : Type*) where
  init : σ
  /-- `none` where the action is not possible -/
  step : σ → α → Option σ

namespace TransitionSystem

variable {σ α : Type*} (T : TransitionSystem σ α) (P : σ → α → Prop)

/-- The states that are reached by actions which meet `P`. -/
inductive Reaches : σ → Prop
  | init : Reaches T.init
  | step {s s' : σ} {a : α} : Reaches s → P s a → T.step s a = some s' → Reaches s'

/-- All states that are reached. -/
abbrev Reachable : σ → Prop := T.Reaches fun _ _ => True

/-- A run through a list of actions, as long as they meet `P`. -/
def runIf [∀ s a, Decidable (P s a)] : σ → List α → Option σ
  | s, [] => some s
  | s, a :: as => if P s a then (T.step s a).bind fun s' => runIf s' as else none

variable {T P} {Q : σ → α → Prop} {s s' : σ}

/-- What every action keeps holds after any number of them. -/
theorem Reaches.invariant {I : σ → Prop} (hinit : I T.init)
    (hstep : ∀ s a s', I s → P s a → T.step s a = some s' → I s') (h : T.Reaches P s) : I s := by
  induction h with
  | init => exact hinit
  | step _ hP hs ih => exact hstep _ _ _ ih hP hs

/-- The end of a run is reached. -/
theorem reaches_of_runIf [∀ s a, Decidable (P s a)] {as : List α} (hs : T.Reaches P s)
    (h : T.runIf P s as = some s') : T.Reaches P s' := by
  induction as generalizing s with
  | nil =>
    rw [runIf, Option.some.injEq] at h
    exact h ▸ hs
  | cons a as ih =>
    rw [runIf] at h
    by_cases hP : P s a
    · rw [if_pos hP] at h
      obtain ⟨s₁, hs₁, hrun⟩ := Option.bind_eq_some_iff.mp h
      exact ih (.step hs hP hs₁) hrun
    · rw [if_neg hP] at h
      cases h

end TransitionSystem

end Yalantinglibs
