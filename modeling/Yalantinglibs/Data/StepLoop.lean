import Mathlib.Logic.Basic
import Mathlib.Logic.Relation
import Mathlib.Order.Basic

/-!
# Loops that may not end

A loop whose body goes on with another state or leaves with a result. It ends when some number of
rounds leaves it; a body that gives back the state it was given never does.

## Main definitions

* `StepLoop.run` — a bounded number of rounds
* `StepLoop.Ends` — the loop leaves with a result
* `StepLoop.Advances` — every round goes down an order

## Main results

* `ends_of_measure` — an invariant and a measure that every round lessens
* `endsAdvancing_of_invariant` — an invariant and an order that every round goes down
* `not_ends_of_eq` — a state the body does not change
* `not_ends_of_invariant` — states the body never leaves
-/

set_option autoImplicit false

namespace Yalantinglibs.StepLoop

variable {σ ρ : Type*}

/-- At most so many rounds. -/
def run (body : σ → σ ⊕ ρ) : ℕ → σ → Option ρ
  | 0, _ => none
  | n + 1, s =>
    match body s with
    | .inl s' => run body n s'
    | .inr r => some r

/-- The loop leaves with `r`. -/
def Ends (body : σ → σ ⊕ ρ) (s : σ) (r : ρ) : Prop := ∃ n, run body n s = some r

variable {body : σ → σ ⊕ ρ} {s s' : σ} {r : ρ}

/-- A round that goes on does not change how the loop ends. -/
theorem ends_iff_of_inl (h : body s = .inl s') : Ends body s r ↔ Ends body s' r := by
  constructor
  · rintro ⟨n, hn⟩
    cases n with
    | zero => cases hn
    | succ n =>
      rw [run, h] at hn
      exact ⟨n, hn⟩
  · rintro ⟨n, hn⟩
    refine ⟨n + 1, ?_⟩
    rw [run, h]
    exact hn

/-- A round that leaves is the end. -/
theorem ends_iff_of_inr {r' : ρ} (h : body s = .inr r') : Ends body s r ↔ r' = r := by
  constructor
  · rintro ⟨n, hn⟩
    cases n with
    | zero => cases hn
    | succ n =>
      rw [run, h] at hn
      exact Option.some.inj hn
  · rintro rfl
    refine ⟨1, ?_⟩
    rw [run, h]

/-- A loop has one result. -/
theorem Ends.unique {r' : ρ} (h : Ends body s r) (h' : Ends body s r') : r = r' := by
  obtain ⟨n, hn⟩ := h
  induction n generalizing s with
  | zero => cases hn
  | succ n ih =>
    rw [run] at hn
    cases hbody : body s with
    | inl t =>
      rw [hbody] at hn
      exact ih ((ends_iff_of_inl hbody).mp h') hn
    | inr q =>
      rw [hbody] at hn
      rw [ends_iff_of_inr hbody] at h'
      rw [← h']
      exact (Option.some.inj hn).symm

/-- What an invariant says of the result, where every round lessens a measure. -/
theorem ends_of_measure (I : σ → Prop) (μ : σ → ℕ) (Q : ρ → Prop)
    (hinl : ∀ s s', I s → body s = .inl s' → I s' ∧ μ s' < μ s)
    (hinr : ∀ s r, I s → body s = .inr r → Q r) (hs : I s) : ∃ r, Ends body s r ∧ Q r := by
  generalize hn : μ s = n
  induction n using Nat.strongRecOn generalizing s with
  | ind n ih =>
    cases hbody : body s with
    | inl s' =>
      obtain ⟨hs', hlt⟩ := hinl s s' hs hbody
      obtain ⟨r, hr, hQ⟩ := ih (μ s') (hn ▸ hlt) hs' rfl
      exact ⟨r, (ends_iff_of_inl hbody).mpr hr, hQ⟩
    | inr r => exact ⟨r, (ends_iff_of_inr hbody).mpr rfl, hinr s r hs hbody⟩

/-- A state that a round does not change is never left. -/
theorem not_ends_of_eq (h : body s = .inl s) : ¬ Ends body s r := by
  rintro ⟨n, hn⟩
  induction n with
  | zero => cases hn
  | succ n ih =>
    rw [run, h] at hn
    exact ih hn

/-- States from which a round goes on to one of them are never left. -/
theorem not_ends_of_invariant (I : σ → Prop) (hinl : ∀ s, I s → ∃ s', body s = .inl s' ∧ I s')
    (hs : I s) : ¬ Ends body s r := by
  rintro ⟨n, hn⟩
  induction n generalizing s with
  | zero => cases hn
  | succ n ih =>
    obtain ⟨s', hbody, hs'⟩ := hinl s hs
    rw [run, hbody] at hn
    exact ih hs' hn

/-- What an invariant says of the result, where there is one. -/
theorem Ends.of_invariant (I : σ → Prop) (Q : ρ → Prop)
    (hinl : ∀ s s', I s → body s = .inl s' → I s') (hinr : ∀ s r, I s → body s = .inr r → Q r)
    (h : Ends body s r) (hs : I s) : Q r := by
  obtain ⟨n, hn⟩ := h
  induction n generalizing s with
  | zero => cases hn
  | succ n ih =>
    rw [run] at hn
    cases hbody : body s with
    | inl t =>
      rw [hbody] at hn
      exact ih (hinl s t hs hbody) hn
    | inr q =>
      rw [hbody] at hn
      exact Option.some.inj hn ▸ hinr s q hs hbody

/-! ### Progress -/

/-- The loop comes from `s` to `s'`. -/
def Reaches (body : σ → σ ⊕ ρ) : σ → σ → Prop :=
  Relation.ReflTransGen fun s s' => body s = .inl s'

/-- Every round of the loop that goes on goes down the order. -/
def Advances (body : σ → σ ⊕ ρ) (lt : σ → σ → Prop) (s : σ) : Prop :=
  ∀ s' s'', Reaches body s s' → body s' = .inl s'' → lt s'' s'

/-- The loop ends from wherever it comes as it does from the start. -/
theorem Reaches.ends_iff (h : Reaches body s s') : Ends body s r ↔ Ends body s' r := by
  induction h with
  | refl => exact Iff.rfl
  | tail _ hstep ih => exact ih.trans (ends_iff_of_inl hstep)

/-- An invariant of the rounds holds wherever the loop comes. -/
theorem Reaches.of_invariant (I : σ → Prop) (hinl : ∀ s s', I s → body s = .inl s' → I s')
    (h : Reaches body s s') (hs : I s) : I s' := by
  induction h with
  | refl => exact hs
  | tail _ hstep ih => exact hinl _ _ ih hstep

/-- The loop ends, and every round goes down the order, where an invariant says so of a round. -/
theorem endsAdvancing_of_invariant {lt : σ → σ → Prop} (hlt : WellFounded lt) (I : σ → Prop)
    (hinl : ∀ s s', I s → body s = .inl s' → I s' ∧ lt s' s) (hs : I s) :
    (∃ r, Ends body s r) ∧ Advances body lt s := by
  refine ⟨?_, fun s' s'' hreaches hbody => ?_⟩
  · induction s using hlt.induction with
    | _ s ih =>
      cases hbody : body s with
      | inl s' =>
        obtain ⟨hs', hless⟩ := hinl s s' hs hbody
        obtain ⟨r, hr⟩ := ih s' hless hs'
        exact ⟨r, (ends_iff_of_inl hbody).mpr hr⟩
      | inr r => exact ⟨r, (ends_iff_of_inr hbody).mpr rfl⟩
  · have hs' := hreaches.of_invariant I (fun t t' ht hbody' => (hinl t t' ht hbody').1) hs
    exact (hinl s' s'' hs' hbody).2

end Yalantinglibs.StepLoop
