import Yalantinglibs.Data.StepLoop
import Mathlib.Data.List.Basic

/-!
# Loops that are entered again

A loop that leaves with a value and with the state in which it is entered the next time. The values
of a number of calls are those of the rounds of the loop, one behind the other, and rounds that give
no value belong to the call behind them.

## Main definitions

* `Draws` — the values of a number of calls
* `Passes` — the values of a number of rounds

## Main results

* `Draws.unique` — a number of calls has one outcome
* `Passes.exists_draws` — the calls that a number of rounds is made of
* `Passes.draws` — rounds without a value in front of a call
-/

set_option autoImplicit false

namespace Yalantinglibs.StepLoop

variable {σ ρ : Type*} {body : σ → σ ⊕ (ρ × σ)} {s t u : σ} {r : ρ} {rs qs : List ρ}

/-- Calls from `s` to `t`, with the values that they give. -/
inductive Draws (body : σ → σ ⊕ (ρ × σ)) : σ → List ρ → σ → Prop
  | nil (s : σ) : Draws body s [] s
  | cons {s t u : σ} {r : ρ} {rs : List ρ} :
    Ends body s (r, t) → Draws body t rs u → Draws body s (r :: rs) u

/-- Rounds from `s` to `t`, with the values that they give. -/
inductive Passes (body : σ → σ ⊕ (ρ × σ)) : σ → List ρ → σ → Prop
  | refl (s : σ) : Passes body s [] s
  | next {s t u : σ} {rs : List ρ} :
    body s = .inl t → Passes body t rs u → Passes body s rs u
  | draw {s t u : σ} {r : ρ} {rs : List ρ} :
    body s = .inr (r, t) → Passes body t rs u → Passes body s (r :: rs) u

theorem draws_nil_iff : Draws body s [] t ↔ s = t := by
  constructor
  · intro h
    cases h
    rfl
  · rintro rfl
    exact .nil s

theorem draws_cons_iff :
    Draws body s (r :: rs) u ↔ ∃ t, Ends body s (r, t) ∧ Draws body t rs u := by
  constructor
  · intro h
    cases h with
    | cons hr hrs => exact ⟨_, hr, hrs⟩
  · rintro ⟨t, hr, hrs⟩
    exact .cons hr hrs

theorem Draws.append (h : Draws body s rs t) (h' : Draws body t qs u) :
    Draws body s (rs ++ qs) u := by
  induction h with
  | nil s => exact h'
  | cons hr _ ih => exact .cons hr (ih h')

theorem draws_append_iff :
    Draws body s (rs ++ qs) u ↔ ∃ t, Draws body s rs t ∧ Draws body t qs u := by
  constructor
  · intro h
    induction rs generalizing s with
    | nil => exact ⟨s, .nil s, h⟩
    | cons r rs ih =>
      obtain ⟨v, hr, hrs⟩ := draws_cons_iff.mp h
      obtain ⟨t, hrs, hqs⟩ := ih hrs
      exact ⟨t, .cons hr hrs, hqs⟩
  · rintro ⟨t, hrs, hqs⟩
    exact hrs.append hqs

/-- A number of calls has one outcome. -/
theorem Draws.unique {t' : σ} {rs' : List ρ} (h : Draws body s rs t) (h' : Draws body s rs' t')
    (hlen : rs.length = rs'.length) : rs = rs' ∧ t = t' := by
  induction h generalizing rs' with
  | nil s =>
    obtain rfl := List.eq_nil_of_length_eq_zero hlen.symm
    exact ⟨rfl, draws_nil_iff.mp h'⟩
  | cons hr _ ih =>
    cases h' with
    | nil => cases hlen
    | cons hr' hrs' =>
      obtain ⟨rfl, rfl⟩ := Prod.mk.inj (hr.unique hr')
      obtain ⟨rfl, rfl⟩ := ih hrs' (Nat.succ.inj hlen)
      exact ⟨rfl, rfl⟩

theorem Passes.append (h : Passes body s rs t) (h' : Passes body t qs u) :
    Passes body s (rs ++ qs) u := by
  induction h with
  | refl s => exact h'
  | next hs _ ih => exact .next hs (ih h')
  | draw hs _ ih => exact .draw hs (ih h')

/-- The calls that a number of rounds is made of, and rounds without a value behind them. -/
theorem Passes.exists_draws (h : Passes body s rs u) :
    ∃ t, Draws body s rs t ∧ Passes body t [] u := by
  induction h with
  | refl s => exact ⟨s, .nil s, .refl s⟩
  | @next s s' u rs hs hrest ih =>
    obtain ⟨t, hdraws, hsilent⟩ := ih
    cases hdraws with
    | nil => exact ⟨s, .nil s, .next hs hsilent⟩
    | cons hr hrs => exact ⟨t, .cons ((ends_iff_of_inl hs).mpr hr) hrs, hsilent⟩
  | draw hs _ ih =>
    obtain ⟨t, hdraws, hsilent⟩ := ih
    exact ⟨t, .cons ((ends_iff_of_inr hs).mpr rfl) hdraws, hsilent⟩

/-- Rounds without a value belong to the call behind them. -/
theorem Passes.draws (h : Passes body s [] t) (h' : Draws body t (r :: rs) u) :
    Draws body s (r :: rs) u := by
  generalize hnone : ([] : List ρ) = none at h
  induction h with
  | refl s => exact h'
  | next hs _ ih =>
    obtain ⟨v, hr, hrs⟩ := draws_cons_iff.mp (ih h' hnone)
    exact .cons ((ends_iff_of_inl hs).mpr hr) hrs
  | draw => cases hnone

end Yalantinglibs.StepLoop
