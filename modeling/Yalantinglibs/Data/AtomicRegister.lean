import Mathlib.Logic.Relation
import Mathlib.Tactic.Common

/-!
# Atomic registers

Registers with values of any type, and calls that load, store, exchange, or compare and exchange a
value. A call takes effect at one moment between its beginning and its end, and its result is that
of this moment. An implementation is an atomic register where each of its steps is the beginning of
a call, its effect, or neither of them.

## Main definitions

* `Call`, `Result`, `Call.TakesEffect` — the calls and what they do to the value of a register
* `Registers`, `Registers.Step` — registers with the calls that have been made

## Main results

* `Registers.exists_effect` — a result that has come is that of one moment in between
-/

set_option autoImplicit false

namespace Yalantinglibs.AtomicRegister

variable {α : Type*}

/-- A call on a register. -/
inductive Call (α : Type*)
  | load
  | store (desired : α)
  | exchange (desired : α)
  /-- a weak compare-exchange -/
  | compareExchange (expected desired : α)
deriving DecidableEq

/-- What a call returns. -/
inductive Result (α : Type*)
  | loaded (value : α)
  | stored
  | exchanged (old : α)
  /-- whether the values were exchanged, and what is expected now -/
  | compared (ok : Bool) (expected : α)
deriving DecidableEq

/-- The effect of a call: a register with the first value has the second one behind it. A
compare-exchange may fail without a reason, and leaves what is expected as it was. -/
inductive Call.TakesEffect : Call α → α → α → Result α → Prop
  | load (v : α) : TakesEffect .load v v (.loaded v)
  | store (v w : α) : TakesEffect (.store w) v w .stored
  | exchange (v w : α) : TakesEffect (.exchange w) v w (.exchanged v)
  | success (v w : α) : TakesEffect (.compareExchange v w) v w (.compared true v)
  | failure (u v w : α) (h : v ≠ u) :
      TakesEffect (.compareExchange u w) v v (.compared false v)
  | spurious (u v w : α) : TakesEffect (.compareExchange u w) v v (.compared false u)

/-- A call that has been made, with its result once it has taken effect. -/
structure Pending (α : Type*) where
  cell : ℕ
  call : Call α
  result : Option (Result α)
deriving DecidableEq

/-- Registers and the calls that have been made. -/
structure Registers (α : Type*) where
  cells : List α
  calls : List (Pending α)
deriving DecidableEq

namespace Registers

/-- A call begins, or takes effect. -/
inductive Step (s : Registers α) : Registers α → Prop
  | begin (cell : ℕ) (call : Call α) : Step s { s with calls := s.calls ++ [⟨cell, call, none⟩] }
  | effect (k cell : ℕ) (call : Call α) (v w : α) (result : Result α)
      (hk : s.calls[k]? = some ⟨cell, call, none⟩) (hcell : s.cells[cell]? = some v)
      (h : call.TakesEffect v w result) :
      Step s ⟨s.cells.set cell w, s.calls.set k ⟨cell, call, some result⟩⟩

variable {s s' : Registers α}

/-- A result that has come is that of one moment in between, behind the beginning of the call. -/
theorem exists_effect {k cell : ℕ} {call : Call α} {result : Result α}
    (h : Relation.ReflTransGen Step s s') (hk : s.calls[k]? = none ∨
      s.calls[k]? = some ⟨cell, call, none⟩)
    (hk' : s'.calls[k]? = some ⟨cell, call, some result⟩) :
    ∃ s₁ v w, Relation.ReflTransGen Step s s₁ ∧ s₁.calls[k]? = some ⟨cell, call, none⟩ ∧
      s₁.cells[cell]? = some v ∧ call.TakesEffect v w result ∧
      Relation.ReflTransGen Step
        ⟨s₁.cells.set cell w, s₁.calls.set k ⟨cell, call, some result⟩⟩ s' := by
  induction h with
  | refl => obtain hk | hk := hk <;> rw [hk] at hk' <;> cases hk'
  | @tail s₁ s₂ hs hstep ih =>
    cases hstep with
    | begin cell' call' =>
      obtain hlt | hle := Nat.lt_or_ge k s₁.calls.length
      · rw [List.getElem?_append_left hlt] at hk'
        obtain ⟨s₀, v, w, h₀, hbegun, hv, heffect, htail⟩ := ih hk'
        exact ⟨s₀, v, w, h₀, hbegun, hv, heffect, htail.tail (.begin cell' call')⟩
      · -- a call that begins has no result
        rw [List.getElem?_append_right hle, List.getElem?_singleton] at hk'
        split at hk' <;> cases hk'
    | effect j cell' call' v w result' hj hcell heffect =>
      by_cases hjk : j = k
      · subst hjk
        obtain ⟨hlt, -⟩ := List.getElem?_eq_some_iff.mp hj
        rw [List.getElem?_set_self hlt] at hk'
        cases hk'
        exact ⟨s₁, v, w, hs, hj, hcell, heffect, .refl⟩
      · rw [List.getElem?_set_ne hjk] at hk'
        obtain ⟨s₀, v₀, w₀, h₀, hbegun, hv, heffect₀, htail⟩ := ih hk'
        exact ⟨s₀, v₀, w₀, h₀, hbegun, hv, heffect₀,
          htail.tail (.effect j cell' call' v w result' hj hcell heffect)⟩

end Registers

end Yalantinglibs.AtomicRegister
