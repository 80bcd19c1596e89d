import Mathlib.Data.List.Basic
import Mathlib.Logic.Function.Basic

/-!
# A log in numbered slots

A log is kept in slots of which the one with the highest number is the oldest. Slots may be empty.
To make room the oldest slot is cleared, and the others are moved up one by one, from the oldest on.

## Main definitions

* `concat` — the entries of the slots, from the oldest slot on
* `clear`, `moveUp`, `push` — a slot is cleared or moved into the next, and an entry is added

## Main results

* `concat_moveUp` — what is moved into an empty slot stays in order
* `concat_clear_last` — the oldest entries go with the oldest slot
-/

set_option autoImplicit false

namespace SlotLog

variable {ρ β : Type*} {s : ℕ → Option (List ρ)} {t : ℕ → Option β} {n i : ℕ}
  {rs : Option (List ρ)}

/-- The entries below a number of slots, the highest slot first. -/
def concat : ℕ → (ℕ → Option (List ρ)) → List ρ
  | 0, _ => []
  | n + 1, s => (s n).getD [] ++ concat n s

def clear (i : ℕ) (t : ℕ → Option β) : ℕ → Option β := Function.update t i none

/-- Nothing is moved out of an empty slot. -/
def moveUp (i : ℕ) (t : ℕ → Option β) : ℕ → Option β :=
  match t i with
  | none => t
  | some b => clear i (Function.update t (i + 1) (some b))

/-- An entry is added to the newest slot. -/
def push (r : ρ) (s : ℕ → Option (List ρ)) : ℕ → Option (List ρ) :=
  Function.update s 0 (some ((s 0).getD [] ++ [r]))

/-- Slots behind those that are read do not matter. -/
theorem concat_update_of_le (h : n ≤ i) : concat n (Function.update s i rs) = concat n s := by
  induction n with
  | zero => rfl
  | succ n ih =>
    have hne : n ≠ i := by omega
    rw [concat, concat, Function.update_of_ne hne, ih (by omega)]

theorem concat_congr {s' : ℕ → Option (List ρ)}
    (h : ∀ i < n, (s i).getD [] = (s' i).getD []) : concat n s = concat n s' := by
  induction n with
  | zero => rfl
  | succ n ih =>
    rw [concat, concat, h n (Nat.lt_succ_self n), ih fun i hi => h i (Nat.lt_succ_of_lt hi)]

theorem concat_clear_last (n : ℕ) (s : ℕ → Option (List ρ)) :
    concat (n + 1) s = (s n).getD [] ++ concat (n + 1) (clear n s) := by
  rw [concat, concat, clear, Function.update_self, concat_update_of_le (Nat.le_refl n)]
  rfl

theorem moveUp_of_ne {j : ℕ} (hj : j ≠ i) (hj' : j ≠ i + 1) : moveUp i t j = t j := by
  unfold moveUp
  cases t i with
  | none => rfl
  | some b =>
    dsimp only [clear]
    rw [Function.update_of_ne hj, Function.update_of_ne hj']

/-- What is moved leaves its slot. -/
theorem moveUp_self : moveUp i t i = none := by
  unfold moveUp
  cases h : t i with
  | none => exact h
  | some b => exact Function.update_self _ _ _

theorem moveUp_succ (h : t (i + 1) = none) : moveUp i t (i + 1) = t i := by
  unfold moveUp
  cases hi : t i with
  | none => exact h
  | some b =>
    dsimp only [clear]
    rw [Function.update_of_ne (Nat.succ_ne_self i), Function.update_self]

theorem concat_moveUp (h : s (i + 1) = none) (hi : i + 1 < n) :
    concat n (moveUp i s) = concat n s := by
  induction n with
  | zero => exact absurd hi (Nat.not_lt_zero _)
  | succ n ih =>
    rcases Nat.lt_succ_iff_lt_or_eq.mp hi with hlt | rfl
    · rw [concat, concat, ih hlt, moveUp_of_ne (by omega) (by omega)]
    · -- the two slots are read one behind the other
      have hrest : concat i (moveUp i s) = concat i s := concat_congr fun j hj => by
        rw [moveUp_of_ne (by omega) (by omega)]
      rw [concat, concat, concat, concat, hrest, moveUp_succ h, moveUp_self, h]
      rfl

theorem concat_push (n : ℕ) (r : ρ) (s : ℕ → Option (List ρ)) :
    concat (n + 1) (push r s) = concat (n + 1) s ++ [r] := by
  induction n with
  | zero =>
    rw [concat, concat, concat, concat, push, Function.update_self, List.append_nil,
      List.append_nil]
    rfl
  | succ n ih =>
    have hsucc : ∀ s : ℕ → Option (List ρ),
        concat (n + 2) s = (s (n + 1)).getD [] ++ concat (n + 1) s := fun _ => rfl
    rw [hsucc, hsucc, ih, push, Function.update_of_ne (Nat.succ_ne_zero n), List.append_assoc]

end SlotLog
