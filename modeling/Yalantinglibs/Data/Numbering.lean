import Mathlib.Algebra.BigOperators.Group.List.Basic
import Mathlib.Algebra.Order.Group.Multiset
import Mathlib.Data.Multiset.Range

/-!
# Numbered things

Things get the numbers `0`, `1`, … as they are made, and each is in one of several places from then
on. That is an equation of multisets: the places together hold the numbers below the next one.

## Main results

* `range_add_range'`, `range_toNat` — new numbers
* `count_add_count_of_range` — a thing is in one place, and there once
* `exists_sum_map` — one of the places changes
-/

set_option autoImplicit false

namespace Yalantinglibs.Numbering

theorem range_add_range' (a n : ℕ) :
    Multiset.range a + (List.range' a n : Multiset ℕ) = Multiset.range (a + n) := by
  rw [← Multiset.coe_range, ← Multiset.coe_range, Multiset.coe_add, List.range_eq_range',
    List.range_eq_range']
  have := @List.range'_append 0 a n 1
  rw [Nat.one_mul, Nat.zero_add] at this
  rw [this]

theorem range_add_singleton (a : ℕ) : Multiset.range a + {a} = Multiset.range (a + 1) := by
  rw [Multiset.range_succ, add_comm, Multiset.singleton_add]

theorem range_toNat (a : ℕ) (b : Bool) :
    Multiset.range a + ((if b then [a] else [] : List ℕ) : Multiset ℕ) =
      Multiset.range (a + b.toNat) := by
  cases b with
  | false => simp
  | true => exact range_add_singleton a

theorem coe_cons (a : ℕ) (l : List ℕ) : (↑(a :: l) : Multiset ℕ) = {a} + ↑l := by
  rw [← Multiset.cons_coe, Multiset.singleton_add]

theorem coe_concat (l : List ℕ) (a : ℕ) : ((l ++ [a] : List ℕ) : Multiset ℕ) = ↑(a :: l) :=
  Multiset.coe_eq_coe.mpr (List.perm_append_singleton a l)

theorem count_add_count_of_range {l l' : List ℕ} {n : ℕ}
    (h : (l : Multiset ℕ) + l' = Multiset.range n) {a : ℕ} (ha : a < n) :
    l.count a + l'.count a = 1 := by
  rw [← Multiset.coe_count, ← Multiset.coe_count, ← Multiset.count_add, h]
  exact Multiset.count_eq_one_of_mem (Multiset.nodup_range n) (Multiset.mem_range.mpr ha)

section Places

variable {α M : Type*} [AddCommMonoid M] (f : α → M)

/-- One of the places, and what is in the others, which stay as they are. -/
theorem exists_sum_map {l : List α} {k : ℕ} {a : α} (h : l[k]? = some a) :
    ∃ rest, (l.map f).sum = f a + rest ∧
      ∀ g : α → α, ((l.modify k g).map f).sum = f (g a) + rest := by
  induction l generalizing k with
  | nil => cases h
  | cons b l ih =>
    cases k with
    | zero =>
      obtain rfl := Option.some.inj h
      refine ⟨(l.map f).sum, List.sum_cons, fun g => ?_⟩
      rw [List.modify_zero_cons, List.map_cons, List.sum_cons]
    | succ k =>
      obtain ⟨rest, hrest, hmodify⟩ := ih h
      refine ⟨f b + rest, ?_, fun g => ?_⟩
      · rw [List.map_cons, List.sum_cons, hrest, add_left_comm]
      · rw [List.modify_succ_cons, List.map_cons, List.sum_cons, hmodify, add_left_comm]

theorem exists_sum_map_set {l : List α} {k : ℕ} {a : α} (h : l[k]? = some a) :
    ∃ rest, (l.map f).sum = f a + rest ∧ ∀ b, ((l.set k b).map f).sum = f b + rest := by
  obtain ⟨rest, hrest, hmodify⟩ := exists_sum_map f h
  refine ⟨rest, hrest, fun b => ?_⟩
  rw [List.set_eq_modify]
  exact hmodify fun _ => b

end Places

end Yalantinglibs.Numbering
