import Mathlib.Data.List.TakeWhile
import Mathlib.Order.Lattice
import Mathlib.Tactic.Common

/-!
# Binary search

In a list whose first elements have a property that the others do not have, the number of the
former is found by halving an interval. Where the elements are in strict order and the property is
to be smaller than a target, that is the place of the target: where it is, or where it goes.

## Main definitions

* `searchLoop` — the loop of the search
* `place` — the place of a target

## Main results

* `searchLoop_append` — the number of elements with the property
* `place_eq`, `place_of_mem`, `pairwise_insertIdx` — the place of a target
-/

set_option autoImplicit false

namespace Yalantinglibs

namespace BinarySearch

variable {α κ : Type*} [LinearOrder κ]

/-- Halve the interval from `low` to `high`, as many rounds as there may be. -/
def searchLoop (as : List α) (p : α → Bool) : ℕ → ℕ → ℕ → ℕ
  | 0, low, _ => low
  | rounds + 1, low, high =>
    if low < high then
      let mid := low + (high - low) / 2
      if as[mid]?.any p then searchLoop as p rounds (mid + 1) high
      else searchLoop as p rounds low mid
    else low

/-- The search ends in its interval, whatever the list is. -/
theorem searchLoop_le {as : List α} {p : α → Bool} {rounds low high : ℕ} (h : low ≤ high) :
    searchLoop as p rounds low high ≤ high := by
  induction rounds generalizing low high with
  | zero => exact h
  | succ rounds ih =>
    rw [searchLoop]
    by_cases hlt : low < high
    · rw [if_pos hlt]
      dsimp only
      split
      · exact ih (by omega)
      · exact (ih (by omega)).trans (by omega)
    · rw [if_neg hlt]
      exact h

/-- The search keeps the border in its interval. -/
theorem searchLoop_eq {pre post : List α} {p : α → Bool} (hpre : ∀ a ∈ pre, p a)
    (hpost : ∀ a ∈ post, ¬ p a) {rounds low high : ℕ} (hlow : low ≤ pre.length)
    (hhigh : pre.length ≤ high) (hrounds : high - low ≤ rounds) :
    searchLoop (pre ++ post) p rounds low high = pre.length := by
  induction rounds generalizing low high with
  | zero =>
    rw [searchLoop]
    omega
  | succ rounds ih =>
    rw [searchLoop]
    by_cases hlt : low < high
    · rw [if_pos hlt]
      by_cases hmid : low + (high - low) / 2 < pre.length
      · have hp : ((pre ++ post)[low + (high - low) / 2]?).any p := by
          rw [List.getElem?_append_left hmid, List.getElem?_eq_getElem hmid, Option.any_some]
          exact hpre _ (List.getElem_mem hmid)
        rw [if_pos hp]
        exact ih (by omega) hhigh (by omega)
      · have hp : ¬ ((pre ++ post)[low + (high - low) / 2]?).any p := by
          rw [List.getElem?_append_right (Nat.le_of_not_lt hmid)]
          intro hany
          obtain ⟨a, ha, hpa⟩ := Option.any_eq_true _ _ |>.mp hany
          exact hpost a (List.mem_of_getElem? ha) hpa
        rw [if_neg hp]
        exact ih hlow (by omega) (by omega)
    · rw [if_neg hlt]
      omega

theorem searchLoop_append {pre post : List α} {p : α → Bool} (hpre : ∀ a ∈ pre, p a)
    (hpost : ∀ a ∈ post, ¬ p a) :
    searchLoop (pre ++ post) p (pre ++ post).length 0 (pre ++ post).length = pre.length := by
  apply searchLoop_eq hpre hpost (Nat.zero_le _)
  · rw [List.length_append]
    exact Nat.le_add_right _ _
  · exact Nat.sub_le _ _

theorem insertIdx_append (pre post : List α) (a : α) :
    (pre ++ post).insertIdx pre.length a = pre ++ a :: post := by
  induction pre with
  | nil => rfl
  | cons b pre ih => rw [List.cons_append, List.length_cons, List.insertIdx_succ_cons, ih,
      List.cons_append]

section Sorted

variable {key : α → κ} {as : List α} {target : α}

/-- The place of a target in a list in strict order. -/
def place (key : α → κ) (as : List α) (target : α) : ℕ :=
  searchLoop as (fun a => key a < key target) as.length 0 as.length

/-- A list in order is cut in two at the place of a target. -/
theorem place_eq (target : α) (hsorted : as.Pairwise fun a b => key a < key b) :
    ∃ pre post, as = pre ++ post ∧ place key as target = pre.length ∧
      (∀ a ∈ pre, key a < key target) ∧ ∀ a ∈ post, key target ≤ key a := by
  induction as with
  | nil => exact ⟨[], [], rfl, rfl, by simp, by simp⟩
  | cons a as ih =>
    obtain ⟨hall, hsorted⟩ := List.pairwise_cons.mp hsorted
    have hcut : ∃ pre post, a :: as = pre ++ post ∧
        (∀ a ∈ pre, key a < key target) ∧ ∀ a ∈ post, key target ≤ key a := by
      by_cases hlt : key a < key target
      · obtain ⟨pre, post, rfl, -, hpre, hpost⟩ := ih hsorted
        refine ⟨a :: pre, post, rfl, fun b hb => ?_, hpost⟩
        obtain rfl | hb := List.mem_cons.mp hb
        · exact hlt
        · exact hpre b hb
      · have hle : key target ≤ key a := le_of_not_gt hlt
        refine ⟨[], a :: as, rfl, by simp, fun b hb => ?_⟩
        obtain rfl | hb := List.mem_cons.mp hb
        · exact hle
        · exact le_of_lt (lt_of_le_of_lt hle (hall b hb))
    obtain ⟨pre, post, hcut, hpre, hpost⟩ := hcut
    refine ⟨pre, post, hcut, ?_, hpre, hpost⟩
    rw [hcut]
    apply searchLoop_append
    · exact fun b hb => decide_eq_true (hpre b hb)
    · exact fun b hb hlt => absurd (of_decide_eq_true hlt) (not_lt_of_ge (hpost b hb))

/-- A target that is in the list is at its place. -/
theorem place_of_mem (hsorted : as.Pairwise fun a b => key a < key b) (hmem : target ∈ as) :
    as[place key as target]? = some target := by
  obtain ⟨pre, post, rfl, hplace, hpre, hpost⟩ := place_eq target hsorted
  obtain hmem | hmem := List.mem_append.mp hmem
  · exact absurd (hpre target hmem) (lt_irrefl _)
  · cases post with
    | nil => cases hmem
    | cons a post =>
      rw [hplace, List.getElem?_append_right (le_refl _), Nat.sub_self, List.getElem?_cons_zero]
      obtain rfl | hmem := List.mem_cons.mp hmem
      · rfl
      · have hlt := (List.pairwise_cons.mp (List.pairwise_append.mp hsorted).2.1).1 target hmem
        exact absurd (hpost a (List.mem_cons_self ..)) (not_le_of_gt hlt)

/-- What goes to its place keeps the order. -/
theorem pairwise_insertIdx (hkey : Function.Injective key)
    (hsorted : as.Pairwise fun a b => key a < key b) (hmem : target ∉ as) :
    (as.insertIdx (place key as target) target).Pairwise fun a b => key a < key b := by
  obtain ⟨pre, post, rfl, hplace, hpre, hpost⟩ := place_eq target hsorted
  obtain ⟨hsorted_pre, hsorted_post, hacross⟩ := List.pairwise_append.mp hsorted
  rw [hplace, insertIdx_append, List.pairwise_append, List.pairwise_cons]
  refine ⟨hsorted_pre, ⟨fun b hb => ?_, hsorted_post⟩, fun a ha b hb => ?_⟩
  · apply lt_of_le_of_ne (hpost b hb)
    intro heq
    rw [hkey heq] at hmem
    exact hmem (List.mem_append_right _ hb)
  · obtain rfl | hb := List.mem_cons.mp hb
    · exact hpre a ha
    · exact hacross a ha b hb

end Sorted

end BinarySearch

end Yalantinglibs
