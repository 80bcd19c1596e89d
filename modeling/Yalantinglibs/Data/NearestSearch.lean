import Mathlib.Data.List.Basic
import Mathlib.Data.List.Pairwise
import Mathlib.Tactic.Common

/-!
# Search for the nearest position

The positions of an interval are gone through by their distance from one of them, the higher first
where two are equally far. The first position with a property is the nearest that has it.

## Main definitions

* `beside` — the positions at a distance
* `candidates` — the interval, by distance
* `Nearest` — a position with a property, such that no other is nearer

## Main results

* `mem_candidates` — all of the interval is gone through
* `find?_candidates_eq_some_iff` — what is found
-/

set_option autoImplicit false

namespace Yalantinglibs.NearestSearch

variable (lower upper pos : ℕ)

/-- The positions of the interval at a distance, the higher first. -/
def beside (delta : ℕ) : List ℕ :=
  (if pos + delta < upper then [pos + delta] else []) ++
    (if lower + delta ≤ pos then [pos - delta] else [])

/-- How far away the position is that is farthest, and one. -/
def limit : ℕ := max (upper - pos) (pos - lower + 1)

/-- The positions of the interval, by distance. -/
def candidates : List ℕ :=
  pos :: (List.range' 1 (limit lower upper pos - 1)).flatMap (beside lower upper pos)

/-- The distance of a position. -/
def dist (i : ℕ) : ℕ := (i - pos) + (pos - i)

/-- A position comes before another. -/
def Before (i j : ℕ) : Prop := dist pos i < dist pos j ∨ (dist pos i = dist pos j ∧ j < i)

/-- A position of the interval with a property that comes before all others. -/
structure Nearest (p : ℕ → Bool) (i : ℕ) : Prop where
  mem : lower ≤ i ∧ i < upper
  holds : p i = true
  before : ∀ j, lower ≤ j → j < upper → p j = true → j ≠ i → Before pos i j

variable {lower upper pos} {i j delta : ℕ} {p : ℕ → Bool}

theorem mem_beside : i ∈ beside lower upper pos delta ↔
    (i = pos + delta ∧ i < upper) ∨ (i + delta = pos ∧ lower ≤ i) := by
  rw [beside, List.mem_append]
  apply or_congr
  · split_ifs with h
    · rw [List.mem_singleton]
      exact (and_iff_left_of_imp fun hi => hi ▸ h).symm
    · refine iff_of_false List.not_mem_nil ?_
      rintro ⟨rfl, hi⟩
      exact h hi
  · split_ifs with h
    · rw [List.mem_singleton]
      omega
    · refine iff_of_false List.not_mem_nil ?_
      omega

theorem dist_of_mem_beside (h : i ∈ beside lower upper pos delta) : dist pos i = delta := by
  rw [dist]
  rcases mem_beside.mp h with ⟨hi, -⟩ | ⟨hi, -⟩ <;> omega

/-- All of the interval is gone through. -/
theorem mem_candidates (hpos : lower ≤ pos ∧ pos < upper) :
    i ∈ candidates lower upper pos ↔ lower ≤ i ∧ i < upper := by
  rw [candidates, List.mem_cons, List.mem_flatMap]
  constructor
  · rintro (rfl | ⟨delta, -, hi⟩)
    · exact hpos
    · rcases mem_beside.mp hi with ⟨rfl, hi⟩ | ⟨hi, hlow⟩ <;> omega
  · intro hi
    by_cases heq : i = pos
    · exact .inl heq
    refine .inr ⟨dist pos i, List.mem_range'_1.mpr ?_, mem_beside.mpr ?_⟩
    · unfold dist limit
      omega
    · unfold dist
      omega

theorem pairwise_beside : (beside lower upper pos (delta + 1)).Pairwise (Before pos) := by
  unfold beside
  split_ifs with hup hdown hdown
  · refine List.pairwise_pair.mpr (.inr ⟨?_, by omega⟩)
    unfold dist
    omega
  · exact List.pairwise_singleton _ _
  · exact List.pairwise_singleton _ _
  · exact .nil

theorem pairwise_candidates : (candidates lower upper pos).Pairwise (Before pos) := by
  refine List.pairwise_cons.mpr ⟨fun i hi => .inl ?_, List.pairwise_flatMap.mpr ⟨?_, ?_⟩⟩
  · obtain ⟨delta, hdelta, hi⟩ := List.mem_flatMap.mp hi
    have hone := (List.mem_range'_1.mp hdelta).1
    have hself : dist pos pos = 0 := by unfold dist; omega
    rw [dist_of_mem_beside hi, hself]
    exact hone
  · intro delta hdelta
    obtain ⟨d, rfl⟩ := Nat.exists_eq_add_of_le' (List.mem_range'_1.mp hdelta).1
    exact pairwise_beside
  · refine (List.pairwise_lt_range' 1).imp fun {a b} hab i hi j hj => .inl ?_
    rw [dist_of_mem_beside hi, dist_of_mem_beside hj]
    exact hab

theorem Before.asymm (h : Before pos i j) : ¬ Before pos j i := by
  unfold Before at *
  omega

theorem Nearest.unique (hi : Nearest lower upper pos p i) (hj : Nearest lower upper pos p j) :
    i = j := by
  by_contra hne
  have hij := hi.before j hj.mem.1 hj.mem.2 hj.holds (Ne.symm hne)
  exact hij.asymm (hj.before i hi.mem.1 hi.mem.2 hi.holds hne)

theorem nearest_of_find? (hpos : lower ≤ pos ∧ pos < upper)
    (h : (candidates lower upper pos).find? p = some i) : Nearest lower upper pos p i := by
  obtain ⟨hp, as, bs, hsplit, hbefore⟩ := List.find?_eq_some_iff_append.mp h
  have hpairwise : (candidates lower upper pos).Pairwise (Before pos) := pairwise_candidates
  have hmem : ∀ {j}, j ∈ as ++ i :: bs ↔ lower ≤ j ∧ j < upper := by
    intro j
    rw [← hsplit]
    exact mem_candidates hpos
  rw [hsplit] at hpairwise
  have hlater := (List.pairwise_cons.mp (List.pairwise_append.mp hpairwise).2.1).1
  refine ⟨hmem.mp (List.mem_append_right _ List.mem_cons_self), hp, fun j hlow hup hj hne => ?_⟩
  rcases List.mem_append.mp (hmem.mpr ⟨hlow, hup⟩) with hj' | hj'
  · have hfalse := hbefore j hj'
    rw [hj] at hfalse
    cases hfalse
  · exact hlater j ((List.mem_cons.mp hj').resolve_left hne)

/-- The first position with a property is the nearest one. -/
theorem find?_candidates_eq_some_iff (hpos : lower ≤ pos ∧ pos < upper) :
    (candidates lower upper pos).find? p = some i ↔ Nearest lower upper pos p i := by
  refine ⟨nearest_of_find? hpos, fun h => ?_⟩
  have hfound := List.find?_isSome.mpr ⟨i, (mem_candidates hpos).mpr h.mem, h.holds⟩
  obtain ⟨k, hk⟩ := Option.isSome_iff_exists.mp hfound
  rw [hk, (nearest_of_find? hpos hk).unique h]

theorem find?_candidates_eq_none_iff (hpos : lower ≤ pos ∧ pos < upper) :
    (candidates lower upper pos).find? p = none ↔
      ∀ i, lower ≤ i → i < upper → p i = false := by
  rw [List.find?_eq_none]
  constructor
  · intro h i hlow hup
    exact Bool.eq_false_iff.mpr (h i ((mem_candidates hpos).mpr ⟨hlow, hup⟩))
  · intro h i hi
    obtain ⟨hlow, hup⟩ := (mem_candidates hpos).mp hi
    rw [h i hlow hup]
    exact Bool.false_ne_true

end Yalantinglibs.NearestSearch
