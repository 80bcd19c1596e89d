import Mathlib.Algebra.BigOperators.Group.List.Basic
import Mathlib.Algebra.BigOperators.Group.Finset.Piecewise
import Mathlib.Algebra.BigOperators.Ring.Finset
import Mathlib.Algebra.Order.BigOperators.Group.Finset
import Mathlib.Data.List.Count
import Mathlib.Tactic.Ring

/-!
# Rounds at falling levels

Members with weights are gone through round by round, each round with a level: a member takes part
in the rounds whose level its weight reaches. Where the levels are the multiples of a number, from
one of them down to the smallest, a member takes part as often as that number goes into its weight.

## Main definitions

* `round` — who takes part in a round
* `rounds` — the rounds, at levels from the `m`-th multiple of `g` down to the first
* `upperRounds` — the first of them, down to a level that is left out

## Main results

* `count_rounds`, `length_rounds` — how often a member takes part, and all of them together
* `length_upperRounds` — the same, for the rounds above a level
* `findIdx_rounds` — how many come before the first member with a property
-/

set_option autoImplicit false

namespace Yalantinglibs.LevelRounds

variable (w : ℕ → ℕ) (n g : ℕ)

/-- Those of the first `n` members whose weight reaches the level. -/
def round (level : ℕ) : List ℕ := (List.range n).filter fun i => level ≤ w i

/-- The rounds at the levels `g * m`, `g * (m - 1)`, ..., `g`. -/
def rounds : ℕ → List ℕ
  | 0 => []
  | m + 1 => round w n (g * (m + 1)) ++ rounds m

/-- The rounds at the levels `g * (a + m)`, ..., `g * (a + 1)`. -/
def upperRounds (a : ℕ) : ℕ → List ℕ
  | 0 => []
  | m + 1 => round w n (g * (a + m + 1)) ++ upperRounds a m

variable {w n g} {i m a : ℕ}

theorem mem_round {level : ℕ} : i ∈ round w n level ↔ i < n ∧ level ≤ w i := by
  rw [round, List.mem_filter, List.mem_range, decide_eq_true_iff]

theorem nodup_round (level : ℕ) : (round w n level).Nodup := List.nodup_range.filter _

theorem length_round_le (level : ℕ) : (round w n level).length ≤ n := by
  refine (List.length_filter_le _ _).trans ?_
  rw [List.length_range]

theorem rounds_add : rounds w n g (a + m) = upperRounds w n g a m ++ rounds w n g a := by
  induction m with
  | zero => rfl
  | succ m ih => rw [← Nat.add_assoc, rounds, upperRounds, ih, List.append_assoc]

theorem mem_rounds : i ∈ rounds w n g m ↔ i < n ∧ g ≤ w i ∧ 0 < m := by
  induction m with
  | zero => simp [rounds]
  | succ m ih =>
    rw [rounds, List.mem_append, mem_round, ih]
    constructor
    · rintro (⟨hi, hw⟩ | ⟨hi, hw, -⟩)
      · exact ⟨hi, (Nat.le_mul_of_pos_right g (Nat.succ_pos m)).trans hw, Nat.succ_pos m⟩
      · exact ⟨hi, hw, Nat.succ_pos m⟩
    · rintro ⟨hi, hw, -⟩
      cases m with
      | zero => exact .inl ⟨hi, by simpa using hw⟩
      | succ m => exact .inr ⟨hi, hw, Nat.succ_pos m⟩

/-- A member takes part in one more round where the level goes into its weight. -/
theorem min_div_succ (hg : 0 < g) :
    min (w i / g) (m + 1) = (if g * (m + 1) ≤ w i then 1 else 0) + min (w i / g) m := by
  have hlevel : g * (m + 1) ≤ w i ↔ m + 1 ≤ w i / g := by
    rw [Nat.le_div_iff_mul_le hg, Nat.mul_comm]
  by_cases h : g * (m + 1) ≤ w i
  · have hle := hlevel.mp h
    rw [if_pos h, min_eq_right hle, min_eq_right (Nat.le_of_succ_le hle), Nat.add_comm]
  · have hlt : w i / g ≤ m := Nat.not_lt.mp (mt hlevel.mpr h)
    rw [if_neg h, min_eq_left (Nat.le_succ_of_le hlt), min_eq_left hlt, Nat.zero_add]

theorem count_round (hi : i < n) (level : ℕ) :
    (round w n level).count i = if level ≤ w i then 1 else 0 := by
  by_cases h : level ≤ w i
  · rw [if_pos h]
    exact List.count_eq_one_of_mem (nodup_round level) (mem_round.mpr ⟨hi, h⟩)
  · rw [if_neg h]
    exact List.count_eq_zero_of_not_mem fun hmem => h (mem_round.mp hmem).2

/-- How often a member takes part. -/
theorem count_rounds (hg : 0 < g) (hi : i < n) (m : ℕ) :
    (rounds w n g m).count i = min (w i / g) m := by
  induction m with
  | zero => simp [rounds]
  | succ m ih => rw [rounds, List.count_append, count_round hi, ih, min_div_succ hg]

theorem length_round (level : ℕ) :
    (round w n level).length = ∑ i ∈ Finset.range n, if level ≤ w i then 1 else 0 := by
  rw [← Finset.card_filter]
  rfl

/-- How often the members take part, all together. -/
theorem length_rounds (hg : 0 < g) (m : ℕ) :
    (rounds w n g m).length = ∑ i ∈ Finset.range n, min (w i / g) m := by
  induction m with
  | zero => simp [rounds]
  | succ m ih =>
    rw [rounds, List.length_append, length_round, ih, ← Finset.sum_add_distrib]
    exact Finset.sum_congr rfl fun i _ => (min_div_succ hg).symm

theorem length_upperRounds (hg : 0 < g) (a m : ℕ) :
    (upperRounds w n g a m).length =
      ∑ i ∈ Finset.range n, (min (w i / g) (a + m) - min (w i / g) a) := by
  have hall := length_rounds (w := w) (n := n) hg (a + m)
  have hmono : ∀ i ∈ Finset.range n, min (w i / g) a ≤ min (w i / g) (a + m) :=
    fun i _ => min_le_min_left _ (Nat.le_add_right a m)
  rw [rounds_add, List.length_append, length_rounds hg] at hall
  rw [Finset.sum_tsub_distrib _ hmono, ← hall, Nat.add_sub_cancel]

/-- Above the weight of a member, it takes part in no round. -/
theorem notMem_upperRounds (h : w i < g * (a + 1)) : i ∉ upperRounds w n g a m := by
  induction m with
  | zero => exact List.not_mem_nil
  | succ m ih =>
    rw [upperRounds, List.mem_append, mem_round, not_or]
    refine ⟨fun hmem => ?_, ih⟩
    have hle : g * (a + 1) ≤ g * (a + m + 1) := Nat.mul_le_mul_left g (by omega)
    exact absurd (hle.trans hmem.2) (Nat.not_le.mpr h)

/-! ### The first member with a property -/

section First

variable {p : ℕ → Bool} {b : ℕ}

/-- Behind those of the first members that take part, the first member with the property. -/
theorem exists_round_eq (hb : b < n) {level : ℕ} (hw : level ≤ w b) :
    ∃ rest, round w n level = round w b level ++ b :: rest := by
  obtain ⟨d, rfl⟩ := Nat.exists_eq_add_of_lt hb
  refine ⟨((List.range d).map (b + 1 + ·)).filter fun i => level ≤ w i, ?_⟩
  have hlen : b + d + 1 = b + 1 + d := by omega
  rw [round, hlen, List.range_add, List.range_succ, List.filter_append, List.filter_append,
    List.append_assoc, List.filter_cons, if_pos (decide_eq_true hw)]
  rfl

theorem findIdx_round (hb : b < n) {level : ℕ} (hw : level ≤ w b) (hpb : p b = true)
    (hfirst : ∀ j < b, p j = true → w j < level) :
    (round w n level).findIdx p = (round w b level).length := by
  obtain ⟨rest, hrest⟩ := exists_round_eq hb hw
  have hnone : (round w b level).findIdx p = (round w b level).length := by
    refine List.findIdx_eq_length.mpr fun j hj => ?_
    obtain ⟨hjb, hjw⟩ := mem_round.mp hj
    by_contra hp
    exact absurd hjw (Nat.not_le.mpr (hfirst j hjb (Bool.not_eq_false _ ▸ hp)))
  rw [hrest, List.findIdx_append, hnone, if_neg (lt_irrefl _), List.findIdx_cons, hpb, cond_true,
    Nat.zero_add]

/-- A member with the property that takes part in the first round comes before the round ends. -/
theorem findIdx_rounds_lt (hb : b < n) (hpb : p b = true) (hw : g * (m + 1) ≤ w b)
    (rest : List ℕ) : (rounds w n g (m + 1) ++ rest).findIdx p < n := by
  have hlt : (round w n (g * (m + 1))).findIdx p < (round w n (g * (m + 1))).length :=
    List.findIdx_lt_length_of_exists ⟨b, mem_round.mpr ⟨hb, hw⟩, hpb⟩
  rw [rounds, List.append_assoc, List.findIdx_append, if_pos hlt]
  exact hlt.trans_le (length_round_le _)

/-- Where the levels start above the weights of the members with the property, the rounds down to
there come first. -/
theorem findIdx_rounds (hg : 0 < g) (ha : 0 < a) (hb : b < n) (hpb : p b = true)
    (hw : w b = g * a) (htop : ∀ j < n, p j = true → w j ≤ g * a)
    (hfirst : ∀ j < b, p j = true → w j < g * a) (m : ℕ) (rest : List ℕ) :
    (rounds w n g (a + m) ++ rest).findIdx p =
      ∑ i ∈ Finset.range n, (min (w i / g) (a + m) - min (w i / g) a) +
        (round w b (g * a)).length := by
  have hupper : (upperRounds w n g a m).findIdx p = (upperRounds w n g a m).length := by
    refine List.findIdx_eq_length.mpr fun j hj => ?_
    by_contra hp
    have hjn : j < n := by
      have hmem : j ∈ rounds w n g (a + m) := by
        rw [rounds_add]
        exact List.mem_append_left _ hj
      exact (mem_rounds.mp hmem).1
    have hle := htop j hjn (Bool.not_eq_false _ ▸ hp)
    have hlt : g * a < g * (a + 1) := Nat.mul_lt_mul_of_pos_left (Nat.lt_succ_self a) hg
    exact notMem_upperRounds (hle.trans_lt hlt) hj
  have hround := findIdx_round hb hw.ge hpb hfirst
  have hmem : (round w n (g * a)).findIdx p < (round w n (g * a)).length :=
    List.findIdx_lt_length_of_exists ⟨b, mem_round.mpr ⟨hb, hw.ge⟩, hpb⟩
  obtain ⟨a, rfl⟩ := Nat.exists_eq_succ_of_ne_zero ha.ne'
  rw [rounds_add, List.append_assoc, List.findIdx_append, hupper, if_neg (lt_irrefl _), rounds,
    List.append_assoc, List.findIdx_append, if_pos hmem, hround, length_upperRounds hg,
    Nat.add_comm]

end First

end Yalantinglibs.LevelRounds
