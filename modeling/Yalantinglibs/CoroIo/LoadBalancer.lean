import Mathlib.Algebra.BigOperators.Fin
import Mathlib.Algebra.GCDMonoid.Multiset
import Mathlib.Algebra.GCDMonoid.Nat
import Mathlib.Algebra.Order.Ring.Int
import Mathlib.Data.List.GetD
import Mathlib.Data.Nat.Cast.Order.Ring
import Yalantinglibs.Data.DrawLoop
import Yalantinglibs.Data.LevelRounds

/-!
# Weighted round robin

`coro_io/load_balancer.hpp`, `WRRLoadbalancer`. The hosts are gone through again and again, each
time with a threshold that is lower by the greatest common divisor of the weights, until it is set
to the largest weight again. A host is selected where its weight reaches the threshold.

## Main definitions

* `WRRLoadbalancer`, `WRRLoadbalancer.selectBody` — the scheduler, and the body of the loop of
  `select_host_with_weight_round_robin`
* `Selects` — the hosts that are selected one after the other

## Main results

* `selects_block` — the selections of one cycle are the rounds at the thresholds
* `exists_block` — each host is selected in proportion to its weight
-/

set_option autoImplicit false

namespace Yalantinglibs.CoroIo

open StepLoop LevelRounds

/-- `WRRLoadbalancer`. The members are `int`s: a position fits one as long as there are fewer than
`2 ^ 31` hosts, and a weight because it is given as one. -/
structure WRRLoadbalancer where
  weights : List ℤ
  maxGcd : ℤ
  maxWeight : ℤ
  wrrCurrent : ℤ
  weightCurrent : ℤ

namespace WRRLoadbalancer

def getMaxWeightGcd (weights : List ℤ) : ℤ :=
  weights.foldl (fun res weight => (Int.gcd (max res weight) (min res weight) : ℤ))
    (weights.headD 0)

/-- `max_element`, of the weights. -/
def getMaxWeight (weights : List ℤ) : ℤ := weights.foldl max (weights.headD 0)

/-- The constructor. -/
def create (weights : List ℤ) : WRRLoadbalancer where
  weights := weights
  maxGcd := getMaxWeightGcd weights
  maxWeight := getMaxWeight weights
  wrrCurrent := -1
  weightCurrent := 0

/-- The end of the body: the host is selected, or the loop goes on. -/
def visit (lb : WRRLoadbalancer) : WRRLoadbalancer ⊕ (ℤ × WRRLoadbalancer) :=
  if lb.weightCurrent ≤ lb.weights.getD lb.wrrCurrent.toNat 0 then .inr (lb.wrrCurrent, lb)
  else .inl lb

/-- The body of the loop of `select_host_with_weight_round_robin`. -/
def selectBody (lb : WRRLoadbalancer) : WRRLoadbalancer ⊕ (ℤ × WRRLoadbalancer) :=
  let lb := { lb with wrrCurrent := (lb.wrrCurrent + 1) % lb.weights.length }
  if lb.wrrCurrent = 0 then
    let lb := { lb with weightCurrent := lb.weightCurrent - lb.maxGcd }
    if lb.weightCurrent ≤ 0 then
      let lb := { lb with weightCurrent := lb.maxWeight }
      if lb.weightCurrent = 0 then .inr (-1, lb) else lb.visit
    else lb.visit
  else lb.visit

/-- Calls of `select_host_with_weight_round_robin`, one after the other. -/
abbrev Selects : WRRLoadbalancer → List ℤ → WRRLoadbalancer → Prop := Draws selectBody

/-! ### The divisor and the threshold -/

theorem foldl_gcd (ws : List ℕ) (res : ℕ) :
    (ws.map Nat.cast).foldl (fun res weight => (Int.gcd (max res weight) (min res weight) : ℤ)) res
      = (ws.foldl Nat.gcd res : ℕ) := by
  induction ws generalizing res with
  | nil => rfl
  | cons w ws ih =>
    have hgcd : Int.gcd (max (res : ℤ) w) (min (res : ℤ) w) = Nat.gcd res w := by
      rcases le_total res w with h | h
      · rw [max_eq_right (Int.ofNat_le.mpr h), min_eq_left (Int.ofNat_le.mpr h), Int.gcd_comm]
        rfl
      · rw [max_eq_left (Int.ofNat_le.mpr h), min_eq_right (Int.ofNat_le.mpr h)]
        rfl
    rw [List.map_cons, List.foldl_cons, List.foldl_cons, hgcd, ih]

theorem foldl_max (ws : List ℕ) (top : ℕ) :
    (ws.map Nat.cast).foldl max (top : ℤ) = (ws.foldl max top : ℕ) := by
  induction ws generalizing top with
  | nil => rfl
  | cons w ws ih => rw [List.map_cons, List.foldl_cons, List.foldl_cons, ← Nat.cast_max, ih]

theorem dvd_foldl_gcd {d : ℕ} (ws : List ℕ) (res : ℕ) :
    d ∣ ws.foldl Nat.gcd res ↔ d ∣ res ∧ ∀ w ∈ ws, d ∣ w := by
  induction ws generalizing res with
  | nil => simp
  | cons w ws ih => rw [List.foldl_cons, ih, Nat.dvd_gcd_iff, List.forall_mem_cons, and_assoc]

theorem foldl_max_le_iff {b : ℕ} (ws : List ℕ) (top : ℕ) :
    ws.foldl max top ≤ b ↔ top ≤ b ∧ ∀ w ∈ ws, w ≤ b := by
  induction ws generalizing top with
  | nil => simp
  | cons w ws ih => rw [List.foldl_cons, ih, Nat.max_le, List.forall_mem_cons, and_assoc]

theorem foldl_max_mem (ws : List ℕ) (top : ℕ) : ws.foldl max top ∈ top :: ws := by
  induction ws generalizing top with
  | nil => exact List.mem_cons_self
  | cons w ws ih =>
    rw [List.foldl_cons]
    rcases List.mem_cons.mp (ih (max top w)) with h | h
    · rw [h]
      rcases max_choice top w with hmax | hmax
      · rw [hmax]
        exact List.mem_cons_self
      · rw [hmax]
        exact List.mem_cons_of_mem _ List.mem_cons_self
    · exact List.mem_cons_of_mem _ (List.mem_cons_of_mem _ h)

/-- The divisor and the largest of some weights, the latter as a multiple of the former. -/
structure Levels (ws : List ℕ) (g m : ℕ) : Prop where
  gcd_eq : getMaxWeightGcd (ws.map Nat.cast) = g
  max_eq : getMaxWeight (ws.map Nat.cast) = (g * m : ℕ)
  gcd_pos : 0 < g
  top_pos : 0 < m
  dvd_gcd_iff : ∀ d, d ∣ g ↔ ∀ w ∈ ws, d ∣ w
  le : ∀ w ∈ ws, w ≤ g * m
  mem : g * m ∈ ws

theorem exists_levels {ws : List ℕ} (hpos : ∃ w ∈ ws, 0 < w) : ∃ g m, Levels ws g m := by
  obtain ⟨w, hw, hw0⟩ := hpos
  cases ws with
  | nil => cases hw
  | cons first ws =>
    have hgcd : getMaxWeightGcd ((first :: ws).map Nat.cast) =
        ((first :: ws).foldl Nat.gcd first : ℕ) := foldl_gcd (first :: ws) first
    have hmax : getMaxWeight ((first :: ws).map Nat.cast) =
        ((first :: ws).foldl max first : ℕ) := foldl_max (first :: ws) first
    have hdvd : ∀ d, d ∣ (first :: ws).foldl Nat.gcd first ↔ ∀ w ∈ first :: ws, d ∣ w := by
      intro d
      rw [dvd_foldl_gcd]
      exact and_iff_right_of_imp fun h => h first List.mem_cons_self
    have hle := ((foldl_max_le_iff (first :: ws) first).mp le_rfl).2
    have hmem : (first :: ws).foldl max first ∈ first :: ws := by
      have := foldl_max_mem (first :: ws) first
      simpa using this
    generalize (first :: ws).foldl Nat.gcd first = g at hgcd hdvd
    generalize (first :: ws).foldl max first = top at hmax hle hmem
    obtain ⟨m, rfl⟩ := (hdvd g).mp dvd_rfl top hmem
    refine ⟨g, m, hgcd, hmax, Nat.pos_of_ne_zero ?_, Nat.pos_of_ne_zero ?_, hdvd, hle, hmem⟩
    · rintro rfl
      exact hw0.ne' (Nat.eq_zero_of_zero_dvd ((hdvd 0).mp dvd_rfl w hw))
    · rintro rfl
      exact absurd (hle w hw) (Nat.not_le.mpr hw0)

/-! ### The selections of a cycle -/

/-- The weights, by the hosts. -/
def weightOf (ws : List ℕ) (i : ℕ) : ℕ := ws.getD i 0

/-- A state between two rounds of the loop: the host that was visited last, and the threshold as a
multiple of the divisor. -/
def stateAt (ws : List ℕ) (g : ℕ) (i k : ℕ) : WRRLoadbalancer :=
  { create (ws.map Nat.cast) with wrrCurrent := i, weightCurrent := (g * k : ℕ) }

variable {ws : List ℕ} {g m : ℕ}

theorem visit_at (i k : ℕ) : (stateAt ws g i k).visit =
    if g * k ≤ weightOf ws i then .inr ((i : ℤ), stateAt ws g i k)
    else .inl (stateAt ws g i k) := by
  have hweight : (ws.map Nat.cast).getD i (0 : ℤ) = (weightOf ws i : ℕ) := by
    rw [← Nat.cast_zero, List.getD_map, weightOf]
  have hle : ((g * k : ℕ) : ℤ) ≤ (weightOf ws i : ℕ) ↔ g * k ≤ weightOf ws i := Int.ofNat_le
  rw [visit]
  simp only [stateAt, create, Int.toNat_natCast, hweight, hle]

/-- In front of the last host, the loop goes on to the next. -/
theorem selectBody_at_of_lt {i : ℕ} (hi : i + 1 < ws.length) (k : ℕ) :
    (stateAt ws g i k).selectBody = (stateAt ws g (i + 1) k).visit := by
  have hcurrent : ((i : ℤ) + 1) % ((ws.map Nat.cast : List ℤ).length : ℕ) = (i + 1 : ℕ) := by
    rw [List.length_map]
    exact_mod_cast Nat.mod_eq_of_lt hi
  have hne : ((i + 1 : ℕ) : ℤ) ≠ 0 := by omega
  rw [selectBody]
  simp only [stateAt, create, hcurrent]
  rw [if_neg hne]

theorem wrap_eq {ws : List ℕ} {i : ℤ} (hi : (i + 1) % (ws.length : ℤ) = 0) (cw : ℤ) :
    selectBody { create (ws.map Nat.cast) with wrrCurrent := i, weightCurrent := cw } =
      if cw - getMaxWeightGcd (ws.map Nat.cast) ≤ 0 then
        if getMaxWeight (ws.map Nat.cast) = 0 then
          .inr (-1, { create (ws.map Nat.cast) with
            wrrCurrent := 0, weightCurrent := getMaxWeight (ws.map Nat.cast) })
        else visit { create (ws.map Nat.cast) with
          wrrCurrent := 0, weightCurrent := getMaxWeight (ws.map Nat.cast) }
      else visit { create (ws.map Nat.cast) with
        wrrCurrent := 0, weightCurrent := cw - getMaxWeightGcd (ws.map Nat.cast) } := by
  rw [selectBody]
  simp only [create, List.length_map, hi, if_true]

/-- Behind the last host, the first is next, at the threshold below. -/
theorem selectBody_last (h : Levels ws g m) {i : ℕ} (hi : i + 1 = ws.length) {k : ℕ} (hk : 0 < k) :
    (stateAt ws g i (k + 1)).selectBody = (stateAt ws g 0 k).visit := by
  have hmod : ((i : ℤ) + 1) % (ws.length : ℤ) = 0 := by
    rw [← hi]
    exact Int.emod_self
  have hlevel : ((g * (k + 1) : ℕ) : ℤ) - g = (g * k : ℕ) := by
    rw [Nat.mul_succ, Nat.cast_add, Int.add_sub_cancel]
  have hpos : 0 < g * k := Nat.mul_pos h.gcd_pos hk
  rw [stateAt, wrap_eq hmod, h.gcd_eq, hlevel, if_neg (by omega)]
  rfl

/-- Behind the last host of the lowest threshold, and at the start, the first is next, at the
highest threshold. -/
theorem wrap_top (h : Levels ws g m) {i cw : ℤ} (hi : (i + 1) % (ws.length : ℤ) = 0)
    (hcw : cw ≤ g) :
    selectBody { create (ws.map Nat.cast) with wrrCurrent := i, weightCurrent := cw } =
      (stateAt ws g 0 m).visit := by
  have htop : 0 < g * m := Nat.mul_pos h.gcd_pos h.top_pos
  rw [wrap_eq hi, h.gcd_eq, h.max_eq, if_pos (by omega), if_neg (by omega)]
  rfl

theorem selectBody_create (h : Levels ws g m) :
    (create (ws.map Nat.cast)).selectBody = (stateAt ws g 0 m).visit := by
  have hzero : ((-1 : ℤ) + 1) % (ws.length : ℤ) = 0 := Int.zero_emod _
  exact wrap_top h hzero (Int.natCast_nonneg g)

theorem selectBody_lowest (h : Levels ws g m) {i : ℕ} (hi : i + 1 = ws.length) :
    (stateAt ws g i 1).selectBody = (stateAt ws g 0 m).visit := by
  have hmod : ((i : ℤ) + 1) % (ws.length : ℤ) = 0 := by
    rw [← hi]
    exact Int.emod_self
  exact wrap_top h hmod (by rw [Nat.mul_one])

/-- From a host on, the others up to the last are visited. -/
theorem passes_visit {s : WRRLoadbalancer} {i k : ℕ} (hi : i < ws.length)
    (hs : s.selectBody = (stateAt ws g i k).visit) :
    Passes selectBody s
      (((List.range' i (ws.length - i)).filter fun j => g * k ≤ weightOf ws j).map Nat.cast)
      (stateAt ws g (ws.length - 1) k) := by
  generalize hd : ws.length - i = d
  induction d generalizing s i with
  | zero => omega
  | succ d ih =>
    rw [visit_at] at hs
    have hrest : Passes selectBody (stateAt ws g i k)
        (((List.range' (i + 1) d).filter fun j => g * k ≤ weightOf ws j).map Nat.cast)
        (stateAt ws g (ws.length - 1) k) := by
      by_cases hlast : i + 1 < ws.length
      · exact ih hlast (selectBody_at_of_lt hlast k) (by omega)
      · obtain rfl : d = 0 := by omega
        obtain rfl : i = ws.length - 1 := by omega
        exact .refl _
    rw [List.range'_succ]
    by_cases hle : g * k ≤ weightOf ws i
    · rw [if_pos hle] at hs
      rw [List.filter_cons, if_pos (decide_eq_true hle), List.map_cons]
      exact .draw hs hrest
    · rw [if_neg hle] at hs
      rw [List.filter_cons, if_neg (by simpa using hle)]
      exact .next hs hrest

/-- The hosts are gone through once. -/
theorem passes_round {s : WRRLoadbalancer} {k : ℕ} (hws : ws ≠ [])
    (hs : s.selectBody = (stateAt ws g 0 k).visit) :
    Passes selectBody s ((round (weightOf ws) ws.length (g * k)).map Nat.cast)
      (stateAt ws g (ws.length - 1) k) := by
  have hpasses := passes_visit (List.length_pos_of_ne_nil hws) hs
  rwa [Nat.sub_zero, ← List.range_eq_range'] at hpasses

/-- The hosts are gone through at the thresholds that are left. -/
theorem passes_rounds (h : Levels ws g m) (hws : ws ≠ []) (k : ℕ) :
    Passes selectBody (stateAt ws g (ws.length - 1) (k + 1))
      ((rounds (weightOf ws) ws.length g k).map Nat.cast) (stateAt ws g (ws.length - 1) 1) := by
  have hlen := List.length_pos_of_ne_nil hws
  induction k with
  | zero => exact .refl _
  | succ k ih =>
    rw [rounds, List.map_append]
    exact (passes_round hws (selectBody_last h (by omega) (Nat.succ_pos k))).append ih

/-- A cycle: the hosts are gone through at all thresholds. -/
theorem passes_block (h : Levels ws g m) {s : WRRLoadbalancer}
    (hs : s.selectBody = (stateAt ws g 0 m).visit) :
    Passes selectBody s ((rounds (weightOf ws) ws.length g m).map Nat.cast)
      (stateAt ws g (ws.length - 1) 1) := by
  have hws : ws ≠ [] := List.ne_nil_of_mem h.mem
  obtain ⟨m, rfl⟩ := Nat.exists_eq_succ_of_ne_zero h.top_pos.ne'
  rw [rounds, List.map_append]
  exact (passes_round hws hs).append (passes_rounds h hws m)

/-- The hosts that are selected in a cycle. -/
def block (ws : List ℕ) (g m : ℕ) : List ℤ := (rounds (weightOf ws) ws.length g m).map Nat.cast

theorem weightOf_of_lt {i : ℕ} (hi : i < ws.length) : weightOf ws i = ws[i] :=
  List.getD_eq_getElem ws 0 hi

theorem Levels.weightOf_div_le (h : Levels ws g m) (i : ℕ) : weightOf ws i / g ≤ m := by
  have hle : weightOf ws i ≤ g * m := by
    by_cases hi : i < ws.length
    · rw [weightOf_of_lt hi]
      exact h.le _ (List.getElem_mem hi)
    · rw [weightOf, List.getD_eq_default _ _ (Nat.not_lt.mp hi)]
      exact Nat.zero_le _
  calc weightOf ws i / g ≤ g * m / g := Nat.div_le_div_right hle
    _ = m := Nat.mul_div_cancel_left m h.gcd_pos

theorem count_block (h : Levels ws g m) {i : ℕ} (hi : i < ws.length) :
    (block ws g m).count (i : ℤ) = ws[i] / g := by
  rw [block, List.count_map_of_injective _ _ Nat.cast_injective, count_rounds h.gcd_pos hi,
    min_eq_left (h.weightOf_div_le i), weightOf_of_lt hi]

theorem sum_eq_sum_weightOf (ws : List ℕ) :
    ws.sum = ∑ i ∈ Finset.range ws.length, weightOf ws i := by
  rw [Finset.sum_range, ← Fin.sum_univ_getElem]
  exact Finset.sum_congr rfl fun i _ => (weightOf_of_lt i.isLt).symm

theorem length_block (h : Levels ws g m) : (block ws g m).length = ws.sum / g := by
  rw [block, List.length_map, length_rounds h.gcd_pos, sum_eq_sum_weightOf]
  have hdvd : ∀ i ∈ Finset.range ws.length, g ∣ weightOf ws i := by
    intro i hi
    rw [weightOf_of_lt (Finset.mem_range.mp hi)]
    exact (h.dvd_gcd_iff g).mp dvd_rfl _ (List.getElem_mem _)
  rw [Nat.sum_div hdvd]
  exact Finset.sum_congr rfl fun i _ => min_eq_left (h.weightOf_div_le i)

theorem block_ne_nil (h : Levels ws g m) : block ws g m ≠ [] := by
  obtain ⟨i, hi, hw⟩ := List.mem_iff_getElem.mp h.mem
  have hmem : i ∈ rounds (weightOf ws) ws.length g m := by
    refine mem_rounds.mpr ⟨hi, ?_, h.top_pos⟩
    rw [weightOf_of_lt hi, hw]
    exact Nat.le_mul_of_pos_right g h.top_pos
  exact List.ne_nil_of_mem (List.mem_map_of_mem hmem)

/-- The calls of a cycle, from a state in which the first host is next, at the highest threshold. -/
theorem exists_selects_block (h : Levels ws g m) :
    ∃ last, (∀ s : WRRLoadbalancer, s.selectBody = (stateAt ws g 0 m).visit →
      Selects s (block ws g m) last) ∧
      Passes selectBody last [] (stateAt ws g (ws.length - 1) 1) := by
  have hlen := List.length_pos_of_ne_nil (List.ne_nil_of_mem h.mem)
  have hlowest := selectBody_lowest h (i := ws.length - 1) (by omega)
  obtain ⟨last, hlast, hsilent⟩ := (passes_block h hlowest).exists_draws
  refine ⟨last, fun s hs => ?_, hsilent⟩
  -- the first round is the same from both states
  cases hblock : block ws g m with
  | nil => exact absurd hblock (block_ne_nil h)
  | cons r rs =>
    rw [← block, hblock] at hlast
    obtain ⟨t, hfirst, hrest⟩ := draws_cons_iff.mp hlast
    refine .cons ?_ hrest
    obtain ⟨n, hn⟩ := hfirst
    refine ⟨n, ?_⟩
    cases n with
    | zero => cases hn
    | succ n =>
      rw [run, hlowest] at hn
      rw [run, hs]
      exact hn

/-- The selections from the start: one cycle after the other, and the state behind each is the one
from which the next repeats it. -/
theorem exists_last (h : Levels ws g m) :
    ∃ last, (∀ k, Selects (create (ws.map Nat.cast))
      (List.replicate (k + 1) (block ws g m)).flatten last) ∧
      Selects last (block ws g m) last := by
  have hlen := List.length_pos_of_ne_nil (List.ne_nil_of_mem h.mem)
  obtain ⟨last, hselects, hsilent⟩ := exists_selects_block h
  have hagain : Selects last (block ws g m) last := by
    have hblock := hselects _ (selectBody_lowest h (i := ws.length - 1) (by omega))
    cases hcycle : block ws g m with
    | nil => exact absurd hcycle (block_ne_nil h)
    | cons r rs =>
      rw [hcycle] at hblock
      exact hsilent.draws hblock
  refine ⟨last, fun k => ?_, hagain⟩
  induction k with
  | zero =>
    rw [List.replicate_one, List.flatten_singleton]
    exact hselects _ (selectBody_create h)
  | succ k ih =>
    rw [List.replicate_succ', List.flatten_append, List.flatten_singleton]
    exact ih.append hagain

theorem Levels.gcd_eq_multiset_gcd (h : Levels ws g m) :
    Multiset.gcd (ws.map Nat.cast : List ℤ) = (g : ℤ) := by
  have hdvd : ∀ d : ℤ, d ∣ Multiset.gcd (ws.map Nat.cast : List ℤ) ↔ d ∣ (g : ℤ) := by
    intro d
    rw [Multiset.dvd_gcd, ← Int.natAbs_dvd_natAbs, Int.natAbs_natCast, h.dvd_gcd_iff]
    simp only [Multiset.mem_coe, List.mem_map, forall_exists_index, and_imp,
      forall_apply_eq_imp_iff₂, ← Int.natAbs_dvd_natAbs, Int.natAbs_natCast]
  have hassoc := associated_of_dvd_dvd ((hdvd _).mp dvd_rfl) ((hdvd _).mpr dvd_rfl)
  have hnorm := hassoc.eq_of_normalized (Multiset.normalize_gcd _)
    (Int.normalize_of_nonneg (Int.natCast_nonneg g))
  exact hnorm

/-- Each host is selected in proportion to its weight, in every block of a cycle's length. -/
theorem selects_proportional (weights : List ℤ) (hnonneg : ∀ weight ∈ weights, 0 ≤ weight)
    (hpos : ∃ weight ∈ weights, 0 < weight) :
    ∃ (hosts : List ℤ) (last : WRRLoadbalancer),
      (hosts.length : ℤ) = weights.sum / Multiset.gcd weights ∧
      (∀ (i : ℕ) (hi : i < weights.length),
        (hosts.count (i : ℤ) : ℤ) = weights[i] / Multiset.gcd weights) ∧
      (∀ k, Selects (create weights) (List.replicate (k + 1) hosts).flatten last) ∧
      Selects last hosts last := by
  obtain ⟨ws, rfl⟩ : ∃ ws : List ℕ, ws.map Nat.cast = weights := CanLift.prf weights hnonneg
  have hpos' : ∃ w ∈ ws, 0 < w := by
    obtain ⟨weight, hmem, h⟩ := hpos
    obtain ⟨w, hw, rfl⟩ := List.mem_map.mp hmem
    exact ⟨w, hw, Int.natCast_pos.mp h⟩
  obtain ⟨g, m, hlevels⟩ := exists_levels hpos'
  obtain ⟨last, hselects, hagain⟩ := exists_last hlevels
  refine ⟨block ws g m, last, ?_, fun i hi => ?_, hselects, hagain⟩
  · rw [hlevels.gcd_eq_multiset_gcd, length_block hlevels, Int.natCast_ediv, Nat.cast_list_sum]
  · rw [List.length_map] at hi
    rw [hlevels.gcd_eq_multiset_gcd, count_block hlevels hi, Int.natCast_ediv, List.getElem_map]

theorem selects_proportional_three : ∃ (hosts : List ℤ) (last : WRRLoadbalancer),
    (hosts.length : ℤ) = [4, 0, 2].sum / Multiset.gcd ([4, 0, 2] : List ℤ) ∧
    (∀ (i : ℕ) (hi : i < [4, 0, 2].length),
      (hosts.count (i : ℤ) : ℤ) = [4, 0, 2][i] / Multiset.gcd ([4, 0, 2] : List ℤ)) ∧
    (∀ k, Selects (create [4, 0, 2]) (List.replicate (k + 1) hosts).flatten last) ∧
    Selects last hosts last :=
  selects_proportional [4, 0, 2] (by decide) (by decide)

end WRRLoadbalancer

end Yalantinglibs.CoroIo
