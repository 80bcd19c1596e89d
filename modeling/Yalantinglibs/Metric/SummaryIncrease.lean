import Mathlib.Algebra.BigOperators.Group.Finset.Basic
import Yalantinglibs.Data.NearestSearch
import Yalantinglibs.Metric.Summary

/-!
# Full counters of a summary

`increase` of `metric/summary_impl.hpp`, for counters of 32 bits. A counter that is full is
increased and decreased again, and the counters of the same sign are tried by their distance. Each
access is kept here, with what it finds and what it leaves.

## Main definitions

* `Counters`, `Counters.fetchAdd`, `Counters.fetchSub` — the counters, and the accesses to them
* `Counters.increase` — an observation is counted
* `Data.target` — the counter that is increased in the end

## Main results

* `increase_counts` — the nearest counter that is not full is increased, and no access wraps
* `increase_eq_target`, `count_increase_eq` — the same for the counters of a slot
-/

set_option autoImplicit false

namespace Yalantinglibs.Metric.Summary

open NearestSearch

/-! ### Accesses -/

/-- What an access finds in a counter, and what it leaves there. -/
structure Access where
  index : ℕ
  old : UInt32
  new : UInt32

structure Counters where
  value : ℕ → UInt32
  log : List Access

namespace Counters

variable (c : Counters) (i : ℕ)

/-- The old value is returned. -/
def fetchAdd : UInt32 × Counters :=
  (c.value i, ⟨Function.update c.value i (c.value i + 1),
    c.log ++ [⟨i, c.value i, c.value i + 1⟩]⟩)

def fetchSub : UInt32 × Counters :=
  (c.value i, ⟨Function.update c.value i (c.value i - 1),
    c.log ++ [⟨i, c.value i, c.value i - 1⟩]⟩)

/-- A counter beside the one that is full. -/
def tryAdd : Bool × Counters :=
  let (res, c) := c.fetchAdd i
  if res.toNat ≤ nearUint32Max then (true, c) else (false, (c.fetchSub i).2)

/-- The loop of `increase`, for the distances that are left. -/
def spill (c : Counters) (pos upper lower : ℕ) : List ℕ → Counters
  | [] => c
  | delta :: rest =>
    let (stop, c) := if pos + delta < upper then c.tryAdd (pos + delta) else (false, c)
    if stop then c
    else
      let (stop, c) := if lower + delta ≤ pos then c.tryAdd (pos - delta) else (false, c)
      if stop then c else c.spill pos upper lower rest

def increase (pos : ℕ) : Counters :=
  let (res, c) := c.fetchAdd pos
  if nearUint32Max < res.toNat then
    let (_, c) := c.fetchSub pos
    let upper := if pos < bucketSize / 2 then bucketSize / 2 else bucketSize
    let lower := if pos < bucketSize / 2 then 0 else bucketSize / 2
    c.spill pos upper lower (List.range' 1 (max (upper - pos) (pos - lower + 1) - 1))
  else c

end Counters

/-- The half of the codes that a code is in, those with one sign. -/
def lowerOf (pos : ℕ) : ℕ := if pos < bucketSize / 2 then 0 else bucketSize / 2

def upperOf (pos : ℕ) : ℕ := if pos < bucketSize / 2 then bucketSize / 2 else bucketSize

theorem half_of_lt {pos : ℕ} (h : pos < bucketSize) : lowerOf pos ≤ pos ∧ pos < upperOf pos := by
  have hsize : bucketSize = 16384 := rfl
  unfold lowerOf upperOf
  rw [hsize] at h ⊢
  split_ifs with hlow <;> omega

theorem upperOf_le (pos : ℕ) : upperOf pos ≤ bucketSize := by
  unfold upperOf
  split_ifs
  · exact Nat.div_le_self _ _
  · exact le_rfl

/-! ### The search -/

/-- An access that is to a counter of the half, and does not wrap. -/
def Access.Sound (lower upper : ℕ) (a : Access) : Prop :=
  (lower ≤ a.index ∧ a.index < upper) ∧
    (a.new.toNat = a.old.toNat + 1 ∨ a.new.toNat + 1 = a.old.toNat)

/-- The counters that `c` becomes where a search ends at a counter, or at none. -/
structure EndsAt (lower upper : ℕ) (c : Counters) (found : Option ℕ) (c' : Counters) : Prop where
  value_eq : c'.value = match found with
    | none => c.value
    | some i => Function.update c.value i (c.value i + 1)
  sound : ∃ accesses, c'.log = c.log ++ accesses ∧ ∀ a ∈ accesses, a.Sound lower upper

variable {c c' : Counters} {lower upper pos i : ℕ} {found : Option ℕ}

/-- Nothing is done. -/
theorem EndsAt.refl (lower upper : ℕ) (c : Counters) : EndsAt lower upper c none c :=
  ⟨rfl, [], (List.append_nil _).symm, fun _ h => absurd h List.not_mem_nil⟩

/-- A search goes on behind one that found nothing. -/
theorem EndsAt.trans {c₁ : Counters} (h : EndsAt lower upper c none c₁)
    (h' : EndsAt lower upper c₁ found c') : EndsAt lower upper c found c' := by
  obtain ⟨hvalue, accesses, hlog, hsound⟩ := h
  obtain ⟨hvalue', accesses', hlog', hsound'⟩ := h'
  refine ⟨?_, accesses ++ accesses', ?_, fun a ha => ?_⟩
  · rw [hvalue', hvalue]
  · rw [hlog', hlog, List.append_assoc]
  · rcases List.mem_append.mp ha with ha | ha
    · exact hsound a ha
    · exact hsound' a ha

theorem toNat_succ {v : UInt32} (h : v.toNat ≤ nearUint32Max + 1) :
    (v + 1).toNat = v.toNat + 1 := by
  have hmax : nearUint32Max + 2 < 2 ^ 32 := by decide
  rw [UInt32.toNat_add, UInt32.toNat_one, Nat.mod_eq_of_lt (by omega)]

theorem endsAt_fetchAdd (hi : lower ≤ i ∧ i < upper) (h : (c.value i).toNat ≤ nearUint32Max + 1) :
    EndsAt lower upper c (some i) (c.fetchAdd i).2 :=
  ⟨rfl, _, rfl, List.forall_mem_singleton.mpr ⟨hi, .inl (toNat_succ h)⟩⟩

/-- A full counter is increased and decreased again. -/
theorem endsAt_fetchSub (hi : lower ≤ i ∧ i < upper) (h : (c.value i).toNat ≤ nearUint32Max + 1) :
    EndsAt lower upper c none ((c.fetchAdd i).2.fetchSub i).2 := by
  have hsub : c.value i + 1 - 1 = c.value i := UInt32.add_sub_cancel _ _
  refine ⟨?_, [⟨i, c.value i, c.value i + 1⟩, ⟨i, c.value i + 1, c.value i⟩], ?_, ?_⟩
  · simp only [Counters.fetchAdd, Counters.fetchSub, Function.update_self, Function.update_idem,
      hsub, Function.update_eq_self]
  · simp only [Counters.fetchAdd, Counters.fetchSub, Function.update_self, hsub, List.append_assoc,
      List.cons_append, List.nil_append]
  · intro a ha
    rcases List.mem_cons.mp ha with rfl | ha
    · exact ⟨hi, .inl (toNat_succ h)⟩
    · obtain rfl := List.mem_singleton.mp ha
      exact ⟨hi, .inr (toNat_succ h).symm⟩

/-- A counter that is not full. -/
def Counters.free (c : Counters) (i : ℕ) : Bool := (c.value i).toNat ≤ nearUint32Max

theorem tryAdd_eq (c : Counters) (i : ℕ) : c.tryAdd i =
    if c.free i then (true, (c.fetchAdd i).2) else (false, ((c.fetchAdd i).2.fetchSub i).2) := by
  rw [Counters.tryAdd, Counters.free]
  simp only [Counters.fetchAdd, decide_eq_true_iff]
  rfl

/-- No counter of the half is above the one that makes it full. -/
def Bounded (lower upper : ℕ) (c : Counters) : Prop :=
  ∀ i, lower ≤ i → i < upper → (c.value i).toNat ≤ nearUint32Max + 1

/-- A position that may be outside the half is tried. -/
theorem try_cases (hbounded : Bounded lower upper c) (inside : Prop) [Decidable inside] (i : ℕ)
    (hi : inside → lower ≤ i ∧ i < upper) :
    (∃ c₁, (if inside then c.tryAdd i else (false, c)) = (true, c₁) ∧
      (if inside then [i] else []).find? c.free = some i ∧ EndsAt lower upper c (some i) c₁) ∨
    (∃ c₁, (if inside then c.tryAdd i else (false, c)) = (false, c₁) ∧
      (if inside then [i] else []).find? c.free = none ∧ EndsAt lower upper c none c₁) := by
  by_cases hinside : inside
  · obtain ⟨hlow, hup⟩ := hi hinside
    simp only [if_pos hinside, tryAdd_eq]
    by_cases hfree : c.free i = true
    · rw [if_pos hfree]
      refine .inl ⟨_, rfl, ?_, endsAt_fetchAdd ⟨hlow, hup⟩ (hbounded i hlow hup)⟩
      rw [List.find?_singleton, if_pos hfree]
    · rw [if_neg hfree]
      refine .inr ⟨_, rfl, ?_, endsAt_fetchSub ⟨hlow, hup⟩ (hbounded i hlow hup)⟩
      rw [List.find?_singleton, if_neg hfree]
  · simp only [if_neg hinside]
    exact .inr ⟨c, rfl, rfl, .refl lower upper c⟩

theorem EndsAt.free_eq (h : EndsAt lower upper c none c') : c'.free = c.free := by
  funext i
  rw [Counters.free, Counters.free, h.value_eq]

theorem EndsAt.bounded (h : EndsAt lower upper c none c') (hbounded : Bounded lower upper c) :
    Bounded lower upper c' := by
  intro i hlow hup
  rw [h.value_eq]
  exact hbounded i hlow hup

/-- The loop ends at the first position that is not full. -/
theorem spill_endsAt (hbounded : Bounded lower upper c) (hpos : lower ≤ pos ∧ pos < upper)
    (deltas : List ℕ) :
    EndsAt lower upper c ((deltas.flatMap (beside lower upper pos)).find? c.free)
      (c.spill pos upper lower deltas) := by
  induction deltas generalizing c with
  | nil => exact .refl lower upper c
  | cons delta deltas ih =>
    rw [List.flatMap_cons, List.find?_append, beside, List.find?_append, Counters.spill]
    rcases try_cases hbounded (pos + delta < upper) (pos + delta)
      (fun h => ⟨by omega, h⟩) with ⟨c₁, htry, hfind, hends⟩ | ⟨c₁, htry, hfind, hends⟩
    · rw [htry, hfind]
      exact hends
    have hbounded₁ := hends.bounded hbounded
    rw [htry, hfind, Option.none_or, ← hends.free_eq]
    simp only [Bool.false_eq_true, if_false]
    rcases try_cases hbounded₁ (lower + delta ≤ pos) (pos - delta)
      (fun h => ⟨by omega, by omega⟩) with ⟨c₂, htry, hfind, hends'⟩ | ⟨c₂, htry, hfind, hends'⟩
    · rw [htry, hfind]
      exact hends.trans hends'
    rw [htry, hfind, Option.none_or, ← hends'.free_eq]
    simp only [Bool.false_eq_true, if_false]
    exact hends.trans (hends'.trans (ih (hends'.bounded hbounded₁)))

theorem increase_eq (c : Counters) (pos : ℕ) : c.increase pos =
    if nearUint32Max < (c.value pos).toNat then
      ((c.fetchAdd pos).2.fetchSub pos).2.spill pos (upperOf pos) (lowerOf pos)
        (List.range' 1 (limit (lowerOf pos) (upperOf pos) pos - 1))
    else (c.fetchAdd pos).2 := rfl

/-- The search of `increase`, over the whole half. -/
theorem increase_endsAt (hpos : pos < bucketSize)
    (hbounded : Bounded (lowerOf pos) (upperOf pos) c) :
    EndsAt (lowerOf pos) (upperOf pos) c
      ((candidates (lowerOf pos) (upperOf pos) pos).find? c.free) (c.increase pos) := by
  have hhalf := half_of_lt hpos
  have hroom := hbounded pos hhalf.1 hhalf.2
  rw [candidates, List.find?_cons, increase_eq]
  by_cases hfull : nearUint32Max < (c.value pos).toNat
  · have hfree : c.free pos = false := decide_eq_false (Nat.not_le.mpr hfull)
    have hends := endsAt_fetchSub hhalf hroom
    rw [hfree, if_pos hfull, ← hends.free_eq]
    exact hends.trans (spill_endsAt (hends.bounded hbounded) hhalf _)
  · have hfree : c.free pos = true := decide_eq_true (Nat.not_lt.mp hfull)
    rw [hfree, if_neg hfull]
    exact endsAt_fetchAdd hhalf hroom

/-- What is counted, all together. -/
def Counters.total (c : Counters) : ℕ := ∑ i ∈ Finset.range bucketSize, (c.value i).toNat

theorem total_update {v : UInt32} (hi : i < bucketSize) (hv : v.toNat = (c.value i).toNat + 1)
    (hc' : c'.value = Function.update c.value i v) : c'.total = c.total + 1 := by
  have hmem : i ∈ Finset.range bucketSize := Finset.mem_range.mpr hi
  rw [Counters.total, Counters.total, ← Finset.add_sum_erase _ _ hmem,
    ← Finset.add_sum_erase _ _ hmem, hc', Function.update_self, hv]
  have hrest : ∑ j ∈ (Finset.range bucketSize).erase i, (Function.update c.value i v j).toNat =
      ∑ j ∈ (Finset.range bucketSize).erase i, (c.value j).toNat := by
    refine Finset.sum_congr rfl fun j hj => ?_
    rw [Function.update_of_ne (Finset.ne_of_mem_erase hj)]
  rw [hrest]
  omega

/-- A counter that is not full is increased: of those of the same sign the nearest, and of two that
are equally near the higher. No other counter is changed, and none where all of that sign are full.
No access is to a counter of the other sign or behind the last one, and none wraps. -/
structure Increases (pos : ℕ) (c c' : Counters) : Prop where
  counted :
    (∃ i, Nearest (lowerOf pos) (upperOf pos) pos c.free i ∧
      c'.value = Function.update c.value i (c.value i + 1) ∧ c'.total = c.total + 1) ∨
    ((∀ i, lowerOf pos ≤ i → i < upperOf pos → nearUint32Max < (c.value i).toNat) ∧
      c'.value = c.value)
  sound : ∃ accesses, c'.log = c.log ++ accesses ∧
    ∀ a ∈ accesses, a.index < bucketSize ∧ a.Sound (lowerOf pos) (upperOf pos)

theorem increase_counts (c : Counters) (pos : ℕ) (hpos : pos < bucketSize)
    (hbounded : ∀ i < bucketSize, (c.value i).toNat ≤ nearUint32Max + 1) :
    Increases pos c (c.increase pos) := by
  have hhalf : Bounded (lowerOf pos) (upperOf pos) c := fun i _ hi =>
    hbounded i (hi.trans_le (upperOf_le pos))
  obtain ⟨hvalue, accesses, hlog, hsound⟩ := increase_endsAt hpos hhalf
  refine ⟨?_, accesses, hlog, fun a ha =>
    ⟨(hsound a ha).1.2.trans_le (upperOf_le pos), hsound a ha⟩⟩
  cases hfind : (candidates (lowerOf pos) (upperOf pos) pos).find? c.free with
  | none =>
    rw [hfind] at hvalue
    refine .inr ⟨fun i hlow hup => ?_, hvalue⟩
    have hfree := (find?_candidates_eq_none_iff (half_of_lt hpos)).mp hfind i hlow hup
    exact Nat.not_le.mp (of_decide_eq_false hfree)
  | some i =>
    rw [hfind] at hvalue
    have hnearest := (find?_candidates_eq_some_iff (half_of_lt hpos)).mp hfind
    have hi : i < bucketSize := hnearest.mem.2.trans_le (upperOf_le pos)
    exact .inl ⟨i, hnearest, hvalue, total_update hi (toNat_succ (hbounded i hi)) hvalue⟩

theorem increase_counts_full :
    Increases 3 ⟨fun i => if i = 3 then 4290000001 else 0, []⟩
      (Counters.increase ⟨fun i => if i = 3 then 4290000001 else 0, []⟩ 3) := by
  refine increase_counts _ 3 (by decide) fun i _ => ?_
  dsimp only
  split_ifs <;> decide

/-! ### The counters of a slot -/

section Slot

variable {d : Data}

/-- The counter that is increased for a code: with 32 bits, the nearest that is not full. -/
def Data.target (ut : UintType) (d : Data) (pos : ℕ) : Option ℕ :=
  match ut with
  | .uint32 =>
    (candidates (lowerOf pos) (upperOf pos) pos).find? fun i => d.count i ≤ nearUint32Max
  | .uint64 => some pos

theorem spill_eq (d : Data) (pos upper lower : ℕ) (deltas : List ℕ) :
    d.spill pos upper lower deltas =
    (((deltas.flatMap (beside lower upper pos)).find? fun i => d.count i ≤ nearUint32Max).map
      d.fetchAdd).getD d := by
  induction deltas with
  | nil => rfl
  | cons delta deltas ih =>
    rw [Data.spill, ih, List.flatMap_cons, List.find?_append, beside, List.find?_append]
    by_cases hup : pos + delta < upper ∧ d.count (pos + delta) ≤ nearUint32Max
    · rw [if_pos hup, if_pos hup.1, List.find?_singleton, if_pos (decide_eq_true hup.2)]
      rfl
    have hup' : (if pos + delta < upper then [pos + delta] else []).find?
        (fun i => d.count i ≤ nearUint32Max) = none := by
      split_ifs with h
      · rw [List.find?_singleton, if_neg (by simpa using fun hle => hup ⟨h, hle⟩)]
      · rfl
    rw [if_neg hup, hup', Option.none_or]
    by_cases hdown : lower + delta ≤ pos ∧ d.count (pos - delta) ≤ nearUint32Max
    · rw [if_pos hdown, if_pos hdown.1, List.find?_singleton, if_pos (decide_eq_true hdown.2)]
      rfl
    have hdown' : (if lower + delta ≤ pos then [pos - delta] else []).find?
        (fun i => d.count i ≤ nearUint32Max) = none := by
      split_ifs with h
      · rw [List.find?_singleton, if_neg (by simpa using fun hle => hdown ⟨h, hle⟩)]
      · rfl
    rw [if_neg hdown, hdown', Option.none_or]

theorem increase_eq_target (ut : UintType) (d : Data) (pos : ℕ) :
    d.increase ut pos = ((d.target ut pos).map d.fetchAdd).getD d := by
  cases ut with
  | uint64 => exact if_neg fun h => UintType.noConfusion h.1
  | uint32 =>
    have hspill := spill_eq d pos (upperOf pos) (lowerOf pos)
    rw [Data.target, candidates, List.find?_cons]
    by_cases hfull : nearUint32Max < d.count pos
    · rw [decide_eq_false (Nat.not_le.mpr hfull)]
      exact (if_pos ⟨rfl, hfull⟩).trans (hspill _)
    · rw [decide_eq_true (Nat.not_lt.mp hfull)]
      exact if_neg fun h => hfull h.2

/-- The counters of a slot are those that the accesses leave. -/
theorem count_increase_eq (c : Counters) (hcount : ∀ i, (c.value i).toNat = d.count i)
    (hpos : pos < bucketSize) (hbounded : ∀ i < bucketSize, d.count i ≤ nearUint32Max + 1) (i : ℕ) :
    ((c.increase pos).value i).toNat = (d.increase .uint32 pos).count i := by
  have hfree : c.free = fun i => decide (d.count i ≤ nearUint32Max) := by
    funext i
    rw [Counters.free, hcount]
  have hends := increase_endsAt (c := c) hpos fun j _ hj => by
    rw [hcount]
    exact hbounded j (hj.trans_le (upperOf_le pos))
  rw [increase_eq_target, hends.value_eq, Data.target, ← hfree]
  cases hfind : (candidates (lowerOf pos) (upperOf pos) pos).find? c.free with
  | none => exact hcount i
  | some j =>
    have hnearest := (find?_candidates_eq_some_iff (half_of_lt hpos)).mp hfind
    have hj : j < bucketSize := hnearest.mem.2.trans_le (upperOf_le pos)
    have hsucc := toNat_succ (hcount j ▸ hbounded j hj)
    rw [Option.map_some, Option.getD_some, Data.count_fetchAdd]
    by_cases hij : j = i
    · subst hij
      simp only [Function.update_self, hsucc, hcount, if_true]
    · simp only [Function.update_of_ne (Ne.symm hij), hcount, if_neg hij, Nat.add_zero]

end Slot

end Yalantinglibs.Metric.Summary
