import Mathlib.Algebra.BigOperators.Group.List.Basic
import Mathlib.Algebra.BigOperators.Ring.Finset
import Mathlib.Data.Int.Cast.Basic
import Mathlib.Data.Nat.Cast.Basic
import Mathlib.Logic.Function.Basic
import Mathlib.Tactic.Common
import Yalantinglibs.Data.BinarySearch
import Yalantinglibs.Data.TransitionSystem

/-!
# Dynamic histograms

`metric/histogram.hpp` over the maps of `metric/dynamic_metric.hpp` and `metric/counter.hpp`. For
each combination of label values a dynamic histogram has an entry in a map for the sum, and one in a
map for each bucket that an observation has come to. An entry has the time at which it was created,
and expires by that. Only the maps know how to remove the entries with some label values.

Times are in ticks of the steady clock, and values are added exactly.

## Main definitions

* `Metrics` — the entries of a `dynamic_metric_impl`, with the operations of a dynamic counter
* `DynamicHistogram` — the sum and the buckets
* `Action`, `step` — the operations, beside what was observed since an expiry or a removal
* `Together` — the sum and the buckets of a combination go at once

## Main results

* `describes_of_reaches` — the sum and the buckets are those of the same observations
-/

set_option autoImplicit false

namespace Yalantinglibs.Metric

open TransitionSystem

variable {B V : Type*}

/-! ### Counters -/

/-- `metric_pair`: the value for a combination of label values, and when it was created. -/
structure Entry (V : Type*) where
  value : V
  tp : ℤ

/-- `duration_cast<seconds>(now - get_created_time()).count() >= ylt_label_max_age.count()`. -/
def Entry.expired (e : Entry V) (maxAge now : ℤ) : Bool := maxAge ≤ (now - e.tp).tdiv 1000000000

/-- The entries of a dynamic metric, by the values of its labels. -/
abbrev Metrics (V : Type*) := List String → Option (Entry V)

/-- The combinations that `remove_label_value` of a dynamic counter removes: at least one of the
names has a value, and the values that are not empty are those of the combination. -/
def labelsMatch (labelsName : List String) (labels : List (String × String))
    (labelsValue : List String) : Bool :=
  labels.length ≤ labelsName.length &&
    labelsName.any (fun name => (labels.lookup name).isSome) &&
    (labelsName.zip labelsValue).all fun (name, a) =>
      let v := (labels.lookup name).getD ""
      v = "" || v = a

namespace Metrics

variable [AddMonoidWithOne V] (m : Metrics V)

/-- `inc`, with an entry that is created where there is none. -/
def inc (maxAge now : ℤ) (labelsValue : List String) (value : V) : Metrics V :=
  let e := (m labelsValue).getD ⟨0, if maxAge ≠ 0 then now else 0⟩
  Function.update m labelsValue (some { e with value := e.value + value })

def value (labelsValue : List String) : V :=
  match m labelsValue with
  | some e => e.value
  | none => 0

omit [AddMonoidWithOne V] in
def cleanExpiredLabel (maxAge now : ℤ) : Metrics V := fun labelsValue =>
  (m labelsValue).filter fun e => !e.expired maxAge now

omit [AddMonoidWithOne V] in
/-- `remove_label_value` of a dynamic counter. -/
def removeLabelValue (labelsName : List String) (labels : List (String × String)) : Metrics V :=
  fun labelsValue => if labelsMatch labelsName labels labelsValue then none else m labelsValue

end Metrics

/-! ### The histogram -/

/-- `basic_dynamic_histogram`. -/
structure DynamicHistogram (B V : Type*) where
  bucketBoundaries : List B
  labelsName : List String
  sum : Metrics V
  bucketCounts : List (Metrics V)

namespace DynamicHistogram

/-- The constructor: a counter for each boundary, and one more. -/
def new (buckets : List B) (labelsName : List String) : DynamicHistogram B V where
  bucketBoundaries := buckets
  labelsName := labelsName
  sum := fun _ => none
  bucketCounts := List.replicate (buckets.length + 1) fun _ => none

variable (h : DynamicHistogram B V)

/-- `lower_bound` of a value in the boundaries. -/
def bucketIndex (lt : B → V → Bool) (buckets : List B) (value : V) : ℕ :=
  BinarySearch.searchLoop buckets (fun b => lt b value) buckets.length 0 buckets.length

def cleanExpiredLabel (maxAge sumNow : ℤ) (nows : ℕ → ℤ) : DynamicHistogram B V :=
  { h with
    sum := h.sum.cleanExpiredLabel maxAge sumNow
    bucketCounts := h.bucketCounts.mapIdx fun i m => m.cleanExpiredLabel maxAge (nows i) }

/-- `remove_label_value` of `metric_t`, which no histogram overrides. -/
def removeLabelValue (_labels : List (String × String)) : DynamicHistogram B V := h

variable [AddMonoidWithOne V]

/-- `observe`, at the times at which the two entries are looked for. -/
def observe (lt : B → V → Bool) (maxAge sumNow bucketNow : ℤ) (labelsValue : List String)
    (value : V) : DynamicHistogram B V :=
  { h with
    sum := h.sum.inc maxAge sumNow labelsValue value
    bucketCounts := h.bucketCounts.modify (bucketIndex lt h.bucketBoundaries value)
      fun m => m.inc maxAge bucketNow labelsValue 1 }

/-- The sum of the buckets, as `serialize` writes it. -/
def totalCount (labelsValue : List String) : V :=
  (h.bucketCounts.map fun m => m.value labelsValue).sum

end DynamicHistogram

/-! ### Runs -/

/-- A histogram, and what was observed of each combination since it has expired or was removed. -/
structure State (B V : Type*) where
  histogram : DynamicHistogram B V
  since : List String → List V

inductive Action (V : Type*)
  | observe (sumNow bucketNow : ℤ) (labelsValue : List String) (value : V)
  /-- with the times at which each of the maps is cleaned -/
  | cleanExpiredLabel (sumNow : ℤ) (nows : ℕ → ℤ)
  | removeLabelValue (labels : List (String × String))

variable [AddMonoidWithOne V]

/-- A combination has expired if the entry of its sum has. -/
def step (lt : B → V → Bool) (maxAge : ℤ) (s : State B V) : Action V → Option (State B V)
  | .observe sumNow bucketNow labelsValue value => some
    { histogram := s.histogram.observe lt maxAge sumNow bucketNow labelsValue value
      since := Function.update s.since labelsValue (s.since labelsValue ++ [value]) }
  | .cleanExpiredLabel sumNow nows => some
    { histogram := s.histogram.cleanExpiredLabel maxAge sumNow nows
      since := fun labelsValue =>
        if (s.histogram.sum labelsValue).any fun e => e.expired maxAge sumNow then []
        else s.since labelsValue }
  | .removeLabelValue labels => some
    { histogram := s.histogram.removeLabelValue labels
      since := fun labelsValue =>
        if labelsMatch s.histogram.labelsName labels labelsValue then [] else s.since labelsValue }

/-- A histogram with some boundaries and labels. -/
def system (lt : B → V → Bool) (maxAge : ℤ) (buckets : List B) (labelsName : List String) :
    TransitionSystem (State B V) (Action V) :=
  ⟨⟨.new buckets labelsName, fun _ => []⟩, step lt maxAge⟩

/-- The sum and the buckets of a combination are those of the observations. -/
def Describes (s : State B V) (labelsValue : List String) : Prop :=
  s.histogram.sum.value labelsValue = (s.since labelsValue).sum ∧
    s.histogram.totalCount labelsValue = ((s.since labelsValue).length : V)

omit [AddMonoidWithOne V] in
/-- Of a combination, the entries of the sum and of the buckets expire together, and no combination
with an entry is to be removed. -/
def Together (maxAge : ℤ) (s : State B V) : Action V → Prop
  | .observe _ _ _ _ => True
  | .cleanExpiredLabel sumNow nows =>
    ∀ labelsValue e, s.histogram.sum labelsValue = some e →
      ∀ (i : ℕ) (m : Metrics V), s.histogram.bucketCounts[i]? = some m →
        ∀ e', m labelsValue = some e' → e'.expired maxAge (nows i) = e.expired maxAge sumNow
  | .removeLabelValue labels =>
    ∀ labelsValue, labelsMatch s.histogram.labelsName labels labelsValue →
      s.histogram.sum labelsValue = none

/-! ### The maps -/

namespace Metrics

variable (m : Metrics V) (maxAge now : ℤ)

theorem value_of_none {k : List String} (h : m k = none) : m.value k = 0 := by
  rw [value, h]

variable {m} in
theorem value_congr {m' : Metrics V} {k : List String} (h : m k = m' k) :
    m.value k = m'.value k := by
  rw [value, h, value]

@[simp] theorem value_inc_self (k : List String) (v : V) :
    (m.inc maxAge now k v).value k = m.value k + v := by
  cases h : m k with
  | none => simp [value, inc, h]
  | some e => simp [value, inc, h]

theorem inc_of_ne {k k' : List String} (hne : k' ≠ k) (v : V) : m.inc maxAge now k v k' = m k' :=
  Function.update_of_ne hne _ _

theorem inc_self_ne_none (k : List String) (v : V) : m.inc maxAge now k v k ≠ none := by
  simp [inc]

theorem value_inc_of_ne {k k' : List String} (hne : k' ≠ k) (v : V) :
    (m.inc maxAge now k v).value k' = m.value k' := by
  rw [value, inc_of_ne m maxAge now hne, value]

omit [AddMonoidWithOne V] in
theorem cleanExpiredLabel_of_none {k : List String} (h : m k = none) :
    m.cleanExpiredLabel maxAge now k = none := by
  rw [cleanExpiredLabel, h]
  rfl

omit [AddMonoidWithOne V] in
theorem cleanExpiredLabel_of_some {k : List String} {e : Entry V} (h : m k = some e) :
    m.cleanExpiredLabel maxAge now k = if e.expired maxAge now then none else some e := by
  rw [cleanExpiredLabel, h, Option.filter_some]
  cases e.expired maxAge now <;> rfl

end Metrics

/-! ### The buckets of the observations -/

/-- Each number below `n` is counted once. -/
theorem sum_range_ite (n j : ℕ) (hj : j < n) :
    ((List.range n).map fun i => if j = i then 1 else 0).sum = 1 := by
  have hsum : ∀ n, ((List.range n).map fun i => if j = i then 1 else 0).sum =
      if j < n then 1 else 0 := by
    intro n
    induction n with
    | zero => rfl
    | succ n ih =>
      rw [List.range_succ, List.map_append, List.sum_append, ih]
      by_cases hlt : j < n
      · simp [hlt, Nat.lt_succ_of_lt hlt, hlt.ne]
      · by_cases heq : j = n
        · simp [heq]
        · have : ¬j < n + 1 := by omega
          simp [hlt, heq, this]
  rw [hsum, if_pos hj]

/-- Where all of a list are in one of the classes, the classes have as many as the list. -/
theorem sum_range_countP {α : Type*} (n : ℕ) (f : α → ℕ) (hf : ∀ a, f a < n) (l : List α) :
    ((List.range n).map fun i => l.countP fun a => f a = i).sum = l.length := by
  induction l with
  | nil => simp
  | cons a l ih =>
    have hcons : ∀ i, (a :: l).countP (fun a => f a = i) =
        l.countP (fun a => f a = i) + if f a = i then 1 else 0 := by
      intro i
      rw [List.countP_cons]
      simp
    simp only [hcons]
    rw [List.sum_map_add, ih, sum_range_ite n (f a) (hf a), List.length_cons]

omit [AddMonoidWithOne V] in
theorem bucketIndex_lt (lt : B → V → Bool) (buckets : List B) (v : V) :
    DynamicHistogram.bucketIndex lt buckets v < buckets.length + 1 :=
  Nat.lt_succ_of_le (BinarySearch.searchLoop_le (Nat.zero_le _))

/-! ### The invariant -/

section Invariant

variable {lt : B → V → Bool} {maxAge : ℤ} {s s' : State B V}

/-- The sum has an entry for a combination if anything has one, and the entries are those of what
was observed. -/
structure Invariant (lt : B → V → Bool) (s : State B V) : Prop where
  length : s.histogram.bucketCounts.length = s.histogram.bucketBoundaries.length + 1
  since_none : ∀ k, s.histogram.sum k = none → s.since k = []
  bucket_none : ∀ k, s.histogram.sum k = none → ∀ (i : ℕ) (m : Metrics V),
    s.histogram.bucketCounts[i]? = some m → m k = none
  sum : ∀ k, s.histogram.sum.value k = (s.since k).sum
  bucket : ∀ k (i : ℕ) (m : Metrics V), s.histogram.bucketCounts[i]? = some m →
    m.value k = ((s.since k).countP fun v =>
      DynamicHistogram.bucketIndex lt s.histogram.bucketBoundaries v = i : ℕ)

theorem invariant_new (buckets : List B) (labelsName : List String) :
    Invariant lt (⟨.new buckets labelsName, fun _ => []⟩ : State B V) where
  length := List.length_replicate
  since_none _ _ := rfl
  bucket_none k _ i m hm := by
    obtain rfl := List.eq_of_mem_replicate (List.mem_of_getElem? hm)
    rfl
  sum _ := rfl
  bucket k i m hm := by
    obtain rfl := List.eq_of_mem_replicate (List.mem_of_getElem? hm)
    simp [Metrics.value]

/-- The buckets have as many observations as there are. -/
theorem Invariant.totalCount (hs : Invariant lt s) (k : List String) :
    s.histogram.totalCount k = ((s.since k).length : V) := by
  have hbuckets : (s.histogram.bucketCounts.map fun m => m.value k) =
      ((List.range (s.histogram.bucketBoundaries.length + 1)).map fun i => (s.since k).countP fun v =>
        DynamicHistogram.bucketIndex lt s.histogram.bucketBoundaries v = i).map Nat.cast := by
    apply List.ext_getElem
    · simp [hs.length]
    · intro i hi _
      rw [List.length_map] at hi
      simp only [List.getElem_map, List.getElem_range]
      exact hs.bucket k i _ (List.getElem?_eq_getElem hi)
  rw [DynamicHistogram.totalCount, hbuckets, ← Nat.cast_list_sum,
    sum_range_countP _ _ (bucketIndex_lt lt _)]

/-- An observation adds to the sum and to one of the buckets. -/
theorem Invariant.observe (hs : Invariant lt s) {sumNow bucketNow : ℤ} {k : List String} {v : V}
    (h : step lt maxAge s (.observe sumNow bucketNow k v) = some s') : Invariant lt s' := by
  cases h
  have hbucket : ∀ (i : ℕ) (m : Metrics V),
      (s.histogram.observe lt maxAge sumNow bucketNow k v).bucketCounts[i]? = some m →
      ∃ m', s.histogram.bucketCounts[i]? = some m' ∧
        m = if DynamicHistogram.bucketIndex lt s.histogram.bucketBoundaries v = i then
          m'.inc maxAge bucketNow k 1 else m' := by
    intro i m hm
    rw [DynamicHistogram.observe, List.getElem?_modify] at hm
    obtain ⟨m', hm', rfl⟩ := Option.map_eq_some_iff.mp hm
    exact ⟨m', hm', by split <;> rfl⟩
  refine ⟨?_, ?_, ?_, ?_, ?_⟩
  · exact (List.length_modify _ _ _).trans hs.length
  · intro k' hk'
    by_cases hk : k' = k
    · exact absurd (hk ▸ hk') (Metrics.inc_self_ne_none _ _ _ _ _)
    · change s.histogram.sum.inc maxAge sumNow k v k' = none at hk'
      rw [Metrics.inc_of_ne _ _ _ hk] at hk'
      exact (Function.update_of_ne hk _ _).trans (hs.since_none k' hk')
  · intro k' hk' i m hm
    by_cases hk : k' = k
    · exact absurd (hk ▸ hk') (Metrics.inc_self_ne_none _ _ _ _ _)
    · change s.histogram.sum.inc maxAge sumNow k v k' = none at hk'
      rw [Metrics.inc_of_ne _ _ _ hk] at hk'
      obtain ⟨m', hm', rfl⟩ := hbucket i m hm
      split
      · rw [Metrics.inc_of_ne _ _ _ hk]
        exact hs.bucket_none k' hk' i m' hm'
      · exact hs.bucket_none k' hk' i m' hm'
  · intro k'
    change (s.histogram.sum.inc maxAge sumNow k v).value k' =
      (Function.update s.since k (s.since k ++ [v]) k').sum
    by_cases hk : k' = k
    · subst hk
      rw [Function.update_self, Metrics.value_inc_self, hs.sum, List.sum_append,
        List.sum_singleton]
    · rw [Function.update_of_ne hk, Metrics.value_inc_of_ne _ _ _ hk, hs.sum]
  · intro k' i m hm
    change m.value k' = ((Function.update s.since k (s.since k ++ [v]) k').countP fun v =>
      DynamicHistogram.bucketIndex lt s.histogram.bucketBoundaries v = i : ℕ)
    obtain ⟨m', hm', rfl⟩ := hbucket i m hm
    have hold := hs.bucket k' i m' hm'
    by_cases hk : k' = k
    · subst hk
      rw [Function.update_self, List.countP_append, List.countP_singleton, Nat.cast_add, ← hold]
      split
      · simp [*]
      · simp [*]
    · rw [Function.update_of_ne hk, ← hold]
      split
      · rw [Metrics.value_inc_of_ne _ _ _ hk]
      · rfl

/-- All entries of some combinations may go, and what was observed of them is forgotten. -/
theorem Invariant.forget (hs : Invariant lt s) (gone : List String → Bool)
    (hboundaries : s'.histogram.bucketBoundaries = s.histogram.bucketBoundaries)
    (hlength : s'.histogram.bucketCounts.length = s.histogram.bucketCounts.length)
    (hsum : ∀ k, s'.histogram.sum k = if gone k then none else s.histogram.sum k)
    (hbucket : ∀ (i : ℕ) (m' : Metrics V), s'.histogram.bucketCounts[i]? = some m' →
      ∃ m : Metrics V, s.histogram.bucketCounts[i]? = some m ∧
        ∀ k, m' k = if gone k then none else m k)
    (hsince : ∀ k, s'.since k = if gone k then [] else s.since k) : Invariant lt s' where
  length := by rw [hlength, hboundaries, hs.length]
  since_none k hk := by
    rw [hsum] at hk
    rw [hsince]
    split
    · rfl
    · rename_i hgone
      rw [if_neg hgone] at hk
      exact hs.since_none k hk
  bucket_none k hk i m' hm' := by
    obtain ⟨m, hm, hmk⟩ := hbucket i m' hm'
    rw [hsum] at hk
    rw [hmk]
    split
    · rfl
    · rename_i hgone
      rw [if_neg hgone] at hk
      exact hs.bucket_none k hk i m hm
  sum k := by
    have hk := hsum k
    rw [hsince]
    split at hk
    · rename_i hgone
      rw [if_pos hgone, Metrics.value_of_none _ hk, List.sum_nil]
    · rename_i hgone
      rw [if_neg hgone, Metrics.value_congr hk, hs.sum]
  bucket k i m' hm' := by
    obtain ⟨m, hm, hmk⟩ := hbucket i m' hm'
    have hk := hmk k
    rw [hsince, hboundaries]
    split at hk
    · rename_i hgone
      rw [if_pos hgone, Metrics.value_of_none _ hk, List.countP_nil, Nat.cast_zero]
    · rename_i hgone
      rw [if_neg hgone, Metrics.value_congr hk, hs.bucket k i m hm]

/-- A combination keeps all of its entries, or none, when it is cleaned. -/
theorem Invariant.cleanExpiredLabel (hs : Invariant lt s) {sumNow : ℤ} {nows : ℕ → ℤ}
    (htogether : Together maxAge s (.cleanExpiredLabel sumNow nows))
    (h : step lt maxAge s (.cleanExpiredLabel sumNow nows) = some s') : Invariant lt s' := by
  cases h
  refine hs.forget (fun k => (s.histogram.sum k).any fun e => e.expired maxAge sumNow) rfl
    List.length_mapIdx (fun k => ?_) (fun i m' hm' => ?_) fun _ => rfl
  · change s.histogram.sum.cleanExpiredLabel maxAge sumNow k = _
    cases hk : s.histogram.sum k with
    | none => exact Metrics.cleanExpiredLabel_of_none _ _ _ hk
    | some e => exact Metrics.cleanExpiredLabel_of_some _ _ _ hk
  · change (s.histogram.bucketCounts.mapIdx _)[i]? = some m' at hm'
    rw [List.getElem?_mapIdx] at hm'
    obtain ⟨m, hm, rfl⟩ := Option.map_eq_some_iff.mp hm'
    refine ⟨m, hm, fun k => ?_⟩
    cases hk : s.histogram.sum k with
    | none =>
      have hmk := hs.bucket_none k hk i m hm
      rw [Metrics.cleanExpiredLabel_of_none _ _ _ hmk, hmk, ite_self]
    | some e =>
      cases hmk : m k with
      | none => rw [Metrics.cleanExpiredLabel_of_none _ _ _ hmk, ite_self]
      | some e' =>
        rw [Metrics.cleanExpiredLabel_of_some _ _ _ hmk, htogether k e hk i m hm e' hmk]
        rfl

/-- Nothing is removed where no combination with an entry is to be. -/
theorem Invariant.removeLabelValue (hs : Invariant lt s) {labels : List (String × String)}
    (htogether : Together maxAge s (.removeLabelValue labels))
    (h : step lt maxAge s (.removeLabelValue labels) = some s') : Invariant lt s' := by
  cases h
  refine hs.forget (labelsMatch s.histogram.labelsName labels) rfl rfl (fun k => ?_)
    (fun i m hm => ⟨m, hm, fun k => ?_⟩) fun _ => rfl
  · change s.histogram.sum k = _
    split
    · rename_i hk
      exact htogether k hk
    · rfl
  · split
    · rename_i hk
      exact hs.bucket_none k (htogether k hk) i m hm
    · rfl

theorem Invariant.step (hs : Invariant lt s) {a : Action V} (htogether : Together maxAge s a)
    (h : Metric.step lt maxAge s a = some s') : Invariant lt s' := by
  cases a with
  | observe sumNow bucketNow k v => exact hs.observe h
  | cleanExpiredLabel sumNow nows => exact hs.cleanExpiredLabel htogether h
  | removeLabelValue labels => exact hs.removeLabelValue htogether h

/-- In a run whose expiries and removals take the sum and the buckets of a combination together,
they are those of what was observed since. -/
theorem describes_of_reaches {buckets : List B} {labelsName : List String}
    (h : (system lt maxAge buckets labelsName).Reaches (Together maxAge) s) (k : List String) :
    Describes s k := by
  have hs : Invariant lt s := h.invariant (invariant_new buckets labelsName)
    fun _ _ _ hs htogether hstep => hs.step htogether hstep
  exact ⟨hs.sum k, hs.totalCount k⟩

end Invariant

/-! ### A histogram for the durations of requests -/

/-- Durations up to ten and above, by the method, with entries that expire after a minute. -/
abbrev durations : TransitionSystem (State ℤ ℤ) (Action ℤ) :=
  system (fun b v => b < v) 60 [10] ["method"]

/-- The state at the end of a run. -/
def runOf (as : List (Action ℤ)) : State ℤ ℤ :=
  (durations.runIf (fun _ _ => True) durations.init as).getD durations.init

/-- Two observations of a bucket, whose entry is as old as that of the sum. -/
theorem describes_one_bucket :
    Describes (runOf [.observe 0 0 ["GET"] 5, .observe 30000000000 30000000000 ["GET"] 7,
      .cleanExpiredLabel 60000000000 fun _ => 60000000001]) ["GET"] := by
  have htwo : durations.Reaches (Together 60)
      (runOf [.observe 0 0 ["GET"] 5, .observe 30000000000 30000000000 ["GET"] 7]) :=
    .step (a := .observe 30000000000 30000000000 ["GET"] 7)
      (.step (a := .observe 0 0 ["GET"] 5) .init trivial rfl) trivial rfl
  refine describes_of_reaches (.step (a := .cleanExpiredLabel 60000000000 fun _ => 60000000001)
    htwo ?_ rfl) ["GET"]
  intro k e hk i m hm e' hm'
  -- both entries are those of the first observation
  have hkey : k = ["GET"] := by
    by_contra hne
    have : (runOf [.observe 0 0 ["GET"] 5,
        .observe 30000000000 30000000000 ["GET"] 7]).histogram.sum k = none :=
      (Function.update_of_ne hne _ _).trans (Function.update_of_ne hne _ _)
    rw [this] at hk
    cases hk
  subst hkey
  cases hk
  match i with
  | 0 =>
    cases hm
    cases hm'
    rfl
  | 1 =>
    cases hm
    cases hm'
  | i + 2 => cases hm

/-- Two observations of two buckets, of which only the first expires. -/
theorem not_describes :
    ¬∀ s : State ℤ ℤ, durations.Reachable s → ∀ k, Describes s k := by
  intro h
  have hrun : durations.runIf (fun _ _ => True) durations.init
      [.observe 0 0 ["GET"] 5, .observe 30000000000 30000000000 ["GET"] 20,
        .cleanExpiredLabel 60000000000 fun _ => 60000000000] =
      some (runOf [.observe 0 0 ["GET"] 5, .observe 30000000000 30000000000 ["GET"] 20,
        .cleanExpiredLabel 60000000000 fun _ => 60000000000]) := rfl
  have htotal := (h _ (reaches_of_runIf .init hrun) ["GET"]).2
  exact absurd htotal (by decide)

end Yalantinglibs.Metric
