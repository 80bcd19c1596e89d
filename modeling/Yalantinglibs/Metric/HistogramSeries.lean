import Mathlib.Data.List.Perm.Basic
import Yalantinglibs.Metric.HistogramText

/-!
# What the text of a dynamic histogram counts

`observe` of a dynamic histogram of `metric/histogram.hpp` adds a value to the sum of its label
values as it is, and counts it in a bucket of theirs. The maps give their entries in any order.

## Main definitions

* `DynamicState.observe`, `DynamicRun` — observations of a new histogram
* `HistogramRun` — those of a histogram of either kind
* `HistogramRun.Reports` — the text is that of the observations
* `HistogramRun.Exact` — no fraction and no negative value is lost, and a dynamic histogram is
  defined

## Main results

* `observed_state` — the sum and the buckets after all observations
* `HistogramRun.reports_iff` — the text is that of the observations exactly there
-/

set_option autoImplicit false

namespace Yalantinglibs.Metric.Exposition

open ExpositionText

variable {boundaries : List ℚ}

/-! ### Dynamic histograms -/

/-- What is read of a sum in the type of the values. -/
def ValueType.ofSum : ValueType → ℚ → Number
  | .int64, sum => .integer (toInt64 sum)
  | .double, sum => .double sum

/-- `sum_` and `bucket_counts_` of a dynamic histogram. A counter without an entry has the value
zero. -/
structure DynamicState where
  sum : List (List Bytes × ℚ)
  bucketCounts : List (List Bytes → ℤ)

/-- `inc` of a dynamic gauge, with an entry that is created where there is none. -/
def gaugeInc (labelsValue : List Bytes) (value : ℚ) :
    List (List Bytes × ℚ) → List (List Bytes × ℚ)
  | [] => [(labelsValue, value)]
  | e :: rest =>
    if e.1 = labelsValue then (e.1, e.2 + value) :: rest else e :: gaugeInc labelsValue value rest

/-- `observe` of a dynamic histogram. -/
def DynamicState.observe (bucketBoundaries : List Number) (s : DynamicState)
    (o : List Bytes × ℚ) : DynamicState where
  sum := gaugeInc o.1 o.2 s.sum
  bucketCounts := s.bucketCounts.modify
    (DynamicHistogram.bucketIndex Number.lt bucketBoundaries o.2)
    fun count => Function.update count o.1 (count o.1 + 1)

/-- The values that were observed for some label values. -/
def valuesOf (observations : List (List Bytes × ℚ)) (k : List Bytes) : List ℚ :=
  (observations.filter fun o => o.1 = k).map Prod.snd

theorem valuesOf_concat (observations : List (List Bytes × ℚ)) (o : List Bytes × ℚ)
    (k : List Bytes) :
    valuesOf (observations ++ [o]) k =
      if o.1 = k then valuesOf observations k ++ [o.2] else valuesOf observations k := by
  rw [valuesOf, List.filter_append, List.map_append, List.filter_singleton, valuesOf]
  split_ifs with h
  · simp [h]
  · simp [h]

theorem keys_gaugeInc (k : List Bytes) (v : ℚ) (l : List (List Bytes × ℚ)) :
    (gaugeInc k v l).map Prod.fst =
      if k ∈ l.map Prod.fst then l.map Prod.fst else l.map Prod.fst ++ [k] := by
  induction l with
  | nil => rfl
  | cons e l ih =>
    rw [gaugeInc]
    by_cases he : e.1 = k
    · rw [if_pos he, if_pos (by rw [← he]; exact List.mem_cons_self)]
      rfl
    · have hmem : k ∈ (e :: l).map Prod.fst ↔ k ∈ l.map Prod.fst := by
        rw [List.map_cons, List.mem_cons, or_iff_right (Ne.symm he)]
      rw [if_neg he, List.map_cons, ih]
      simp only [hmem]
      split_ifs <;> rfl

/-- An entry is as it was, or is the one that has grown, or is new. -/
theorem mem_gaugeInc {k : List Bytes} {v : ℚ} {l : List (List Bytes × ℚ)}
    (hnodup : (l.map Prod.fst).Nodup) {e : List Bytes × ℚ} (h : e ∈ gaugeInc k v l) :
    (e.1 ≠ k ∧ e ∈ l) ∨ (e.1 = k ∧ ∃ sum, (k, sum) ∈ l ∧ e.2 = sum + v) ∨
      (e = (k, v) ∧ k ∉ l.map Prod.fst) := by
  induction l with
  | nil => exact Or.inr (Or.inr ⟨List.mem_singleton.mp h, List.not_mem_nil⟩)
  | cons e' l ih =>
    obtain ⟨hnotin, hnodup⟩ := List.nodup_cons.mp hnodup
    rw [gaugeInc] at h
    split_ifs at h with he'
    · rcases List.mem_cons.mp h with rfl | h
      · exact Or.inr (Or.inl ⟨he', e'.2, by rw [← he']; exact List.mem_cons_self, rfl⟩)
      · refine Or.inl ⟨fun hek => hnotin ?_, List.mem_cons_of_mem _ h⟩
        rw [he', ← hek]
        exact List.mem_map_of_mem h
    · rcases List.mem_cons.mp h with rfl | h
      · exact Or.inl ⟨he', List.mem_cons_self⟩
      · rcases ih hnodup h with ⟨hne, hmem⟩ | ⟨heq, sum, hmem, hsum⟩ | ⟨heq, hnotin'⟩
        · exact Or.inl ⟨hne, List.mem_cons_of_mem _ hmem⟩
        · exact Or.inr (Or.inl ⟨heq, sum, List.mem_cons_of_mem _ hmem, hsum⟩)
        · refine Or.inr (Or.inr ⟨heq, ?_⟩)
          rw [List.map_cons, List.mem_cons, not_or]
          exact ⟨Ne.symm he', hnotin'⟩

/-- The maps of a dynamic histogram after some observations. -/
structure DynamicObserved (boundaries : List ℚ) (s : DynamicState)
    (observations : List (List Bytes × ℚ)) : Prop where
  nodup : (s.sum.map Prod.fst).Nodup
  keys : ∀ k, k ∈ s.sum.map Prod.fst ↔ k ∈ observations.map Prod.fst
  sum : ∀ e ∈ s.sum, e.2 = (valuesOf observations e.1).sum
  bucketCounts : ∀ k, (s.bucketCounts.map fun count => count k) =
    counters (bucketOf boundaries) (boundaries.length + 1) (valuesOf observations k)

def DynamicState.new (bucketBoundaries : List Number) : DynamicState where
  sum := []
  bucketCounts := List.replicate (bucketBoundaries.length + 1) fun _ => 0

theorem dynamicObserved_new (boundaries : List ℚ) :
    DynamicObserved boundaries (.new (boundaries.map .double)) [] where
  nodup := List.nodup_nil
  keys _ := Iff.rfl
  sum _ he := absurd he List.not_mem_nil
  bucketCounts k := by
    rw [DynamicState.new, counters]
    simp [valuesOf]

theorem map_modify_update (counts : List (List Bytes → ℤ)) (i : ℕ) (k k' : List Bytes) :
    ((counts.modify i fun count => Function.update count k (count k + 1)).map fun count => count k') =
      if k = k' then (counts.map fun count => count k').modify i fun count => counterInc count 1
      else counts.map fun count => count k' := by
  apply List.ext_getElem
  · split_ifs <;> simp
  · intro j hj hj'
    split_ifs with h
    · subst h
      simp only [List.getElem_map, List.getElem_modify]
      split_ifs <;> simp [counterInc]
    · simp only [List.getElem_map, List.getElem_modify]
      split_ifs
      · exact Function.update_of_ne (Ne.symm h) _ _
      · rfl

theorem valuesOf_eq_nil {observations : List (List Bytes × ℚ)} {k : List Bytes}
    (h : k ∉ observations.map Prod.fst) : valuesOf observations k = [] := by
  rw [valuesOf, List.map_eq_nil_iff, List.filter_eq_nil_iff]
  intro o ho hk
  exact h (of_decide_eq_true hk ▸ List.mem_map_of_mem ho)

theorem DynamicObserved.observe {s : DynamicState} {observations : List (List Bytes × ℚ)}
    (h : DynamicObserved boundaries s observations) (o : List Bytes × ℚ) :
    DynamicObserved boundaries (s.observe (boundaries.map .double) o) (observations ++ [o]) where
  nodup := by
    rw [DynamicState.observe, keys_gaugeInc]
    split_ifs with hk
    · exact h.nodup
    · refine List.Nodup.append h.nodup (List.nodup_singleton _) fun k hmem hk' => hk ?_
      rwa [← List.mem_singleton.mp hk']
  keys k := by
    rw [DynamicState.observe, keys_gaugeInc, List.map_append, List.mem_append, ← h.keys,
      List.map_singleton, List.mem_singleton]
    split_ifs with hk
    · exact ⟨Or.inl, fun hor => hor.elim id fun heq => heq ▸ hk⟩
    · rw [List.mem_append, List.mem_singleton]
  sum e he := by
    rw [valuesOf_concat]
    rcases mem_gaugeInc h.nodup he with ⟨hne, hmem⟩ | ⟨heq, sum, hmem, hsum⟩ | ⟨rfl, hnotin⟩
    · rw [if_neg (Ne.symm hne)]
      exact h.sum e hmem
    · rw [if_pos heq.symm, List.sum_append, List.sum_singleton, hsum, heq]
      exact congrArg (· + o.2) (h.sum _ hmem)
    · have hnil := valuesOf_eq_nil fun hk => hnotin ((h.keys o.1).mpr hk)
      rw [if_pos rfl, hnil, List.nil_append, List.sum_singleton]
  bucketCounts k := by
    rw [DynamicState.observe, map_modify_update, h.bucketCounts, bucketIndex_eq, valuesOf_concat]
    split_ifs
    · exact counters_concat _ _ _ _
    · rfl

/-- A new dynamic histogram with boundaries in order, what it observes, and the order in which its
map gives the entries. -/
structure DynamicRun where
  valueType : ValueType
  head : Head
  staticLabels : Option Labels
  labelsName : LabelsName
  boundaries : List ℚ
  sorted : boundaries.Pairwise (· < ·)
  observations : List (List Bytes × ℚ)
  length_eq : ∀ o ∈ observations, o.1.length = labelsName.names.length
  integral : valueType = .int64 → ∀ o ∈ observations, ∃ n : ℤ, o.2 = n
  copy : List (List Bytes × ℚ) → List (List Bytes × ℚ)
  copy_perm : ∀ entries, (copy entries).Perm entries

namespace DynamicRun

variable (r : DynamicRun)

def state : DynamicState :=
  r.observations.foldl (DynamicState.observe (r.boundaries.map .double))
    (.new (r.boundaries.map .double))

theorem observed_state : DynamicObserved r.boundaries r.state r.observations := by
  have hrun : ∀ observations, DynamicObserved r.boundaries
      (observations.foldl (DynamicState.observe (r.boundaries.map .double))
        (.new (r.boundaries.map .double))) observations := by
    intro observations
    induction observations using List.reverseRecOn with
    | nil => exact dynamicObserved_new r.boundaries
    | append_singleton observations o ih =>
      rw [List.foldl_append]
      exact ih.observe o
  exact hrun r.observations

/-- The entries of the sum, in the order of the map. -/
def entries : List (List Bytes × ℚ) := r.copy r.state.sum

theorem mem_entries_iff {e : List Bytes × ℚ} : e ∈ r.entries ↔ e ∈ r.state.sum :=
  (r.copy_perm r.state.sum).mem_iff

theorem nodup_entries : (r.entries.map Prod.fst).Nodup :=
  ((r.copy_perm r.state.sum).map Prod.fst).nodup_iff.mpr (observed_state r).nodup

theorem mem_keys_iff (k : List Bytes) :
    k ∈ r.entries.map Prod.fst ↔ k ∈ r.observations.map Prod.fst :=
  (((r.copy_perm r.state.sum).map Prod.fst).mem_iff).trans ((observed_state r).keys k)

/-- What is read when the histogram is serialized. -/
def text : DynamicHistogramText where
  head := r.head
  staticLabels := r.staticLabels
  labelsName := r.labelsName
  map := r.entries.map fun e =>
    (e.1, ⟨r.state.bucketCounts.map fun count => count e.1, r.valueType.ofSum e.2⟩)
  length_eq := by
    intro e he
    obtain ⟨entry, hentry, rfl⟩ := List.mem_map.mp he
    obtain ⟨o, ho, hkey⟩ := List.mem_map.mp
      ((mem_keys_iff r entry.1).mp (List.mem_map_of_mem hentry))
    exact hkey ▸ r.length_eq o ho
  nodup := by
    rw [List.map_map]
    exact nodup_entries r
  valueType := r.valueType
  bucketBoundaries := r.boundaries.map .double
  bucketCounts_length := by
    intro e he
    obtain ⟨entry, -, rfl⟩ := List.mem_map.mp he
    rw [(observed_state r).bucketCounts, counters, List.length_map, List.length_range,
      List.length_map]

/-- The lines of some label values. -/
def seriesLines (k : List Bytes) : List Line :=
  reportLines r.head.name (r.text.labels k) (r.text.labels k) r.boundaries
    (valuesOf r.observations k)

/-- The lines that are written for some label values. -/
def seriesWritten (e : List Bytes × ℚ) : List Written :=
  (histogramSamples r.valueType r.head.name (r.text.labels e.1) (r.boundaries.map .double)
    (counters (bucketOf r.boundaries) (r.boundaries.length + 1) (valuesOf r.observations e.1))
    (r.valueType.ofSum e.2)).map (Written.mk [])

/-- An entry has been observed. -/
theorem valuesOf_ne_nil {e : List Bytes × ℚ} (he : e ∈ r.entries) :
    valuesOf r.observations e.1 ≠ [] := by
  obtain ⟨o, ho, hkey⟩ := List.mem_map.mp ((mem_keys_iff r e.1).mp (List.mem_map_of_mem he))
  refine List.ne_nil_of_mem (a := o.2) (List.mem_map_of_mem (List.mem_filter.mpr ⟨ho, ?_⟩))
  exact decide_eq_true hkey

theorem written_eq : r.text.written = r.entries.flatMap r.seriesWritten := by
  rw [DynamicHistogramText.written, text, List.flatMap_map]
  refine List.flatMap_congr fun e he => ?_
  dsimp only
  rw [(observed_state r).bucketCounts, sum_counters r.boundaries, if_neg]
  · rfl
  · exact_mod_cast fun h => valuesOf_ne_nil r he (List.eq_nil_of_length_eq_zero h)

/-- The sum is printed as it is. -/
theorem renders_ofSum {sum : ℚ} (h : r.valueType = .int64 → ∃ n : ℤ, sum = n) :
    Renders (r.valueType.ofSum sum).toString sum := by
  cases htype : r.valueType with
  | int64 =>
    obtain ⟨n, rfl⟩ := h htype
    refine Or.inr ⟨n, rfl, ?_⟩
    rw [ValueType.ofSum, toInt64, Int.ceil_intCast, Int.floor_intCast, ite_self]
  | double => exact Or.inl rfl

theorem exists_sum_eq (h : r.valueType = .int64) (k : List Bytes) :
    ∃ n : ℤ, (valuesOf r.observations k).sum = n := by
  have hall : ∀ v ∈ valuesOf r.observations k, ∃ n : ℤ, v = n := by
    intro v hv
    obtain ⟨o, ho, rfl⟩ := List.mem_map.mp hv
    exact r.integral h o (List.mem_of_mem_filter ho)
  generalize valuesOf r.observations k = values at hall ⊢
  induction values with
  | nil => exact ⟨0, by simp⟩
  | cons v vs ih =>
    obtain ⟨n, hn⟩ := hall v List.mem_cons_self
    obtain ⟨m, hm⟩ := ih fun v hv => hall v (List.mem_cons_of_mem _ hv)
    exact ⟨n + m, by rw [List.sum_cons, hn, hm]; push_cast; rfl⟩

theorem prints_series {e : List Bytes × ℚ} (he : e ∈ r.entries) :
    List.Forall₂ Prints (r.seriesWritten e) (r.seriesLines e.1) := by
  have hsum := (observed_state r).sum e ((mem_entries_iff r).mp he)
  rw [seriesWritten, seriesLines, histogramSamples, reportLines, List.map_append,
    forall₂_append_iff (prints_buckets r.sorted _ _ _ _), sum_counters r.boundaries, hsum]
  refine List.Forall₂.cons ⟨rfl, rfl, rfl, ?_⟩ (List.Forall₂.cons ⟨rfl, rfl, rfl, ?_⟩ .nil)
  · exact renders_ofSum r fun h => exists_sum_eq r h e.1
  · exact_mod_cast renders_ofCount r.valueType (valuesOf r.observations e.1).length

/-- The lines that the observations stand for, in the order of the map. -/
def lines : List Line := (r.entries.map Prod.fst).flatMap r.seriesLines

theorem prints_lines : List.Forall₂ Prints r.text.written r.lines := by
  rw [written_eq, lines, List.flatMap_map]
  have hall : ∀ e ∈ r.entries, List.Forall₂ Prints (r.seriesWritten e) (r.seriesLines e.1) :=
    fun e he => prints_series r he
  generalize r.entries = entries at hall ⊢
  induction entries with
  | nil => exact .nil
  | cons e es ih =>
    rw [List.flatMap_cons, List.flatMap_cons,
      forall₂_append_iff (hall e List.mem_cons_self)]
    exact ih fun e he => hall e (List.mem_cons_of_mem _ he)

theorem entries_eq_nil_iff : r.entries = [] ↔ r.observations = [] := by
  rw [← @List.map_eq_nil_iff _ _ Prod.fst r.entries, ← @List.map_eq_nil_iff _ _ Prod.fst
    r.observations, List.eq_nil_iff_forall_not_mem, List.eq_nil_iff_forall_not_mem]
  exact forall_congr' fun k => not_congr (mem_keys_iff r k)

theorem lines_eq_nil_iff : r.lines = [] ↔ r.observations = [] := by
  rw [← entries_eq_nil_iff, lines, List.flatMap_map]
  constructor
  · intro h
    refine List.eq_nil_iff_forall_not_mem.mpr fun e he => ?_
    exact absurd (List.flatMap_eq_nil_iff.mp h e he) (by simp [seriesLines, reportLines])
  · intro h
    rw [h]
    rfl

theorem written_eq_nil_iff : r.text.written = [] ↔ r.observations = [] := by
  rw [← lines_eq_nil_iff, ← List.length_eq_zero_iff, (prints_lines r).length_eq,
    List.length_eq_zero_iff]

/-- What is written is defined only where the histogram can be constructed and has labels. -/
theorem defined_of_serialize (h : r.text.serialize [] ≠ none) :
    (AnyMetric.dynamicHistogram r.text).Constructed ∧
      (r.observations ≠ [] → r.labelsName.names ≠ []) := by
  have hconstructed : (AnyMetric.dynamicHistogram r.text).Constructed := by
    by_contra hnot
    exact h (r.text.serialize_eq_none_of_not_constructed hnot [])
  refine ⟨hconstructed, fun hne hnames => h ?_⟩
  exact r.text.serialize_eq_none hconstructed (fun h => hne ((written_eq_nil_iff r).mp h)) hnames []

/-- There the text shows the observations. -/
theorem shows_lines (hconstructed : (AnyMetric.dynamicHistogram r.text).Constructed)
    (hnames : r.observations ≠ [] → r.labelsName.names ≠ []) :
    Shows r.text.serialize r.head r.lines := by
  have hserialize := r.text.serialize_eq hconstructed fun h =>
    hnames fun hnil => h ((written_eq_nil_iff r).mpr hnil)
  have hprinted : (AnyMetric.dynamicHistogram r.text).printed =
      if r.lines = [] then none else some r.head := by
    have hmap : r.text.map.isEmpty ↔ r.lines = [] := by
      rw [lines_eq_nil_iff, ← entries_eq_nil_iff, List.isEmpty_iff]
      exact List.map_eq_nil_iff
    rw [AnyMetric.printed]
    simp only [hmap]
    rfl
  rw [hprinted] at hserialize
  exact (shows_iff hserialize (map_front_of_prints (prints_lines r))
    (newline_notMem_of_prints (prints_lines r))).mpr (prints_lines r)

end DynamicRun

/-! ### Both kinds -/

/-- Observations of a new histogram of either kind. -/
inductive HistogramRun
  | static (r : StaticRun)
  | dynamic (r : DynamicRun)

namespace HistogramRun

/-- The text gives the counts up to each boundary, which do not decrease, the sum and the count of
what was observed, and is empty exactly where that is nothing. In a dynamic histogram it does so for
the label values that were observed, each once. -/
def Reports : HistogramRun → Prop
  | static r => Shows r.histogram.serialize r.head r.lines ∧ (r.lines = [] ↔ r.values = []) ∧
      Nondecreasing r.boundaries r.values
  | dynamic r => ∃ ks : List (List Bytes), ks.Nodup ∧
      (∀ k, k ∈ ks ↔ k ∈ r.observations.map Prod.fst) ∧
      Shows r.text.serialize r.head (ks.flatMap r.seriesLines) ∧
      (ks.flatMap r.seriesLines = [] ↔ r.observations = []) ∧
      ∀ k, Nondecreasing r.boundaries (valuesOf r.observations k)

/-- A static histogram loses nothing of its sum, and a dynamic histogram is defined: a hybrid one
has static labels, and there are labels where there is anything to write. -/
def Exact : HistogramRun → Prop
  | static r => (gaugeSum r.values : ℚ) = r.values.sum
  | dynamic r => (∀ labels ∈ r.staticLabels, labels.entries ≠ []) ∧
      (r.observations ≠ [] → r.labelsName.names ≠ [])

theorem reports_iff (r : HistogramRun) : r.Reports ↔ r.Exact := by
  cases r with
  | static r =>
    rw [Reports, Exact, StaticRun.shows_iff]
    exact and_iff_left ⟨r.lines_eq_nil_iff, nondecreasing_reportBuckets r.sorted r.values⟩
  | dynamic r =>
    constructor
    · rintro ⟨ks, -, -, ⟨text, htext, -⟩, -⟩
      refine DynamicRun.defined_of_serialize r ?_
      rw [htext]
      exact Option.some_ne_none _
    · rintro ⟨hconstructed, hnames⟩
      exact ⟨r.entries.map Prod.fst, r.nodup_entries, r.mem_keys_iff,
        DynamicRun.shows_lines r hconstructed hnames, r.lines_eq_nil_iff,
        fun k => nondecreasing_reportBuckets r.sorted _⟩

/-- A gauge does not go down: what is below zero is not added to the sum. -/
def temperatures : StaticRun where
  valueType := .int64
  head := ⟨.histogram, ascii "temperature", ascii "degrees"⟩
  labels := ⟨[], fun _ h => absurd h List.not_mem_nil⟩
  boundaries := [0]
  sorted := List.pairwise_singleton _ _
  values := [5, -3]
  integral _ v hv := by
    rw [List.mem_cons, List.mem_singleton] at hv
    rcases hv with rfl | rfl
    · exact ⟨5, rfl⟩
    · exact ⟨-3, rfl⟩

theorem not_reports_temperatures : ¬ (static temperatures).Reports := by
  rintro ⟨hshows, -⟩
  have hsum := (StaticRun.shows_iff temperatures).mp hshows
  have hgauge : gaugeSum temperatures.values = 5 := by decide +kernel
  have hvalues : temperatures.values.sum = 2 := by decide +kernel
  rw [hgauge, hvalues] at hsum
  exact absurd hsum (by decide +kernel)

end HistogramRun

end Yalantinglibs.Metric.Exposition
