import Mathlib.Algebra.BigOperators.Group.List.Basic
import Yalantinglibs.Metric.DynamicHistogram
import Yalantinglibs.Metric.ExpositionFaithful

/-!
# What the text of a histogram counts

`observe` of a static histogram of `metric/histogram.hpp`, and the lines that `serialize` writes
after any observations. The values are rational numbers, and whole ones for a histogram of integers.
The sum is a gauge of integers that passes negative amounts over, whatever the type of the values
is.

## Main definitions

* `StaticHistogram.observe`, `StaticRun` — observations of a new histogram
* `reportLines` — the lines that observations stand for
* `Renders`, `Shows` — a text of a number, and of lines with numbers

## Main results

* `bucketLines_counters` — the buckets count the values up to their boundaries
* `shows_iff` — a text shows the lines that are written, and no others
* `StaticRun.shows_iff` — the text of a static histogram is that of its values exactly where the
  gauge has added all of them up
-/

set_option autoImplicit false

namespace Yalantinglibs.Metric.Exposition

open ExpositionText

/-! ### Observations -/

/-- `boundary < value` as numbers of type `double`. -/
def Number.lt (boundary : Number) (value : ℚ) : Bool :=
  match boundary with
  | .integer n => (n : ℚ) < value
  | .double q => q < value
  | .infinity negative => negative
  | .nan _ => false

/-- The conversion of a value to `int64_t`, which cuts the fraction off. -/
def toInt64 (value : ℚ) : ℤ := if value < 0 then ⌈value⌉ else ⌊value⌋

/-- `inc` of a `basic_static_counter` of integers. -/
def counterInc (count val : ℤ) : ℤ := if val < 0 then count else count + val

/-- `observe` of a static histogram. -/
def StaticHistogram.observe (m : StaticHistogram) (value : ℚ) : StaticHistogram where
  valueType := m.valueType
  head := m.head
  labels := m.labels
  bucketBoundaries := m.bucketBoundaries
  bucketCounts := m.bucketCounts.modify
    (DynamicHistogram.bucketIndex Number.lt m.bucketBoundaries value) fun count => counterInc count 1
  sum := counterInc m.sum (toInt64 value)
  length_eq := by rw [List.length_modify, m.length_eq]

theorem StaticHistogram.observe_bucketCounts (m : StaticHistogram) (value : ℚ) :
    (m.observe value).bucketCounts = m.bucketCounts.modify
      (DynamicHistogram.bucketIndex Number.lt m.bucketBoundaries value)
      fun count => counterInc count 1 := rfl

theorem StaticHistogram.observe_sum (m : StaticHistogram) (value : ℚ) :
    (m.observe value).sum = counterInc m.sum (toInt64 value) := rfl

/-! ### Buckets -/

/-- The bucket of a value among boundaries in order. -/
def bucketOf (boundaries : List ℚ) (value : ℚ) : ℕ := BinarySearch.place id boundaries value

theorem searchLoop_map {α β : Type*} (f : α → β) (as : List α) (p : β → Bool)
    (rounds low high : ℕ) :
    BinarySearch.searchLoop (as.map f) p rounds low high =
      BinarySearch.searchLoop as (fun a => p (f a)) rounds low high := by
  induction rounds generalizing low high with
  | zero => rfl
  | succ rounds ih =>
    rw [BinarySearch.searchLoop, BinarySearch.searchLoop]
    dsimp only
    rw [List.getElem?_map, Option.any_map, ih, ih]

theorem bucketIndex_eq (boundaries : List ℚ) (value : ℚ) :
    DynamicHistogram.bucketIndex Number.lt (boundaries.map .double) value =
      bucketOf boundaries value := by
  rw [DynamicHistogram.bucketIndex, searchLoop_map, List.length_map]
  rfl

variable {boundaries : List ℚ}

theorem bucketOf_le (value : ℚ) : bucketOf boundaries value ≤ boundaries.length :=
  BinarySearch.searchLoop_le (Nat.zero_le _)

/-- A value is in the buckets up to that of the first boundary that is not below it. -/
theorem bucketOf_le_iff (hsorted : boundaries.Pairwise (· < ·)) (value : ℚ) {i : ℕ}
    (hi : i < boundaries.length) : bucketOf boundaries value ≤ i ↔ value ≤ boundaries[i] := by
  obtain ⟨pre, post, rfl, hplace, hpre, hpost⟩ :=
    @BinarySearch.place_eq ℚ ℚ _ id boundaries value hsorted
  rw [bucketOf, hplace]
  by_cases hlt : i < pre.length
  · have hbelow : (pre ++ post)[i] < value := by
      rw [List.getElem_append_left hlt]
      exact hpre _ (List.getElem_mem hlt)
    exact iff_of_false (by omega) (not_le_of_gt hbelow)
  · have habove : value ≤ (pre ++ post)[i] := by
      rw [List.getElem_append_right (Nat.le_of_not_lt hlt)]
      exact hpost _ (List.getElem_mem _)
    exact iff_of_true (Nat.le_of_not_lt hlt) habove

/-- The number of values up to a boundary. -/
theorem countP_bucketOf_lt (hsorted : boundaries.Pairwise (· < ·)) (values : List ℚ) {i : ℕ}
    (hi : i < boundaries.length) :
    values.countP (fun v => bucketOf boundaries v < i + 1) =
      values.countP fun v => v ≤ boundaries[i] := by
  refine List.countP_congr fun v _ => ?_
  rw [decide_eq_true_eq, decide_eq_true_eq, Nat.lt_succ_iff, bucketOf_le_iff hsorted v hi]

/-- Counters that have been counted up for the values that belong to them. -/
def counters (index : ℚ → ℕ) (n : ℕ) (values : List ℚ) : List ℤ :=
  (List.range n).map fun j => (values.countP fun v => index v = j : ℤ)

theorem counters_concat (index : ℚ → ℕ) (n : ℕ) (values : List ℚ) (value : ℚ) :
    (counters index n values).modify (index value) (fun count => counterInc count 1) =
      counters index n (values ++ [value]) := by
  apply List.ext_getElem
  · simp [counters]
  · intro j hj hj'
    simp only [counters, List.getElem_modify, List.getElem_map, List.getElem_range,
      List.countP_append, List.countP_cons, List.countP_nil]
    by_cases h : index value = j
    · simp [h, counterInc]
    · simp [h]

theorem countP_lt_succ (index : ℚ → ℕ) (values : List ℚ) (n : ℕ) :
    values.countP (fun v => index v < n) + values.countP (fun v => index v = n) =
      values.countP fun v => index v < n + 1 := by
  induction values with
  | nil => rfl
  | cons v values ih =>
    simp only [List.countP_cons, decide_eq_true_eq, ← ih]
    split_ifs <;> omega

/-- The counts up to each bucket are those of the values below its upper end. -/
theorem cumulative_counters (index : ℚ → ℕ) (values : List ℚ) (les : List Bytes) (start : ℕ) :
    cumulative (values.countP fun v => index v < start)
        (((List.range' start les.length).map fun j =>
          (values.countP fun v => index v = j : ℤ)).zip les) =
      les.zip ((List.range' start les.length).map fun j =>
        (values.countP fun v => index v < j + 1 : ℤ)) := by
  induction les generalizing start with
  | nil => simp [cumulative]
  | cons le les ih =>
    have hnext : (values.countP (fun v => index v < start) : ℤ) +
        values.countP (fun v => index v = start) = values.countP fun v => index v < start + 1 := by
      exact_mod_cast countP_lt_succ index values start
    rw [List.length_cons, List.range'_succ, List.map_cons, List.zip_cons_cons,
      cumulative, hnext, ih]
    rfl

/-- The buckets with the number of values up to their boundaries. -/
def reportBuckets (boundaries values : List ℚ) : List (Bytes × ℤ) :=
  (boundaries.map fun b => ((Number.double b).toString, (values.countP fun v => v ≤ b : ℤ))) ++
    [(ascii "+Inf", (values.length : ℤ))]

theorem bucketLines_counters (hsorted : boundaries.Pairwise (· < ·)) (valueType : ValueType)
    (values : List ℚ) :
    bucketLines valueType (boundaries.map .double)
        (counters (bucketOf boundaries) (boundaries.length + 1) values) =
      (reportBuckets boundaries values).map fun (le, n) => (le, valueType.ofCount n) := by
  have hlen : (leTexts (boundaries.map .double)).length = boundaries.length + 1 := by
    rw [leTexts, List.length_append, List.length_map, List.length_map]
    rfl
  have hstart : (values.countP fun v => bucketOf boundaries v < 0) = 0 := by
    rw [List.countP_eq_zero]
    simp
  have hcumulative := cumulative_counters (bucketOf boundaries) values
    (leTexts (boundaries.map .double)) 0
  rw [hlen, ← List.range_eq_range', hstart, Nat.cast_zero] at hcumulative
  -- the last bucket has all the values
  have hall : (values.countP fun v => bucketOf boundaries v < boundaries.length + 1) =
      values.length := by
    rw [List.countP_eq_length]
    exact fun v _ => decide_eq_true (Nat.lt_succ_of_le (bucketOf_le v))
  have hcounts : ((List.range (boundaries.length + 1)).map fun j =>
      (values.countP fun v => bucketOf boundaries v < j + 1 : ℤ)) =
      (boundaries.map fun b => (values.countP fun v => v ≤ b : ℤ)) ++ [(values.length : ℤ)] := by
    rw [List.range_succ, List.map_append, List.map_singleton, hall]
    congr 1
    apply List.ext_getElem
    · simp
    · intro i hi hi'
      rw [List.length_map] at hi'
      simp only [List.getElem_map, List.getElem_range, countP_bucketOf_lt hsorted values hi']
  rw [bucketLines, counters, hcumulative, hcounts, leTexts, List.map_map,
    List.zip_append (by rw [List.length_map, List.length_map]), List.zip_map', reportBuckets]
  rfl

/-! ### What the text is to show -/

/-- A line that is to be written, with the value of its number. -/
structure Line where
  name : Bytes
  labels : List (Bytes × Bytes)
  number : ℚ

/-- The lines of the values of one series. Whether the labels of the sum and the count are those of
the buckets is another matter. -/
def reportLines (name : Bytes) (labels totalLabels : List (Bytes × Bytes))
    (boundaries values : List ℚ) : List Line :=
  (reportBuckets boundaries values).map (fun (le, n) =>
      ⟨name ++ ascii "_bucket", labels ++ [(ascii "le", le)], n⟩) ++
    [⟨name ++ ascii "_sum", totalLabels, values.sum⟩,
      ⟨name ++ ascii "_count", totalLabels, values.length⟩]

/-- A number is printed, as an integer or as a floating-point number. -/
def Renders (value : Bytes) (q : ℚ) : Prop :=
  value = (Number.double q).toString ∨ ∃ n : ℤ, (n : ℚ) = q ∧ value = (Number.integer n).toString

/-- A line is written with its number. -/
structure Prints (w : Written) (l : Line) : Prop where
  gap : w.gap = []
  name : w.sample.name = l.name
  labels : w.sample.labels = l.labels
  number : Renders w.sample.value l.number

/-- A text shows lines behind a head, or is empty where there is nothing to show. -/
def Shows (serialize : Bytes → Option Bytes) (head : Head) (lines : List Line) : Prop :=
  ∃ text, (∀ str, serialize str = some (str ++ text)) ∧ (text = [] ↔ lines = []) ∧
    ∃ ws, text = textOf (if lines = [] then none else some head) ws ∧ List.Forall₂ Prints ws lines

/-- Counts that do not decrease from bucket to bucket. -/
def Nondecreasing (boundaries values : List ℚ) : Prop :=
  ((reportBuckets boundaries values).map Prod.snd).Pairwise (· ≤ ·)

theorem nondecreasing_reportBuckets (hsorted : boundaries.Pairwise (· < ·)) (values : List ℚ) :
    Nondecreasing boundaries values := by
  have hle : ∀ p : ℚ → Bool, (values.countP p : ℤ) ≤ values.length := fun p => by
    exact_mod_cast List.countP_le_length
  rw [Nondecreasing, reportBuckets, List.map_append, List.map_map, List.pairwise_append]
  refine ⟨?_, List.pairwise_singleton _ _, fun n hn m hm => ?_⟩
  · refine List.pairwise_map.mpr (hsorted.imp fun {a b} hab => ?_)
    have hmono := List.countP_mono_left (l := values) (p := fun v => v ≤ a) (q := fun v => v ≤ b)
      fun v _ hv => decide_eq_true ((of_decide_eq_true hv).trans hab.le)
    exact Int.ofNat_le.mpr hmono
  · obtain ⟨b, -, rfl⟩ := List.mem_map.mp hn
    rw [List.mem_singleton.mp hm]
    exact hle _

theorem serializeHead_ne_nil (h : Head) : h.serializeHead [] ≠ [] := by
  intro hnil
  have hlength := congrArg List.length hnil
  have hnewline : ascii "\n" = [newline] := by decide
  rw [Head.serializeHead, hnewline, List.length_append, List.length_singleton,
    List.length_nil] at hlength
  omega

theorem renders_ofCount (valueType : ValueType) (n : ℤ) :
    Renders (valueType.ofCount n).toString n := by
  cases valueType with
  | int64 => exact Or.inr ⟨n, rfl, rfl⟩
  | double => exact Or.inl rfl

/-- An integer is printed as one number only. -/
theorem renders_integer_iff (n : ℤ) (q : ℚ) :
    Renders (Number.integer n).toString q ↔ (n : ℚ) = q := by
  constructor
  · rintro (hdouble | ⟨m, hm, hinteger⟩)
    · exact absurd hdouble (Number.toString_integer_ne_double n q)
    · rw [Number.integer_inj hinteger, hm]
  · exact fun h => Or.inr ⟨n, h, rfl⟩

theorem newline_notMem_of_renders {value : Bytes} {q : ℚ} (h : Renders value q) :
    newline ∉ value := by
  rcases h with rfl | ⟨n, -, rfl⟩
  · exact newline_notMem_of_isToken (Number.double q).isToken_toString
  · exact newline_notMem_of_isToken (Number.integer n).isToken_toString

/-- All of a written line but its number. -/
def front (w : Written) : Bytes × Bytes × List (Bytes × Bytes) :=
  (w.gap, w.sample.name, w.sample.labels)

theorem map_front_of_prints {ws : List Written} {lines : List Line}
    (h : List.Forall₂ Prints ws lines) :
    ws.map front = lines.map fun l => ([], l.name, l.labels) := by
  induction h with
  | nil => rfl
  | @cons w l ws lines hw h ih =>
    have hfront : front w = ([], l.name, l.labels) :=
      Prod.ext hw.gap (Prod.ext hw.name hw.labels)
    rw [List.map_cons, List.map_cons, hfront, ih]

theorem newline_notMem_of_prints {ws : List Written} {lines : List Line}
    (h : List.Forall₂ Prints ws lines) : ∀ w ∈ ws, newline ∉ w.sample.value := by
  induction h with
  | nil => exact fun w hw => absurd hw List.not_mem_nil
  | cons hl _ ih => exact List.forall_mem_cons.mpr ⟨newline_notMem_of_renders hl.number, ih⟩

theorem map_prelude_eq {ws ws' : List Written} (h : ws.map front = ws'.map front) :
    ws.map Written.prelude = ws'.map Written.prelude := by
  have hprelude : Written.prelude = (fun p : Bytes × Bytes × List (Bytes × Bytes) =>
      Written.prelude ⟨p.1, ⟨p.2.1, p.2.2, []⟩⟩) ∘ front := rfl
  rw [hprelude, ← List.map_map, ← List.map_map, h]

/-- A text shows the lines that are written, and no others. -/
theorem shows_iff {serialize : Bytes → Option Bytes} {head : Head} {lines : List Line}
    {ws : List Written}
    (hserialize : ∀ str, serialize str =
      some (str ++ textOf (if lines = [] then none else some head) ws))
    (hfront : ws.map front = lines.map fun l => ([], l.name, l.labels))
    (hnewline : ∀ w ∈ ws, newline ∉ w.sample.value) :
    Shows serialize head lines ↔ List.Forall₂ Prints ws lines := by
  constructor
  · rintro ⟨text, htext, -, ws', rfl, hws'⟩
    have heq := Option.some_inj.mp ((hserialize []).symm.trans (htext []))
    have hlines : ws.flatMap Written.text = ws'.flatMap Written.text :=
      List.append_cancel_left (List.append_cancel_left heq)
    have hfront' : ws.map front = ws'.map front := hfront.trans (map_front_of_prints hws').symm
    have hvalues := flatMap_inj (map_prelude_eq hfront') hnewline (newline_notMem_of_prints hws')
      hlines
    -- nothing of a line is left but its number
    have hpair : ws.map (fun w => (front w, w.sample.value)) =
        ws'.map fun w => (front w, w.sample.value) := by
      have hzip := congrArg₂ List.zip hfront' hvalues
      rwa [List.zip_map', List.zip_map'] at hzip
    have hinj : Function.Injective fun w : Written => (front w, w.sample.value) := by
      rintro ⟨gap, name, labels, value⟩ ⟨gap', name', labels', value'⟩ h
      simp only [front, Prod.mk.injEq] at h
      obtain ⟨⟨rfl, rfl, rfl⟩, rfl⟩ := h
      rfl
    rwa [List.map_injective_iff.mpr hinj hpair]
  · intro h
    refine ⟨_, hserialize, ?_, ws, rfl, h⟩
    by_cases hlines : lines = []
    · rw [hlines] at h
      rw [List.forall₂_nil_right_iff.mp h]
      exact iff_of_true (by simp [textOf, hlines]) hlines
    · refine iff_of_false (fun hnil => ?_) hlines
      rw [if_neg hlines] at hnil
      exact serializeHead_ne_nil head (List.append_eq_nil_iff.mp hnil).1

/-! ### Static histograms -/

/-- What both kinds write for the values of a series is what is to be shown, but for the sum. -/
theorem prints_buckets (hsorted : boundaries.Pairwise (· < ·)) (valueType : ValueType)
    (name : Bytes) (labels : List (Bytes × Bytes)) (values : List ℚ) :
    List.Forall₂ Prints
      ((thresholdSamples (name ++ ascii "_bucket") (ascii "le") labels
        (bucketLines valueType (boundaries.map .double)
          (counters (bucketOf boundaries) (boundaries.length + 1) values))).map (Written.mk []))
      ((reportBuckets boundaries values).map fun (le, n) =>
        ⟨name ++ ascii "_bucket", labels ++ [(ascii "le", le)], n⟩) := by
  rw [bucketLines_counters hsorted, thresholdSamples, List.map_map, List.map_map]
  induction reportBuckets boundaries values with
  | nil => exact List.Forall₂.nil
  | cons b bs ih => exact List.Forall₂.cons ⟨rfl, rfl, rfl, renders_ofCount valueType b.2⟩ ih

theorem sum_counters (boundaries values : List ℚ) :
    (counters (bucketOf boundaries) (boundaries.length + 1) values).sum = values.length := by
  have h := sum_range_countP (boundaries.length + 1) (bucketOf boundaries)
    (fun v => Nat.lt_succ_of_le (bucketOf_le v)) values
  rw [counters, ← h, Nat.cast_list_sum, List.map_map]
  rfl

/-- What a static histogram adds up: whole parts, and nothing of a negative value. -/
def gaugeSum (values : List ℚ) : ℤ := (values.map fun v => max (toInt64 v) 0).sum

/-- A new static histogram with boundaries in order, and the values that it observes. -/
structure StaticRun where
  valueType : ValueType
  head : Head
  labels : Labels
  boundaries : List ℚ
  sorted : boundaries.Pairwise (· < ·)
  values : List ℚ
  integral : valueType = .int64 → ∀ v ∈ values, ∃ n : ℤ, v = n

namespace StaticRun

variable (r : StaticRun)

/-- The constructor. -/
def new : StaticHistogram where
  valueType := r.valueType
  head := r.head
  labels := r.labels
  bucketBoundaries := r.boundaries.map .double
  bucketCounts := List.replicate (r.boundaries.length + 1) 0
  sum := 0
  length_eq := by rw [List.length_replicate, List.length_map]

def histogram : StaticHistogram := r.values.foldl StaticHistogram.observe r.new

end StaticRun

/-- A histogram after some values. -/
structure Observed (r : StaticRun) (m : StaticHistogram) (values : List ℚ) : Prop where
  valueType : m.valueType = r.valueType
  head : m.head = r.head
  labels : m.labels = r.labels
  bucketBoundaries : m.bucketBoundaries = r.boundaries.map .double
  bucketCounts : m.bucketCounts =
    counters (bucketOf r.boundaries) (r.boundaries.length + 1) values
  sum : m.sum = gaugeSum values

theorem counterInc_toInt64 (sum : ℤ) (value : ℚ) :
    counterInc sum (toInt64 value) = sum + max (toInt64 value) 0 := by
  rw [counterInc]
  split_ifs with h
  · rw [max_eq_right h.le, add_zero]
  · rw [max_eq_left (not_lt.mp h)]

theorem observed_new (r : StaticRun) : Observed r r.new [] where
  valueType := rfl
  head := rfl
  labels := rfl
  bucketBoundaries := rfl
  bucketCounts := by
    rw [StaticRun.new, counters]
    simp
  sum := rfl

theorem Observed.observe {r : StaticRun} {m : StaticHistogram} {values : List ℚ}
    (h : Observed r m values) (value : ℚ) : Observed r (m.observe value) (values ++ [value]) where
  valueType := h.valueType
  head := h.head
  labels := h.labels
  bucketBoundaries := h.bucketBoundaries
  bucketCounts := by
    rw [StaticHistogram.observe_bucketCounts, h.bucketBoundaries, h.bucketCounts, bucketIndex_eq,
      counters_concat]
  sum := by
    rw [StaticHistogram.observe_sum, h.sum, counterInc_toInt64, gaugeSum, gaugeSum, List.map_append,
      List.sum_append, List.map_singleton, List.sum_singleton]

/-- A histogram after all its values. -/
theorem observed_histogram (r : StaticRun) : Observed r r.histogram r.values := by
  have hrun : ∀ values, Observed r (values.foldl StaticHistogram.observe r.new) values := by
    intro values
    induction values using List.reverseRecOn with
    | nil => exact observed_new r
    | append_singleton values value ih =>
      rw [List.foldl_append]
      exact ih.observe value
  exact hrun r.values

theorem forall₂_append_iff {α β : Type*} {R : α → β → Prop} {as as' : List α} {bs bs' : List β}
    (h : List.Forall₂ R as bs) :
    List.Forall₂ R (as ++ as') (bs ++ bs') ↔ List.Forall₂ R as' bs' := by
  induction h with
  | nil => exact Iff.rfl
  | cons hab _ ih =>
    rw [List.cons_append, List.cons_append, List.forall₂_cons, ih]
    exact and_iff_right hab

namespace StaticRun

variable (r : StaticRun)

/-- The lines that the values stand for. The sum and the count of a static histogram are written
without labels. -/
def lines : List Line :=
  if r.values = [] then []
  else reportLines r.head.name r.labels.entries [] r.boundaries r.values

theorem lines_eq_nil_iff : r.lines = [] ↔ r.values = [] := by
  rw [lines]
  split_ifs with h
  · exact iff_of_true rfl h
  · exact iff_of_false (by simp [reportLines]) h

/-- All counters are zero if and only if nothing was observed. -/
theorem all_bucketCounts_iff :
    (r.histogram.bucketCounts.all fun counter => counter = 0) = true ↔ r.values = [] := by
  have hcounts := (observed_histogram r).bucketCounts
  constructor
  · intro h
    have hsum : r.histogram.bucketCounts.sum = 0 := by
      refine List.sum_eq_zero fun counter hcounter => ?_
      exact of_decide_eq_true (List.all_eq_true.mp h counter hcounter)
    rw [hcounts, sum_counters r.boundaries] at hsum
    exact List.eq_nil_of_length_eq_zero (by exact_mod_cast hsum)
  · intro h
    rw [hcounts, h, counters, List.all_map, List.all_eq_true]
    exact fun _ _ => rfl

theorem serialize_eq (str : Bytes) :
    r.histogram.serialize str =
      some (str ++ textOf (if r.lines = [] then none else some r.head) r.histogram.written) := by
  have hprinted : (AnyMetric.staticHistogram r.histogram).printed =
      if r.lines = [] then none else some r.head := by
    rw [AnyMetric.printed, (observed_histogram r).head]
    simp only [all_bucketCounts_iff, lines_eq_nil_iff]
  rw [StaticHistogram.serialize_eq, hprinted]

/-- The lines that are written for at least one value. -/
theorem written_eq (h : r.values ≠ []) :
    r.histogram.written =
      (thresholdSamples (r.head.name ++ ascii "_bucket") (ascii "le") r.labels.entries
        (bucketLines r.valueType (r.boundaries.map .double)
          (counters (bucketOf r.boundaries) (r.boundaries.length + 1) r.values))).map
            (Written.mk []) ++
      (totalSamples r.head.name [] (.integer (gaugeSum r.values))
        (r.valueType.ofCount r.values.length)).map (Written.mk []) := by
  have ho := observed_histogram r
  rw [StaticHistogram.written, if_neg fun hall => h ((all_bucketCounts_iff r).mp hall),
    ho.valueType,
    ho.head, ho.labels, ho.bucketBoundaries, ho.bucketCounts, ho.sum, sum_counters r.boundaries]

/-- The text shows the values exactly where the gauge has added all of them up. -/
theorem shows_iff : Shows r.histogram.serialize r.head r.lines ↔
    (gaugeSum r.values : ℚ) = r.values.sum := by
  by_cases h : r.values = []
  · have hlines : r.lines = [] := (lines_eq_nil_iff r).mpr h
    have hwritten : r.histogram.written = [] :=
      if_pos ((all_bucketCounts_iff r).mpr h)
    refine iff_of_true ?_ (by rw [h]; rfl)
    refine (Exposition.shows_iff (serialize_eq r) ?_ ?_).mpr ?_
    · rw [hwritten, hlines]
      rfl
    · rw [hwritten]
      exact fun w hw => absurd hw List.not_mem_nil
    · rw [hwritten, hlines]
      exact List.Forall₂.nil
  · have hlines : r.lines = reportLines r.head.name r.labels.entries [] r.boundaries r.values :=
      if_neg h
    have hbuckets := prints_buckets r.sorted r.valueType r.head.name r.labels.entries r.values
    have hfront := map_front_of_prints hbuckets
    rw [Exposition.shows_iff (serialize_eq r), written_eq r h, hlines, reportLines,
      forall₂_append_iff hbuckets, totalSamples, List.map_cons, List.map_cons, List.map_nil,
      List.forall₂_cons, List.forall₂_cons]
    · constructor
      · rintro ⟨hsum, -⟩
        exact (renders_integer_iff _ _).mp hsum.number
      · intro hsum
        exact ⟨⟨rfl, rfl, rfl, (renders_integer_iff _ _).mpr hsum⟩,
          ⟨rfl, rfl, rfl, by exact_mod_cast renders_ofCount r.valueType r.values.length⟩,
          List.Forall₂.nil⟩
    · rw [written_eq r h, hlines, reportLines, List.map_append, List.map_append, hfront]
      rfl
    · rw [written_eq r h]
      intro w hw
      rcases List.mem_append.mp hw with hw | hw
      · exact newline_notMem_of_prints hbuckets w hw
      · exact newline_notMem_of_isToken (isWritten_totalSamples rfl
          (fun _ hl => absurd hl List.not_mem_nil) hw).token

end StaticRun

end Yalantinglibs.Metric.Exposition
