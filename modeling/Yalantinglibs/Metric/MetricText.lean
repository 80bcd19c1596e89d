import Mathlib.Data.List.Basic
import Yalantinglibs.Metric.NumberText

/-!
# Metrics as they are serialized

`serialize` of the counters, histograms and summaries of `metric/counter.hpp`,
`metric/histogram.hpp` and `metric/summary.hpp`, with the texts of labels of `metric/metric.hpp`. A
gauge is a counter of another type. `pop_back` of an empty string means nothing, and what comes to
that is undefined.

## Main definitions

* `buildLabelString`, `joinString`, `Head.serializeHead` — what the metrics share
* `StaticCounter`, `DynamicCounter`, `StaticHistogram`, `DynamicHistogramText`, `StaticSummary`,
  `DynamicSummary` — the metrics, with what is read when they are serialized
* `serialize` of each

## Main results

* `buildLabelString_of_ne_nil`, `buildLabelString_nil` — labels are written, unless there are none
-/

set_option autoImplicit false

namespace Yalantinglibs.Metric.Exposition

open ExpositionText

/-! ### Labels -/

/-- `append_escaped_label_value`. -/
def appendEscapedLabelValue (str value : Bytes) : Bytes :=
  value.foldl (fun str ch =>
    if ch = backslash then str ++ [backslash, backslash]
    else if ch = quote then str ++ [backslash, quote]
    else if ch = newline then str ++ [backslash, 0x6E]
    else str ++ [ch]) str

/-- `pop_back`, which is undefined of an empty string. -/
def popBack (str : Bytes) : Option Bytes := if str.isEmpty then none else some str.dropLast

/-- `build_label_string`, of a map as of names and values side by side, and `build_string` of a
static counter. -/
def buildLabelString (str : Bytes) (labels : List (Bytes × Bytes)) : Option Bytes :=
  popBack (labels.foldl (fun str (k, v) =>
    appendEscapedLabelValue (str ++ k ++ ascii "=\"") v ++ ascii "\",") str)

/-- `join_string`. -/
def joinString (str1 str2 : Bytes) : Bytes :=
  if str1.isEmpty then str2
  else if str2.isEmpty then str1
  else str1 ++ ascii "," ++ str2

/-- A map of static labels, whose names are identifiers. -/
structure Labels where
  entries : List (Bytes × Bytes)
  valid : ∀ e ∈ entries, validLabelName e.1

/-- The names of labels, which are identifiers. -/
structure LabelsName where
  names : List Bytes
  valid : ∀ name ∈ names, validLabelName name

/-! ### Heads -/

inductive MetricType
  | counter
  | gauge
  | histogram
  | summary
  | nil
  deriving DecidableEq

/-- `metric_name`. -/
def MetricType.metricName : MetricType → Bytes
  | .counter => ascii "counter"
  | .gauge => ascii "gauge"
  | .histogram => ascii "histogram"
  | .summary => ascii "summary"
  | .nil => ascii "unknown"

/-- What a `metric_t` is besides its labels. -/
structure Head where
  type : MetricType
  name : Bytes
  help : Bytes

/-- `serialize_head`. -/
def Head.serializeHead (h : Head) (str : Bytes) : Bytes :=
  let str := str ++ ascii "# HELP " ++ h.name ++ ascii " " ++ h.help ++ ascii "\n"
  str ++ ascii "# TYPE " ++ h.name ++ ascii " " ++ h.type.metricName ++ ascii "\n"

/-- What the dynamic metrics share. The constructor of a hybrid metric has static labels, too, and
each series has a value for each name. -/
structure Dynamic (V : Type*) where
  head : Head
  staticLabels : Option Labels
  labelsName : LabelsName
  map : List (List Bytes × V)
  length_eq : ∀ e ∈ map, e.1.length = labelsName.names.length
  nodup : (map.map Prod.fst).Nodup

/-- `static_labels_str_`, which the constructor of a hybrid metric builds. -/
def Dynamic.staticLabelsStr {V : Type*} (m : Dynamic V) : Option Bytes :=
  match m.staticLabels with
  | none => some []
  | some labels => buildLabelString [] labels.entries

/-! ### Counters -/

/-- `basic_static_counter`, and `basic_static_gauge`. -/
structure StaticCounter where
  head : Head
  labels : Labels
  value : Number
  hasChange : Bool

def Number.isZero (n : Number) : Bool := n = .integer 0 || n = .double 0

namespace StaticCounter

variable (m : StaticCounter)

def serializeDefaultLabel (str : Bytes) : Option Bytes := do
  let str := str ++ m.head.name
  let str ←
    if m.labels.entries.isEmpty then some (str ++ ascii " ")
    else (buildLabelString (str ++ [openBrace]) m.labels.entries).map fun str =>
      str ++ [closeBrace, space]
  return str ++ m.value.toString ++ ascii "\n"

def serialize (str : Bytes) : Option Bytes :=
  if Number.isZero m.value && !m.hasChange then some str
  else m.serializeDefaultLabel (m.head.serializeHead str)

end StaticCounter

/-- `basic_dynamic_counter`, and `basic_dynamic_gauge`. -/
abbrev DynamicCounter := Dynamic Number

namespace DynamicCounter

/-- `build_string`. -/
def buildString (staticLabelsStr str : Bytes) (labels : List (Bytes × Bytes)) : Option Bytes :=
  let str := str ++ staticLabelsStr
  let str := if !staticLabelsStr.isEmpty && !labels.isEmpty then str ++ ascii "," else str
  buildLabelString str labels

variable (m : DynamicCounter)

def serializeMap (staticLabelsStr : Bytes) (str : Bytes) : Option Bytes :=
  m.map.foldlM (fun str (labelsValue, val) => do
    let str := str ++ m.head.name
    let str ←
      if m.labelsName.names.isEmpty then some (str ++ ascii " ")
      else (buildString staticLabelsStr (str ++ [openBrace])
        (m.labelsName.names.zip labelsValue)).map fun str => str ++ [closeBrace, space]
    return str ++ val.toString ++ ascii "\n") str

def serialize (str : Bytes) : Option Bytes := do
  let staticLabelsStr ← m.staticLabelsStr
  if m.map.isEmpty then some str
  else (serializeMap m staticLabelsStr []).map fun valueStr =>
    if valueStr.isEmpty then str else m.head.serializeHead str ++ valueStr

end DynamicCounter

/-! ### Histograms -/

/-- `value_type`. -/
inductive ValueType
  | int64
  | double
  deriving DecidableEq

/-- A count in the type of the values. -/
def ValueType.ofCount : ValueType → ℤ → Number
  | .int64, n => .integer n
  | .double, n => .double n

/-- The labels `le` of the buckets. -/
def leTexts (bucketBoundaries : List Number) : List Bytes :=
  bucketBoundaries.map Number.toString ++ [ascii "+Inf"]

/-- `basic_static_histogram`, whose counters and sum are of type `int64_t`. -/
structure StaticHistogram where
  valueType : ValueType
  head : Head
  labels : Labels
  bucketBoundaries : List Number
  bucketCounts : List ℤ
  sum : ℤ
  length_eq : bucketCounts.length = bucketBoundaries.length + 1

namespace StaticHistogram

variable (m : StaticHistogram)

/-- The loop over the buckets, with the count so far. -/
def serializeBuckets (str : Bytes) : Option (Bytes × ℤ) :=
  (m.bucketCounts.zip (leTexts m.bucketBoundaries)).foldlM (fun (str, count) (counter, le) => do
    let str := str ++ m.head.name ++ ascii "_bucket" ++ [openBrace]
    let str ←
      if m.labels.entries.isEmpty then some str
      else (buildLabelString str m.labels.entries).map fun str => str ++ ascii ","
    let str := str ++ ascii "le=\"" ++ le ++ [quote, closeBrace, space]
    let count := count + counter
    return (str ++ (m.valueType.ofCount count).toString ++ ascii "\n", count)) (str, 0)

def serialize (str : Bytes) : Option Bytes :=
  if m.bucketCounts.all fun counter => counter = 0 then some str
  else do
    let str := m.head.serializeHead str
    let (str, count) ← m.serializeBuckets str
    let str := str ++ m.head.name ++ ascii "_sum " ++ (Number.integer m.sum).toString ++ ascii "\n"
    return str ++ m.head.name ++ ascii "_count " ++ (m.valueType.ofCount count).toString ++
      ascii "\n"

end StaticHistogram

/-- What a dynamic histogram has for some label values. -/
structure HistogramSeries where
  bucketCounts : List ℤ
  sum : Number

/-- `basic_dynamic_histogram`. -/
structure DynamicHistogramText extends Dynamic HistogramSeries where
  valueType : ValueType
  bucketBoundaries : List Number
  bucketCounts_length : ∀ e ∈ map, e.2.bucketCounts.length = bucketBoundaries.length + 1

namespace DynamicHistogramText

variable (m : DynamicHistogramText)

/-- The loop over the buckets, with the count so far. -/
def serializeBuckets (staticLabelsStr : Bytes) (labels : List (Bytes × Bytes))
    (bucketCounts : List ℤ) : Option (Bytes × ℤ) :=
  (bucketCounts.zip (leTexts m.bucketBoundaries)).foldlM (fun (valueStr, count) (counter, le) => do
    let valueStr := valueStr ++ m.head.name ++ ascii "_bucket" ++ [openBrace]
    let dynamicLabelsStr ←
      if labels.isEmpty then some []
      else (buildLabelString [] labels).map fun str => str ++ ascii ","
    let valueStr := valueStr ++ joinString staticLabelsStr dynamicLabelsStr
    let valueStr := valueStr ++ ascii "le=\"" ++ le ++ [quote, closeBrace, space]
    let count := count + counter
    return (valueStr ++ (m.valueType.ofCount count).toString ++ ascii "\n", count)) ([], 0)

/-- What is appended for some label values. -/
def serializeSeries (staticLabelsStr : Bytes) (str : Bytes) (e : List Bytes × HistogramSeries) :
    Option Bytes :=
  let labels := m.labelsName.names.zip e.1
  if e.2.bucketCounts.sum = 0 then some str
  else do
    let (valueStr, count) ← m.serializeBuckets staticLabelsStr labels e.2.bucketCounts
    let str := str ++ valueStr
    let dynamicLabelsStr ← buildLabelString [] labels
    let str := str ++ m.head.name ++ ascii "_sum" ++ [openBrace]
    let str := str ++ joinString staticLabelsStr dynamicLabelsStr ++ [closeBrace, space]
    let str := str ++ e.2.sum.toString ++ ascii "\n"
    let str := str ++ m.head.name ++ ascii "_count" ++ [openBrace]
    let str := str ++ joinString staticLabelsStr dynamicLabelsStr ++ [closeBrace, space]
    return str ++ (m.valueType.ofCount count).toString ++ ascii "\n"

def serialize (str : Bytes) : Option Bytes := do
  let staticLabelsStr ← m.staticLabelsStr
  if m.map.isEmpty then some str
  else m.map.foldlM (m.serializeSeries staticLabelsStr) (m.head.serializeHead str)

end DynamicHistogramText

/-! ### Summaries -/

/-- `summary_t`, with what its implementation gives. -/
structure StaticSummary where
  head : Head
  labels : Labels
  quantiles : List Number
  rates : List Number
  sum : Number
  count : ℕ
  hasRefreshed : Bool
  length_le : quantiles.length ≤ rates.length

namespace StaticSummary

variable (m : StaticSummary)

/-- The loop over the quantiles. -/
def serializeQuantiles (str : Bytes) : Option Bytes :=
  (m.quantiles.zip m.rates).foldlM (fun str (quantile, rate) => do
    let str := str ++ m.head.name ++ [openBrace]
    let str ←
      if m.labels.entries.isEmpty then some str
      else (buildLabelString str m.labels.entries).map fun str => str ++ ascii ","
    let str := str ++ ascii "quantile=\"" ++ quantile.toString ++ [quote, closeBrace, space]
    return str ++ rate.toString ++ ascii "\n") str

def serialize (str : Bytes) : Option Bytes :=
  if m.quantiles.isEmpty then some str
  else if m.count = 0 && !m.hasRefreshed then some str
  else do
    let str ← m.serializeQuantiles (m.head.serializeHead str)
    let str := str ++ m.head.name ++ ascii "_sum " ++ m.sum.toString ++ ascii "\n"
    return str ++ m.head.name ++ ascii "_count " ++ (Number.integer m.count).toString ++ ascii "\n"

end StaticSummary

/-- What a dynamic summary has for some label values. -/
structure SummarySeries where
  rates : List Number
  sum : Number
  count : ℕ

/-- `basic_dynamic_summary`. -/
structure DynamicSummary extends Dynamic SummarySeries where
  quantiles : List Number
  length_le : ∀ e ∈ map, quantiles.length ≤ e.2.rates.length

namespace DynamicSummary

variable (m : DynamicSummary)

/-- What is appended for some label values. -/
def serializeSeries (staticLabelsStr : Bytes) (str : Bytes) (e : List Bytes × SummarySeries) :
    Option Bytes := do
  let dynamicLabelsStr ← buildLabelString [] (m.labelsName.names.zip e.1)
  let str := (m.quantiles.zip e.2.rates).foldl (fun str (quantile, rate) =>
    let str := str ++ m.head.name ++ [openBrace]
    let str := str ++ joinString staticLabelsStr dynamicLabelsStr ++ ascii ","
    let str := str ++ ascii "quantile=\"" ++ quantile.toString ++ [quote, closeBrace, space]
    str ++ rate.toString ++ ascii "\n") str
  let str := str ++ m.head.name ++ ascii "_sum " ++ [openBrace]
  let str := str ++ joinString staticLabelsStr dynamicLabelsStr ++ [closeBrace, space]
  let str := str ++ e.2.sum.toString ++ ascii "\n"
  let str := str ++ m.head.name ++ ascii "_count " ++ [openBrace]
  let str := str ++ joinString staticLabelsStr dynamicLabelsStr ++ [closeBrace, space]
  return str ++ (Number.integer e.2.count).toString ++ ascii "\n"

def serialize (str : Bytes) : Option Bytes := do
  let staticLabelsStr ← m.staticLabelsStr
  m.map.foldlM (m.serializeSeries staticLabelsStr) str

end DynamicSummary

/-! ### Labels are written -/

theorem appendEscapedLabelValue_eq (str value : Bytes) :
    appendEscapedLabelValue str value = str ++ escape value := by
  rw [appendEscapedLabelValue]
  induction value generalizing str with
  | nil => exact (List.append_nil str).symm
  | cons ch value ih =>
    have hescape : escape (ch :: value) = escapeByte ch ++ escape value := List.flatMap_cons
    rw [List.foldl_cons, ih, hescape, escapeByte]
    split_ifs <;> exact List.append_assoc _ _ _

/-- Each label comes with a comma behind it. -/
theorem foldl_labels (str : Bytes) (labels : List (Bytes × Bytes)) :
    labels.foldl (fun str (k, v) =>
      appendEscapedLabelValue (str ++ k ++ ascii "=\"") v ++ ascii "\",") str =
      str ++ labels.flatMap fun label => renderLabel label ++ [comma] := by
  induction labels generalizing str with
  | nil => exact (List.append_nil str).symm
  | cons label labels ih =>
    have hlabel : appendEscapedLabelValue (str ++ label.1 ++ ascii "=\"") label.2 ++ ascii "\"," =
        str ++ (renderLabel label ++ [comma]) := by
      rw [appendEscapedLabelValue_eq, renderLabel]
      have hequal : ascii "=\"" = [equalSign, quote] := by decide
      have hcomma : ascii "\"," = [quote, comma] := by decide
      rw [hequal, hcomma]
      simp
    rw [List.foldl_cons, ih, List.flatMap_cons]
    dsimp only
    rw [hlabel, List.append_assoc]

theorem flatMap_labels {labels : List (Bytes × Bytes)} (h : labels ≠ []) :
    (labels.flatMap fun label => renderLabel label ++ [comma]) =
      renderLabels labels ++ [comma] := by
  induction labels with
  | nil => exact absurd rfl h
  | cons label labels ih =>
    by_cases hnil : labels = []
    · rw [hnil, List.flatMap_singleton]
      rfl
    · rw [List.flatMap_cons, ih hnil, renderLabels_cons label hnil]
      simp

/-- The comma behind the last label is taken away. -/
theorem buildLabelString_of_ne_nil (str : Bytes) {labels : List (Bytes × Bytes)} (h : labels ≠ []) :
    buildLabelString str labels = some (str ++ renderLabels labels) := by
  have hne : (str ++ (renderLabels labels ++ [comma])).isEmpty = false := by simp
  rw [buildLabelString, foldl_labels, flatMap_labels h, popBack, hne, ← List.append_assoc,
    List.dropLast_concat]
  rfl

/-- Without labels there is no comma to take away. -/
theorem buildLabelString_nil : buildLabelString [] [] = none := rfl

theorem renderLabels_eq_nil_iff {labels : List (Bytes × Bytes)} :
    renderLabels labels = [] ↔ labels = [] := by
  constructor
  · intro h
    have hle := length_le_renderLabels labels
    rw [h] at hle
    exact List.eq_nil_of_length_eq_zero (Nat.le_zero.mp hle)
  · rintro rfl
    rfl

theorem renderLabels_append {a b : List (Bytes × Bytes)} (ha : a ≠ []) (hb : b ≠ []) :
    renderLabels (a ++ b) = renderLabels a ++ comma :: renderLabels b := by
  induction a with
  | nil => exact absurd rfl ha
  | cons label a ih =>
    by_cases hnil : a = []
    · rw [hnil, List.singleton_append, renderLabels_cons label hb]
      rfl
    · have hne : a ++ b ≠ [] := fun h => hnil (List.append_eq_nil_iff.mp h).1
      rw [List.cons_append, renderLabels_cons label hne, ih hnil, renderLabels_cons label hnil]
      simp

/-- Texts of labels are joined to the text of all of them. -/
theorem joinString_renderLabels (a b : List (Bytes × Bytes)) :
    joinString (renderLabels a) (renderLabels b) = renderLabels (a ++ b) := by
  rw [joinString]
  by_cases ha : a = []
  · rw [ha]
    rfl
  by_cases hb : b = []
  · rw [hb, List.append_nil]
    split_ifs with h h'
    · exact (List.isEmpty_iff.mp h).symm
    · rfl
    · exact absurd rfl h'
  have hne : ∀ {l : List (Bytes × Bytes)}, l ≠ [] → ¬ (renderLabels l).isEmpty := fun hl h =>
    hl (renderLabels_eq_nil_iff.mp (List.isEmpty_iff.mp h))
  rw [if_neg (hne ha), if_neg (hne hb), renderLabels_append ha hb, List.append_assoc]
  rfl

/-! ### Loops that append -/

/-- A loop that appends something for each element, and is defined. -/
theorem foldl_append {α : Type*} {f : Bytes → α → Bytes} {g : α → Bytes}
    (h : ∀ str e, f str e = str ++ g e) (str : Bytes) (l : List α) :
    l.foldl f str = str ++ l.flatMap g := by
  induction l generalizing str with
  | nil => exact (List.append_nil str).symm
  | cons e l ih => rw [List.foldl_cons, h, ih, List.flatMap_cons, List.append_assoc]

/-- A loop that appends something for each element. -/
theorem foldlM_append {α : Type*} {f : Bytes → α → Option Bytes} {g : α → Bytes} {l : List α}
    (h : ∀ e ∈ l, ∀ str, f str e = some (str ++ g e)) (str : Bytes) :
    l.foldlM f str = some (str ++ l.flatMap g) := by
  induction l generalizing str with
  | nil => exact congrArg some (List.append_nil str).symm
  | cons e l ih =>
    rw [List.foldlM_cons, h e List.mem_cons_self, Option.bind_eq_bind, Option.bind_some,
      ih fun e he => h e (List.mem_cons_of_mem _ he), List.flatMap_cons, List.append_assoc]

/-- A loop with a step that is undefined. -/
theorem foldlM_eq_none {α : Type*} {f : Bytes → α → Option Bytes} {l : List α} {e : α} (he : e ∈ l)
    (h : ∀ str, f str e = none) (str : Bytes) : l.foldlM f str = none := by
  induction l generalizing str with
  | nil => exact absurd he List.not_mem_nil
  | cons e' l ih =>
    rw [List.foldlM_cons]
    rcases List.mem_cons.mp he with rfl | he
    · rw [h]
      rfl
    · cases f str e' with
      | none => rfl
      | some str => exact ih he str

/-- The counts up to each bucket. -/
def cumulative : ℤ → List (ℤ × Bytes) → List (Bytes × ℤ)
  | _, [] => []
  | count, (counter, le) :: rest => (le, count + counter) :: cumulative (count + counter) rest

/-- A loop that appends something for each bucket and the count up to it. -/
theorem foldlM_cumulative {f : Bytes × ℤ → ℤ × Bytes → Option (Bytes × ℤ)} {g : Bytes × ℤ → Bytes}
    (h : ∀ str count counter le, f (str, count) (counter, le) =
      some (str ++ g (le, count + counter), count + counter))
    (str : Bytes) (count : ℤ) (l : List (ℤ × Bytes)) :
    l.foldlM f (str, count) =
      some (str ++ (cumulative count l).flatMap g, count + (l.map Prod.fst).sum) := by
  induction l generalizing str count with
  | nil => simp [cumulative]
  | cons e l ih =>
    obtain ⟨counter, le⟩ := e
    rw [List.foldlM_cons, h, Option.bind_eq_bind, Option.bind_some, ih, cumulative,
      List.flatMap_cons, List.map_cons, List.sum_cons, List.append_assoc, add_assoc]

end Yalantinglibs.Metric.Exposition
