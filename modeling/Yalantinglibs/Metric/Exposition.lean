import Mathlib.Data.List.Basic
import Yalantinglibs.Metric.MetricText

/-!
# Samples and lines of metrics

What `serialize` writes is to be read under the grammar of the text format as one sample for each
series, bucket, quantile, sum and count, and each sample is to have the static labels of the metric
and those of its series. The code drops or misplaces labels: the sum and the count of a static
histogram or summary have none, a hybrid counter without dynamic labels has none either, and a
dynamic histogram or summary without any, or a hybrid metric without static labels, comes to
`pop_back` of an empty string. A line feed in the help text begins a line of its own, and thresholds
that are printed alike give one line twice.

## Main definitions

* `AnyMetric` — the six kinds of metrics
* `AnyMetric.samples` — the samples that a metric stands for
* `AnyMetric.Exposes` — what is written is read as these samples, and no two are of one series
* `AnyMetric.Exposable` — where that is so

## Main results

* `parseText_textOf_iff` — where lines are read as samples that have their names and numbers
* `serialize_eq` of each kind — the lines that are written
-/

set_option autoImplicit false

namespace Yalantinglibs.Metric.Exposition

open ExpositionText

/-! ### The samples of a metric -/

/-- The samples of buckets or quantiles. -/
def thresholdSamples (name key : Bytes) (labels : List (Bytes × Bytes))
    (lines : List (Bytes × Number)) : List Sample :=
  lines.map fun (threshold, n) => ⟨name, labels ++ [(key, threshold)], n.toString⟩

def totalSamples (name : Bytes) (labels : List (Bytes × Bytes)) (sum count : Number) :
    List Sample :=
  [⟨name ++ ascii "_sum", labels, sum.toString⟩, ⟨name ++ ascii "_count", labels, count.toString⟩]

/-- The buckets with the counts up to them. -/
def bucketLines (valueType : ValueType) (bucketBoundaries : List Number) (bucketCounts : List ℤ) :
    List (Bytes × Number) :=
  (cumulative 0 (bucketCounts.zip (leTexts bucketBoundaries))).map fun (le, count) =>
    (le, valueType.ofCount count)

def histogramSamples (valueType : ValueType) (name : Bytes) (labels : List (Bytes × Bytes))
    (bucketBoundaries : List Number) (bucketCounts : List ℤ) (sum : Number) : List Sample :=
  thresholdSamples (name ++ ascii "_bucket") (ascii "le") labels
      (bucketLines valueType bucketBoundaries bucketCounts) ++
    totalSamples name labels sum (valueType.ofCount bucketCounts.sum)

def quantileLines (quantiles rates : List Number) : List (Bytes × Number) :=
  (quantiles.zip rates).map fun (quantile, rate) => (quantile.toString, rate)

def summarySamples (name : Bytes) (labels : List (Bytes × Bytes)) (quantiles rates : List Number)
    (sum : Number) (count : ℕ) : List Sample :=
  thresholdSamples name (ascii "quantile") labels (quantileLines quantiles rates) ++
    totalSamples name labels sum (.integer count)

/-- The static labels, or none. -/
def Dynamic.static {V : Type*} (m : Dynamic V) : List (Bytes × Bytes) :=
  match m.staticLabels with
  | none => []
  | some labels => labels.entries

/-- All the labels of a series. -/
def Dynamic.labels {V : Type*} (m : Dynamic V) (labelsValue : List Bytes) : List (Bytes × Bytes) :=
  m.static ++ m.labelsName.names.zip labelsValue

/-- A metric of any kind. -/
inductive AnyMetric
  | staticCounter (m : StaticCounter)
  | dynamicCounter (m : DynamicCounter)
  | staticHistogram (m : StaticHistogram)
  | dynamicHistogram (m : DynamicHistogramText)
  | staticSummary (m : StaticSummary)
  | dynamicSummary (m : DynamicSummary)

/-- The lines of a head are comments: its name and its help text begin no line that is none. -/
def Head.IsQuiet (h : Head) : Prop :=
  Quiet (h.name ++ space :: h.help) ∧ Quiet (h.name ++ space :: h.type.metricName)

instance (h : Head) : Decidable h.IsQuiet :=
  inferInstanceAs (Decidable (Quiet (h.name ++ space :: h.help) ∧
    Quiet (h.name ++ space :: h.type.metricName)))

namespace AnyMetric

def serialize : AnyMetric → Bytes → Option Bytes
  | staticCounter m => m.serialize
  | dynamicCounter m => DynamicCounter.serialize m
  | staticHistogram m => m.serialize
  | dynamicHistogram m => m.serialize
  | staticSummary m => m.serialize
  | dynamicSummary m => m.serialize

/-- The samples that a metric stands for. -/
def samples : AnyMetric → List Sample
  | staticCounter m =>
    if Number.isZero m.value && !m.hasChange then []
    else [⟨m.head.name, m.labels.entries, m.value.toString⟩]
  | dynamicCounter m => m.map.map fun e => ⟨m.head.name, m.labels e.1, e.2.toString⟩
  | staticHistogram m =>
    if m.bucketCounts.all fun counter => counter = 0 then []
    else histogramSamples m.valueType m.head.name m.labels.entries m.bucketBoundaries
      m.bucketCounts (.integer m.sum)
  | dynamicHistogram m => m.map.flatMap fun e =>
    if e.2.bucketCounts.sum = 0 then []
    else histogramSamples m.valueType m.head.name (m.labels e.1) m.bucketBoundaries
      e.2.bucketCounts e.2.sum
  | staticSummary m =>
    if m.quantiles.isEmpty then []
    else if m.count = 0 && !m.hasRefreshed then []
    else summarySamples m.head.name m.labels.entries m.quantiles m.rates m.sum m.count
  | dynamicSummary m => m.map.flatMap fun e =>
    summarySamples m.head.name (m.labels e.1) m.quantiles e.2.rates e.2.sum e.2.count

/-- What is written is read as the samples, and no two of them are of one series. -/
def Exposes (m : AnyMetric) : Prop :=
  ∃ text, (∀ str, m.serialize str = some (str ++ text)) ∧ parseText text = some m.samples ∧
    (m.samples.map fun s => (s.name, s.labels)).Nodup

/-! ### Where the samples are read -/

/-- The constructor of a hybrid metric needs static labels. -/
def Constructed : AnyMetric → Prop
  | dynamicCounter m => ∀ labels ∈ m.staticLabels, labels.entries ≠ []
  | dynamicHistogram m => ∀ labels ∈ m.staticLabels, labels.entries ≠ []
  | dynamicSummary m => ∀ labels ∈ m.staticLabels, labels.entries ≠ []
  | _ => True

/-- The head, if it is written. -/
def printed : AnyMetric → Option Head
  | staticCounter m => if Number.isZero m.value && !m.hasChange then none else some m.head
  | dynamicCounter m => if m.map.isEmpty then none else some m.head
  | staticHistogram m =>
    if m.bucketCounts.all fun counter => counter = 0 then none else some m.head
  | dynamicHistogram m => if m.map.isEmpty then none else some m.head
  | staticSummary m =>
    if m.quantiles.isEmpty then none
    else if m.count = 0 && !m.hasRefreshed then none
    else some m.head
  | dynamicSummary _ => none

/-- The labels are those that a metric of the kind writes wherever it has to. -/
def Labelled : AnyMetric → Prop
  | staticCounter _ => True
  | dynamicCounter m => m.labelsName.names ≠ [] ∨ m.staticLabels = none
  | staticHistogram m => m.labels.entries = []
  | dynamicHistogram m => m.labelsName.names ≠ []
  | staticSummary m => m.labels.entries = []
  | dynamicSummary m => m.labelsName.names ≠ []

/-- The boundaries or quantiles. -/
def thresholds : AnyMetric → List Number
  | staticHistogram m => m.bucketBoundaries
  | dynamicHistogram m => m.bucketBoundaries
  | staticSummary m => m.quantiles
  | dynamicSummary m => m.quantiles
  | _ => []

/-- The samples are read: the lines of the head are comments, nothing is lost, and the thresholds
are printed differently. -/
structure Exposable (m : AnyMetric) : Prop where
  constructed : m.Constructed
  quiet : ∀ h ∈ m.printed, h.IsQuiet
  wellFormed : ∀ s ∈ m.samples, validName s.name ∧ isFloat s.value
  labelled : m.samples ≠ [] → m.Labelled
  thresholds : m.samples ≠ [] → (m.thresholds.map Number.toString).Nodup

end AnyMetric

/-! ### Texts of metrics -/

theorem serializeHead_eq (h : Head) (str : Bytes) :
    h.serializeHead str = str ++ h.serializeHead [] := by
  simp only [Head.serializeHead, List.append_assoc, List.nil_append]

/-- A head, if there is one, and samples. -/
def textOf (head : Option Head) (ws : List Written) : Bytes :=
  (match head with
    | none => []
    | some h => h.serializeHead []) ++ ws.flatMap Written.text

/-- What does not depend on the name and the number of a sample. -/
structure IsWritten (w : Written) : Prop where
  labels : ∀ label ∈ w.sample.labels, validLabelName label.1
  token : isToken w.sample.value
  gap : w.gap.all isBlank

theorem isComment_help (line : Bytes) : isComment (ascii "# HELP " ++ line) := by
  have hword : ascii "# HELP " = [0x23, 0x20, 0x48, 0x45, 0x4C, 0x50, 0x20] := by decide
  rw [hword]
  rfl

theorem isComment_type (line : Bytes) : isComment (ascii "# TYPE " ++ line) := by
  have hword : ascii "# TYPE " = [0x23, 0x20, 0x54, 0x59, 0x50, 0x45, 0x20] := by decide
  rw [hword]
  rfl

/-- A head adds no sample to a text if and only if it is quiet. -/
theorem parseText_serializeHead_iff (h : Head) {rest : Bytes} {samples more : List Sample}
    (hrest : parseText rest = some more) (hlen : samples.length = more.length) :
    parseText (h.serializeHead [] ++ rest) = some samples ↔ h.IsQuiet ∧ samples = more := by
  have htext : h.serializeHead [] ++ rest =
      (ascii "# HELP " ++ (h.name ++ space :: h.help)) ++
        newline :: ((ascii "# TYPE " ++ (h.name ++ space :: h.type.metricName)) ++
          newline :: rest) := by
    have hspace : ascii " " = [space] := by decide
    have hnewline : ascii "\n" = [newline] := by decide
    rw [Head.serializeHead, hspace, hnewline]
    simp only [List.append_assoc, List.cons_append, List.nil_append]
  rw [htext, parseText_append_iff hrest hlen, isComment_append_iff isComment_help (by decide),
    isComment_append_iff isComment_type (by decide)]
  rfl

/-- Where a text of samples is read as some samples of which it has the names and the numbers. -/
theorem parseText_textOf_iff {head : Option Head} {ws : List Written} {samples : List Sample}
    (hws : ∀ w ∈ ws, IsWritten w)
    (hsamples : ws.map (fun w => (w.sample.name, w.sample.value)) =
      samples.map fun s => (s.name, s.value)) :
    parseText (textOf head ws) = some samples ↔
      (∀ h ∈ head, h.IsQuiet) ∧ (∀ s ∈ samples, validName s.name ∧ isFloat s.value) ∧
        samples = ws.map Written.sample := by
  have hlen : samples.length = (ws.map Written.sample).length := by
    have hlength := congrArg List.length hsamples
    rw [List.length_map, List.length_map] at hlength
    rw [List.length_map, hlength]
  -- with names and numbers the samples are read back
  have hread : (∀ s ∈ samples, validName s.name ∧ isFloat s.value) →
      parseText (ws.flatMap Written.text) = some (ws.map Written.sample) := by
    intro hwell
    refine parseText_flatMap fun w hw => ?_
    have hmem : (w.sample.name, w.sample.value) ∈ samples.map fun s => (s.name, s.value) := by
      rw [← hsamples]
      exact List.mem_map_of_mem hw
    obtain ⟨s, hs, heq⟩ := List.mem_map.mp hmem
    obtain ⟨hname, hvalue⟩ := Prod.mk.inj heq
    have hkey := hwell s hs
    rw [hname, hvalue] at hkey
    have hwritten := hws w hw
    exact ⟨hkey.1, hwritten.labels, hkey.2, hwritten.token, hwritten.gap⟩
  have hparse : (∀ s ∈ samples, validName s.name ∧ isFloat s.value) →
      (parseText (textOf head ws) = some samples ↔
        (∀ h ∈ head, h.IsQuiet) ∧ samples = ws.map Written.sample) := by
    intro hwell
    cases head with
    | none =>
      rw [textOf, List.nil_append, hread hwell, Option.some_inj]
      simp [eq_comm]
    | some h =>
      rw [textOf, parseText_serializeHead_iff h (hread hwell) hlen]
      simp
  constructor
  · intro h
    have hwell := wellFormed_of_parseText h
    obtain ⟨hquiet, heq⟩ := (hparse hwell).mp h
    exact ⟨hquiet, hwell, heq⟩
  · rintro ⟨hquiet, hwell, heq⟩
    exact (hparse hwell).mpr ⟨hquiet, heq⟩

/-! ### Lines of metrics -/

theorem text_of_no_labels (gap name value : Bytes) :
    Written.text ⟨gap, ⟨name, [], value⟩⟩ = name ++ space :: (value ++ [newline]) := by
  simp [Written.text, Written.line, Written.prelude]

theorem text_of_labels (gap name value : Bytes) {labels : List (Bytes × Bytes)} (h : labels ≠ []) :
    Written.text ⟨gap, ⟨name, labels, value⟩⟩ =
      name ++ (gap ++ openBrace :: (renderLabels labels ++ closeBrace :: space ::
        (value ++ [newline]))) := by
  simp [Written.text, Written.line, Written.prelude, h]

/-- Labels with a comma behind them, if there are any. -/
def labelsPrefix (labels : List (Bytes × Bytes)) : Bytes :=
  if labels = [] then [] else renderLabels labels ++ [comma]

theorem renderLabels_threshold (labels : List (Bytes × Bytes)) (key : Bytes) {threshold : Bytes}
    (h : escape threshold = threshold) :
    renderLabels (labels ++ [(key, threshold)]) =
      labelsPrefix labels ++ (key ++ equalSign :: quote :: (threshold ++ [quote])) := by
  rw [labelsPrefix]
  split_ifs with hlabels
  · rw [hlabels, List.nil_append, List.nil_append, renderLabels, renderLabel, h]
  · rw [renderLabels_append hlabels (List.cons_ne_nil _ _), renderLabels, renderLabel, h,
      List.append_assoc]
    rfl

/-- The line of a bucket or a quantile. -/
theorem text_threshold (name key value : Bytes) (labels : List (Bytes × Bytes)) {threshold : Bytes}
    (h : escape threshold = threshold) :
    Written.text ⟨[], ⟨name, labels ++ [(key, threshold)], value⟩⟩ =
      name ++ openBrace :: (labelsPrefix labels ++ (key ++ equalSign :: quote ::
        (threshold ++ quote :: closeBrace :: space :: (value ++ [newline])))) := by
  rw [text_of_labels [] name value (by simp), renderLabels_threshold labels key h]
  simp

theorem escape_of_mem_leTexts {boundaries : List Number} {le : Bytes}
    (h : le ∈ leTexts boundaries) :
    escape le = le := by
  rcases List.mem_append.mp h with h | h
  · obtain ⟨n, -, rfl⟩ := List.mem_map.mp h
    exact n.escape_toString
  · rw [List.mem_singleton.mp h]
    decide

/-- The boundaries of the buckets are those that were there. -/
theorem mem_of_mem_cumulative {count : ℤ} {l : List (ℤ × Bytes)} {e : Bytes × ℤ}
    (h : e ∈ cumulative count l) : e.1 ∈ l.map Prod.snd := by
  induction l generalizing count with
  | nil => exact absurd h List.not_mem_nil
  | cons p l ih =>
    rcases List.mem_cons.mp h with rfl | h
    · exact List.mem_cons_self
    · exact List.mem_cons_of_mem _ (ih h)

/-! ### What the counters write -/

namespace StaticCounter

variable (m : StaticCounter)

theorem serializeDefaultLabel_eq (str : Bytes) :
    m.serializeDefaultLabel str =
      some (str ++ Written.text ⟨[], ⟨m.head.name, m.labels.entries, m.value.toString⟩⟩) := by
  have hnewline : ascii "\n" = [newline] := by decide
  have hspace : ascii " " = [space] := by decide
  rw [serializeDefaultLabel, hnewline, hspace]
  by_cases h : m.labels.entries = []
  · rw [h, text_of_no_labels]
    simp
  · rw [if_neg (by simpa using h), buildLabelString_of_ne_nil _ h, text_of_labels _ _ _ h]
    simp

theorem serialize_eq (str : Bytes) :
    m.serialize str = some (str ++ textOf (AnyMetric.staticCounter m).printed
      ((AnyMetric.staticCounter m).samples.map (Written.mk []))) := by
  rw [serialize, AnyMetric.printed, AnyMetric.samples]
  split_ifs
  · exact congrArg some (List.append_nil str).symm
  · rw [serializeDefaultLabel_eq, serializeHead_eq, textOf]
    simp

end StaticCounter

section Dynamic

variable {V : Type*} (m : Dynamic V)

/-- The text of the static labels, which a hybrid metric needs. -/
theorem staticLabelsStr_eq (h : ∀ labels ∈ m.staticLabels, labels.entries ≠ []) :
    m.staticLabelsStr = some (renderLabels m.static) := by
  rw [Dynamic.staticLabelsStr, Dynamic.static]
  cases hlabels : m.staticLabels with
  | none => rfl
  | some labels => exact buildLabelString_of_ne_nil [] (h labels hlabels)

theorem staticLabelsStr_eq_none (h : ¬ ∀ labels ∈ m.staticLabels, labels.entries ≠ []) :
    m.staticLabelsStr = none := by
  rw [Dynamic.staticLabelsStr]
  cases hlabels : m.staticLabels with
  | none =>
    refine absurd (fun labels hmem => ?_) h
    rw [hlabels] at hmem
    cases hmem
  | some labels =>
    have hnil : labels.entries = [] := by
      by_contra hne
      refine h fun l hl => ?_
      rw [hlabels] at hl
      rwa [Option.mem_some_iff.mp hl] at hne
    show buildLabelString [] labels.entries = none
    rw [hnil, buildLabelString_nil]

/-- Every label of a series has a name that is an identifier. -/
theorem validLabelName_of_mem_labels {labelsValue : List Bytes} {label : Bytes × Bytes}
    (h : label ∈ m.labels labelsValue) : validLabelName label.1 := by
  rcases List.mem_append.mp h with h | h
  · rw [Dynamic.static] at h
    cases hlabels : m.staticLabels with
    | none =>
      rw [hlabels] at h
      exact absurd h List.not_mem_nil
    | some labels =>
      rw [hlabels] at h
      exact labels.valid label h
  · exact m.labelsName.valid label.1 (List.of_mem_zip h).1

/-- With names a series has labels. -/
theorem zip_ne_nil {e : List Bytes × V} (he : e ∈ m.map) (h : m.labelsName.names ≠ []) :
    m.labelsName.names.zip e.1 ≠ [] := by
  intro hzip
  have hlength := congrArg List.length hzip
  rw [List.length_zip, m.length_eq e he, min_self, List.length_nil] at hlength
  exact h (List.eq_nil_of_length_eq_zero hlength)

end Dynamic

namespace DynamicCounter

variable (m : DynamicCounter)

theorem buildString_eq (str : Bytes) (a : List (Bytes × Bytes)) {b : List (Bytes × Bytes)}
    (h : b ≠ []) : buildString (renderLabels a) str b = some (str ++ renderLabels (a ++ b)) := by
  have hcomma : ascii "," = [comma] := by decide
  rw [buildString, hcomma, buildLabelString_of_ne_nil _ h]
  by_cases ha : a = []
  · rw [ha]
    simp [renderLabels]
  · have hne : renderLabels a ≠ [] := fun hnil => ha (renderLabels_eq_nil_iff.mp hnil)
    rw [renderLabels_append ha h]
    simp [hne, h]

/-- The lines of the series. Without names of labels no labels are written at all. -/
def written : List Written :=
  m.map.map fun e =>
    ⟨[], ⟨m.head.name, if m.labelsName.names = [] then [] else m.labels e.1, e.2.toString⟩⟩

theorem serializeMap_eq (str : Bytes) :
    serializeMap m (renderLabels m.static) str =
      some (str ++ (written m).flatMap Written.text) := by
  have hnewline : ascii "\n" = [newline] := by decide
  have hspace : ascii " " = [space] := by decide
  rw [serializeMap, written, List.flatMap_map]
  refine foldlM_append (fun e he str => ?_) str
  dsimp only
  rw [hnewline, hspace]
  by_cases h : m.labelsName.names = []
  · rw [if_pos h, text_of_no_labels, if_pos (by simpa using h)]
    simp
  · have hzip := zip_ne_nil m he h
    rw [if_neg h, if_neg (by simpa using h), buildString_eq _ _ hzip,
      text_of_labels _ _ _ (show m.labels e.1 ≠ [] from by simp [Dynamic.labels, hzip])]
    simp [Dynamic.labels]

theorem serialize_eq (h : (AnyMetric.dynamicCounter m).Constructed) (str : Bytes) :
    serialize m str = some (str ++ textOf (AnyMetric.dynamicCounter m).printed (written m)) := by
  rw [serialize, staticLabelsStr_eq m h, Option.bind_eq_bind, Option.bind_some, AnyMetric.printed]
  split_ifs with hmap
  · rw [written, List.isEmpty_iff.mp hmap]
    exact congrArg some (List.append_nil str).symm
  · -- every line has a line feed at least
    have hne : (written m).flatMap Written.text ≠ [] := by
      obtain ⟨e, he⟩ := List.exists_mem_of_ne_nil _ fun hnil => hmap (List.isEmpty_iff.mpr hnil)
      intro hnil
      have htext := List.flatMap_eq_nil_iff.mp hnil _ (List.mem_map_of_mem he)
      exact absurd (List.append_eq_nil_iff.mp htext).2 (List.cons_ne_nil _ _)
    rw [serializeMap_eq, List.nil_append, Option.map_some, if_neg (by simpa using hne),
      serializeHead_eq, List.append_assoc]
    rfl

theorem serialize_eq_none (h : ¬ (AnyMetric.dynamicCounter m).Constructed) (str : Bytes) :
    serialize m str = none := by
  rw [serialize, staticLabelsStr_eq_none m h]
  rfl

end DynamicCounter

/-! ### What the histograms write -/

theorem foldlM_buckets {name : Bytes} {labels : List (Bytes × Bytes)} {valueType : ValueType}
    {boundaries : List Number} {counts : List ℤ}
    {f : Bytes × ℤ → ℤ × Bytes → Option (Bytes × ℤ)}
    (h : ∀ str count counter le, f (str, count) (counter, le) =
      some (str ++ (name ++ openBrace :: (labelsPrefix labels ++ (ascii "le" ++ equalSign :: quote ::
        (le ++ quote :: closeBrace :: space ::
          ((valueType.ofCount (count + counter)).toString ++ [newline]))))), count + counter))
    (hlen : counts.length = boundaries.length + 1) (str : Bytes) :
    (counts.zip (leTexts boundaries)).foldlM f (str, 0) =
      some (str ++ ((thresholdSamples name (ascii "le") labels
        (bucketLines valueType boundaries counts)).map (Written.mk [])).flatMap Written.text,
        counts.sum) := by
  have hles : counts.length = (leTexts boundaries).length := by
    rw [hlen, leTexts, List.length_append, List.length_map]
    rfl
  rw [foldlM_cumulative (g := fun e => name ++ openBrace :: (labelsPrefix labels ++ (ascii "le" ++
    equalSign :: quote :: (e.1 ++ quote :: closeBrace :: space ::
      ((valueType.ofCount e.2).toString ++ [newline]))))) h, List.map_fst_zip hles.le, zero_add,
    thresholdSamples, bucketLines, List.map_map, List.map_map, List.flatMap_map]
  refine congrArg some (Prod.ext (congrArg (str ++ ·) ?_) rfl)
  refine List.flatMap_congr fun e he => (text_threshold _ _ _ _ ?_).symm
  have hmem := mem_of_mem_cumulative he
  rw [List.map_snd_zip hles.ge] at hmem
  exact escape_of_mem_leTexts hmem

/-- A comma behind the dynamic labels. -/
theorem joinString_comma (a : List (Bytes × Bytes)) {b : List (Bytes × Bytes)} (h : b ≠ []) :
    joinString (renderLabels a) (renderLabels b ++ [comma]) = labelsPrefix (a ++ b) := by
  have hcomma : ascii "," = [comma] := by decide
  have hne : a ++ b ≠ [] := fun hnil => h (List.append_eq_nil_iff.mp hnil).2
  rw [joinString, labelsPrefix, if_neg hne, hcomma]
  by_cases ha : a = []
  · rw [ha]
    simp [renderLabels]
  · have hrender : renderLabels a ≠ [] := fun hnil => ha (renderLabels_eq_nil_iff.mp hnil)
    rw [renderLabels_append ha h]
    simp [hrender]

/-- A sum and a count. -/
theorem text_totals (gap name : Bytes) (labels : List (Bytes × Bytes)) (sum count : Number) :
    ((totalSamples name labels sum count).map (Written.mk gap)).flatMap Written.text =
      Written.text ⟨gap, ⟨name ++ ascii "_sum", labels, sum.toString⟩⟩ ++
        Written.text ⟨gap, ⟨name ++ ascii "_count", labels, count.toString⟩⟩ := by
  rw [totalSamples]
  simp

namespace StaticHistogram

variable (m : StaticHistogram)

/-- The lines of the buckets, and those of the sum and the count, which have no labels. -/
def written : List Written :=
  if m.bucketCounts.all fun counter => counter = 0 then []
  else (thresholdSamples (m.head.name ++ ascii "_bucket") (ascii "le") m.labels.entries
      (bucketLines m.valueType m.bucketBoundaries m.bucketCounts)).map (Written.mk []) ++
    (totalSamples m.head.name [] (.integer m.sum)
      (m.valueType.ofCount m.bucketCounts.sum)).map (Written.mk [])

theorem serializeBuckets_eq (str : Bytes) :
    m.serializeBuckets str =
      some (str ++ ((thresholdSamples (m.head.name ++ ascii "_bucket") (ascii "le") m.labels.entries
        (bucketLines m.valueType m.bucketBoundaries m.bucketCounts)).map
          (Written.mk [])).flatMap Written.text, m.bucketCounts.sum) := by
  rw [serializeBuckets]
  refine foldlM_buckets (fun str count counter le => ?_) m.length_eq str
  have hnewline : ascii "\n" = [newline] := by decide
  have hcomma : ascii "," = [comma] := by decide
  have hle : ascii "le=\"" = ascii "le" ++ [equalSign, quote] := by decide
  dsimp only
  rw [hnewline, hcomma, hle]
  by_cases h : m.labels.entries = []
  · rw [if_pos (by simpa using h), labelsPrefix, if_pos h]
    simp
  · rw [if_neg (by simpa using h), buildLabelString_of_ne_nil _ h, labelsPrefix, if_neg h]
    simp

theorem serialize_eq (str : Bytes) :
    m.serialize str = some (str ++ textOf (AnyMetric.staticHistogram m).printed m.written) := by
  rw [serialize, AnyMetric.printed, written]
  split_ifs
  · exact congrArg some (List.append_nil str).symm
  · have hnewline : ascii "\n" = [newline] := by decide
    have hsum : ascii "_sum " = ascii "_sum" ++ [space] := by decide
    have hcount : ascii "_count " = ascii "_count" ++ [space] := by decide
    dsimp only
    rw [serializeBuckets_eq, Option.bind_eq_bind, Option.bind_some, textOf, List.flatMap_append,
      text_totals, text_of_no_labels, text_of_no_labels, serializeHead_eq, hnewline, hsum, hcount]
    simp

end StaticHistogram

namespace DynamicHistogramText

variable (m : DynamicHistogramText)

/-- The lines of the series that were counted. -/
def written : List Written :=
  m.map.flatMap fun e =>
    if e.2.bucketCounts.sum = 0 then []
    else (histogramSamples m.valueType m.head.name (m.labels e.1) m.bucketBoundaries
      e.2.bucketCounts e.2.sum).map (Written.mk [])

theorem serializeBuckets_eq {e : List Bytes × HistogramSeries} (he : e ∈ m.map)
    (hnames : m.labelsName.names ≠ []) :
    m.serializeBuckets (renderLabels m.static) (m.labelsName.names.zip e.1) e.2.bucketCounts =
      some (((thresholdSamples (m.head.name ++ ascii "_bucket") (ascii "le") (m.labels e.1)
        (bucketLines m.valueType m.bucketBoundaries e.2.bucketCounts)).map
          (Written.mk [])).flatMap Written.text, e.2.bucketCounts.sum) := by
  have hzip := zip_ne_nil m.toDynamic he hnames
  rw [serializeBuckets]
  refine foldlM_buckets (fun str count counter le => ?_) (m.bucketCounts_length e he) []
  have hnewline : ascii "\n" = [newline] := by decide
  have hcomma : ascii "," = [comma] := by decide
  have hle : ascii "le=\"" = ascii "le" ++ [equalSign, quote] := by decide
  dsimp only
  rw [hnewline, hcomma, hle, if_neg (by simpa using hzip), buildLabelString_of_ne_nil _ hzip,
    Option.map_some, Option.bind_eq_bind, Option.bind_some, List.nil_append,
    joinString_comma _ hzip]
  simp [Dynamic.labels]

theorem serializeSeries_eq {e : List Bytes × HistogramSeries} (he : e ∈ m.map)
    (hnames : m.labelsName.names ≠ []) (str : Bytes) :
    m.serializeSeries (renderLabels m.static) str e =
      some (str ++ (if e.2.bucketCounts.sum = 0 then []
        else (histogramSamples m.valueType m.head.name (m.labels e.1) m.bucketBoundaries
          e.2.bucketCounts e.2.sum).map (Written.mk [])).flatMap Written.text) := by
  have hzip := zip_ne_nil m.toDynamic he hnames
  have hlabels : m.labels e.1 ≠ [] := fun h => hzip (List.append_eq_nil_iff.mp h).2
  rw [serializeSeries]
  split_ifs
  · exact congrArg some (List.append_nil str).symm
  · have hnewline : ascii "\n" = [newline] := by decide
    dsimp only
    rw [serializeBuckets_eq m he hnames, Option.bind_eq_bind, Option.bind_some,
      buildLabelString_of_ne_nil _ hzip, Option.bind_eq_bind, Option.bind_some, List.nil_append,
      joinString_renderLabels, histogramSamples, List.map_append, List.flatMap_append, text_totals,
      text_of_labels _ _ _ hlabels, text_of_labels _ _ _ hlabels, hnewline]
    simp [Dynamic.labels]

theorem serialize_eq (h : (AnyMetric.dynamicHistogram m).Constructed)
    (hnames : m.written ≠ [] → m.labelsName.names ≠ []) (str : Bytes) :
    m.serialize str = some (str ++ textOf (AnyMetric.dynamicHistogram m).printed m.written) := by
  rw [serialize, staticLabelsStr_eq m.toDynamic h, Option.bind_eq_bind, Option.bind_some,
    AnyMetric.printed]
  split_ifs with hmap
  · rw [written, List.isEmpty_iff.mp hmap]
    exact congrArg some (List.append_nil str).symm
  · rw [foldlM_append (g := fun e => (if e.2.bucketCounts.sum = 0 then []
        else (histogramSamples m.valueType m.head.name (m.labels e.1) m.bucketBoundaries
          e.2.bucketCounts e.2.sum).map (Written.mk [])).flatMap Written.text), serializeHead_eq,
      textOf, written, List.flatMap_assoc, List.append_assoc]
    intro e he str
    by_cases hcount : e.2.bucketCounts.sum = 0
    · -- a series that was not counted is passed
      rw [serializeSeries, if_pos hcount, if_pos hcount]
      exact congrArg some (List.append_nil str).symm
    · refine serializeSeries_eq m he (hnames fun hnil => ?_) str
      have hseries := List.flatMap_eq_nil_iff.mp hnil e he
      rw [if_neg hcount] at hseries
      exact absurd hseries (by simp [histogramSamples, totalSamples])

theorem serialize_eq_none_of_not_constructed (h : ¬ (AnyMetric.dynamicHistogram m).Constructed)
    (str : Bytes) : m.serialize str = none := by
  rw [serialize, staticLabelsStr_eq_none m.toDynamic h]
  rfl

/-- Without names of labels `build_label_string` is called with nothing. -/
theorem serialize_eq_none (h : (AnyMetric.dynamicHistogram m).Constructed)
    (hwritten : m.written ≠ [])
    (hnames : m.labelsName.names = []) (str : Bytes) : m.serialize str = none := by
  obtain ⟨w, hw⟩ := List.exists_mem_of_ne_nil _ hwritten
  obtain ⟨e, he, hmem⟩ := List.mem_flatMap.mp hw
  have hcount : e.2.bucketCounts.sum ≠ 0 := by
    intro hcount
    rw [if_pos hcount] at hmem
    exact absurd hmem List.not_mem_nil
  have hmap : ¬ m.map.isEmpty := fun hmap =>
    absurd he (List.isEmpty_iff.mp hmap ▸ List.not_mem_nil)
  rw [serialize, staticLabelsStr_eq m.toDynamic h, Option.bind_eq_bind, Option.bind_some,
    if_neg hmap]
  refine foldlM_eq_none he (fun str => ?_) _
  rw [serializeSeries, hnames, List.zip_nil_left]
  dsimp only
  rw [if_neg hcount]
  cases m.serializeBuckets (renderLabels m.static) [] e.2.bucketCounts <;> rfl

end DynamicHistogramText

/-! ### What the summaries write -/

/-- What is appended for a quantile. -/
def quantileText (name : Bytes) (labels : List (Bytes × Bytes)) (e : Number × Number) : Bytes :=
  name ++ openBrace :: (labelsPrefix labels ++ (ascii "quantile" ++ equalSign :: quote ::
    (e.1.toString ++ quote :: closeBrace :: space :: (e.2.toString ++ [newline]))))

theorem flatMap_quantileText (name : Bytes) (labels : List (Bytes × Bytes))
    (quantiles rates : List Number) :
    (quantiles.zip rates).flatMap (quantileText name labels) =
      ((thresholdSamples name (ascii "quantile") labels
        (quantileLines quantiles rates)).map (Written.mk [])).flatMap Written.text := by
  rw [thresholdSamples, quantileLines, List.map_map, List.map_map, List.flatMap_map]
  exact List.flatMap_congr fun e _ => (text_threshold _ _ _ _ e.1.escape_toString).symm

namespace StaticSummary

variable (m : StaticSummary)

/-- The lines of the quantiles, and those of the sum and the count, which have no labels. -/
def written : List Written :=
  if m.quantiles.isEmpty then []
  else if m.count = 0 && !m.hasRefreshed then []
  else (thresholdSamples m.head.name (ascii "quantile") m.labels.entries
      (quantileLines m.quantiles m.rates)).map (Written.mk []) ++
    (totalSamples m.head.name [] m.sum (.integer m.count)).map (Written.mk [])

theorem serializeQuantiles_eq (str : Bytes) :
    m.serializeQuantiles str =
      some (str ++ ((thresholdSamples m.head.name (ascii "quantile") m.labels.entries
        (quantileLines m.quantiles m.rates)).map (Written.mk [])).flatMap Written.text) := by
  rw [serializeQuantiles, ← flatMap_quantileText]
  refine foldlM_append (fun e _ str => ?_) str
  have hnewline : ascii "\n" = [newline] := by decide
  have hcomma : ascii "," = [comma] := by decide
  have hquantile : ascii "quantile=\"" = ascii "quantile" ++ [equalSign, quote] := by decide
  dsimp only
  rw [hnewline, hcomma, hquantile, quantileText]
  by_cases h : m.labels.entries = []
  · rw [if_pos (by simpa using h), labelsPrefix, if_pos h]
    simp
  · rw [if_neg (by simpa using h), buildLabelString_of_ne_nil _ h, labelsPrefix, if_neg h]
    simp

theorem serialize_eq (str : Bytes) :
    m.serialize str = some (str ++ textOf (AnyMetric.staticSummary m).printed m.written) := by
  rw [serialize, AnyMetric.printed, written]
  split_ifs
  · exact congrArg some (List.append_nil str).symm
  · exact congrArg some (List.append_nil str).symm
  · have hnewline : ascii "\n" = [newline] := by decide
    have hsum : ascii "_sum " = ascii "_sum" ++ [space] := by decide
    have hcount : ascii "_count " = ascii "_count" ++ [space] := by decide
    rw [serializeQuantiles_eq, Option.bind_eq_bind, Option.bind_some, textOf, List.flatMap_append,
      text_totals, text_of_no_labels, text_of_no_labels, serializeHead_eq, hnewline, hsum, hcount]
    simp

end StaticSummary

namespace DynamicSummary

variable (m : DynamicSummary)

/-- The lines of the series, with a space in front of the braces of the sum and the count. -/
def written : List Written :=
  m.map.flatMap fun e =>
    (thresholdSamples m.head.name (ascii "quantile") (m.labels e.1)
      (quantileLines m.quantiles e.2.rates)).map (Written.mk []) ++
    (totalSamples m.head.name (m.labels e.1) e.2.sum (.integer e.2.count)).map (Written.mk [space])

theorem serializeSeries_eq {e : List Bytes × SummarySeries} (he : e ∈ m.map)
    (hnames : m.labelsName.names ≠ []) (str : Bytes) :
    m.serializeSeries (renderLabels m.static) str e =
      some (str ++ ((thresholdSamples m.head.name (ascii "quantile") (m.labels e.1)
          (quantileLines m.quantiles e.2.rates)).map (Written.mk []) ++
        (totalSamples m.head.name (m.labels e.1) e.2.sum (.integer e.2.count)).map
          (Written.mk [space])).flatMap Written.text) := by
  have hzip := zip_ne_nil m.toDynamic he hnames
  have hlabels : m.labels e.1 ≠ [] := fun h => hzip (List.append_eq_nil_iff.mp h).2
  have hnewline : ascii "\n" = [newline] := by decide
  have hcomma : ascii "," = [comma] := by decide
  have hsum : ascii "_sum " = ascii "_sum" ++ [space] := by decide
  have hcount : ascii "_count " = ascii "_count" ++ [space] := by decide
  have hquantile : ascii "quantile=\"" = ascii "quantile" ++ [equalSign, quote] := by decide
  rw [serializeSeries, buildLabelString_of_ne_nil _ hzip, Option.bind_eq_bind, Option.bind_some,
    List.nil_append, joinString_renderLabels, hnewline, hcomma, hsum, hcount, hquantile,
    List.flatMap_append, text_totals, text_of_labels _ _ _ hlabels, text_of_labels _ _ _ hlabels,
    ← flatMap_quantileText]
  dsimp only
  rw [foldl_append (g := quantileText m.head.name (m.labels e.1)) fun str e => ?_]
  · simp [Dynamic.labels]
  · rw [quantileText, labelsPrefix, if_neg hlabels]
    simp [Dynamic.labels]

theorem serialize_eq (h : (AnyMetric.dynamicSummary m).Constructed)
    (hnames : m.written ≠ [] → m.labelsName.names ≠ []) (str : Bytes) :
    m.serialize str = some (str ++ textOf (AnyMetric.dynamicSummary m).printed m.written) := by
  rw [serialize, staticLabelsStr_eq m.toDynamic h, Option.bind_eq_bind, Option.bind_some,
    AnyMetric.printed, textOf, List.nil_append, written, List.flatMap_assoc]
  refine foldlM_append (fun e he str => serializeSeries_eq m he (hnames fun hnil => ?_) str) str
  have hseries := List.flatMap_eq_nil_iff.mp hnil e he
  exact absurd hseries (by simp [totalSamples])

theorem serialize_eq_none_of_not_constructed (h : ¬ (AnyMetric.dynamicSummary m).Constructed)
    (str : Bytes) : m.serialize str = none := by
  rw [serialize, staticLabelsStr_eq_none m.toDynamic h]
  rfl

/-- Without names of labels `build_label_string` is called with nothing. -/
theorem serialize_eq_none (h : (AnyMetric.dynamicSummary m).Constructed) (hwritten : m.written ≠ [])
    (hnames : m.labelsName.names = []) (str : Bytes) : m.serialize str = none := by
  obtain ⟨w, hw⟩ := List.exists_mem_of_ne_nil _ hwritten
  obtain ⟨e, he, -⟩ := List.mem_flatMap.mp hw
  rw [serialize, staticLabelsStr_eq m.toDynamic h, Option.bind_eq_bind, Option.bind_some]
  refine foldlM_eq_none he (fun str => ?_) str
  rw [serializeSeries, hnames, List.zip_nil_left, buildLabelString_nil]
  rfl

end DynamicSummary

end Yalantinglibs.Metric.Exposition
