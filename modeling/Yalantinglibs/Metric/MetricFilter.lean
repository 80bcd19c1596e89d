import Mathlib.Algebra.Order.Ring.Canonical
import Mathlib.Algebra.Order.Ring.Nat
import Mathlib.Data.List.Basic

/-!
# Filters of metrics

`filter_metrics` of `metric/metric_manager.hpp` filters by name, by the names of labels and by
their values, one behind the other, and stops where nothing is left. Metrics are pointers, which a
list of metrics may hold more than once; regular expressions are any tests of strings.

The filter by the names of labels takes a metric once for each label that matches. For a black list
the metrics that pass are erased from those given, but where none passes nothing is returned, and
all metrics where there is no pattern.

## Main definitions

* `filterMetrics` — the filters
* `Satisfies` — a metric matches all patterns

## Main results

* `filterMetrics_eq_iff` — when the metrics of the white or the black list are returned
-/

set_option autoImplicit false

namespace Yalantinglibs.Metric.Filter

/-- What the filters read of `metric_t`. The labels of the series are those of the metrics that
override `has_label_value`, which then does not read the values of static labels. -/
structure Metric where
  name : String
  labelsName : List String
  labelsValue : List String
  series : Option (List (List String))

/-- `has_label_value` of a regular expression. -/
def Metric.hasLabelValue (m : Metric) (regex : String → Bool) : Bool :=
  match m.series with
  | none => m.labelsValue.any regex
  | some map => map.any fun labelValue => labelValue.any regex

/-- `metric_filter_options`. -/
structure Options where
  nameRegex : Option (String → Bool) := none
  labelRegex : Option (String → Bool) := none
  labelValueRegex : Option (String → Bool) := none
  isWhite : Bool := true

variable {ι : Type*}

section Filters

variable (deref : ι → Metric)

def filterMetricsByName (metrics : List ι) (nameRegex : String → Bool) : List ι :=
  metrics.filter fun m => nameRegex (deref m).name

/-- Each label that matches adds the metric. -/
def filterMetricsByLabelName (metrics : List ι) (labelNameRegex : String → Bool) : List ι :=
  metrics.flatMap fun m => ((deref m).labelsName.filter labelNameRegex).map fun _ => m

def filterMetricsByLabelValue (metrics : List ι) (labelValueRegex : String → Bool) : List ι :=
  metrics.filter fun m => (deref m).hasLabelValue labelValueRegex

/-- The filter of a pattern that is given, or that nothing is left. -/
def stage (filter : List ι → (String → Bool) → List ι) (regex : Option (String → Bool))
    (metrics : List ι) : Option (List ι) :=
  match regex with
  | none => some metrics
  | some regex =>
    let filtered := filter metrics regex
    if filtered.isEmpty then none else some filtered

/-- `filter_metrics`: where a stage leaves nothing, nothing is returned. -/
def filterMetrics [DecidableEq ι] (metrics : List ι) (options : Options) : List ι :=
  if !(options.nameRegex.isSome || options.labelRegex.isSome || options.labelValueRegex.isSome) then
    metrics
  else
    let filtered := do
      let filtered ← stage (filterMetricsByName deref) options.nameRegex metrics
      let filtered ← stage (filterMetricsByLabelName deref) options.labelRegex filtered
      stage (filterMetricsByLabelValue deref) options.labelValueRegex filtered
    match filtered with
    | none => []
    | some filtered =>
      if !options.isWhite then
        filtered.foldl (fun metrics m => metrics.filter fun t => !decide (t = m)) metrics
      else filtered

end Filters

/-! ### What is left at the end -/

/-- A metric matches each pattern that is given. -/
structure Satisfies (options : Options) (m : Metric) : Prop where
  name : ∀ regex ∈ options.nameRegex, regex m.name = true
  label : ∀ regex ∈ options.labelRegex, ∃ n ∈ m.labelsName, regex n = true
  value : ∀ regex ∈ options.labelValueRegex, m.hasLabelValue regex = true

variable {deref : ι → Metric} {options : Options} {metrics : List ι} {m : ι} {f g : ι → ℕ}
  {p : ι → Bool}

/-- A list with each element as often as it is said. -/
def copies (times : ι → ℕ) (metrics : List ι) : List ι :=
  metrics.flatMap fun m => List.replicate (times m) m

theorem copies_cons (f : ι → ℕ) (m : ι) (metrics : List ι) :
    copies f (m :: metrics) = List.replicate (f m) m ++ copies f metrics := List.flatMap_cons

theorem mem_copies : m ∈ copies f metrics ↔ m ∈ metrics ∧ 0 < f m := by
  rw [copies, List.mem_flatMap]
  constructor
  · rintro ⟨m', hm', hmem⟩
    obtain ⟨hne, rfl⟩ := List.mem_replicate.mp hmem
    exact ⟨hm', Nat.pos_of_ne_zero hne⟩
  · intro ⟨hm, hpos⟩
    exact ⟨m, hm, List.mem_replicate.mpr ⟨Nat.ne_of_gt hpos, rfl⟩⟩

theorem copies_one (metrics : List ι) : copies (fun _ => 1) metrics = metrics := by
  induction metrics with
  | nil => rfl
  | cons m metrics ih => rw [copies_cons, ih, List.replicate_one, List.singleton_append]

theorem filter_eq_copies (p : ι → Bool) (metrics : List ι) :
    metrics.filter p = copies (fun m => (p m).toNat) metrics := by
  induction metrics with
  | nil => rfl
  | cons m metrics ih =>
    rw [copies_cons, List.filter_cons, ih]
    cases p m <;> rfl

theorem copies_copies (f g : ι → ℕ) (metrics : List ι) :
    copies g (copies f metrics) = copies (fun m => f m * g m) metrics := by
  unfold copies
  rw [List.flatMap_assoc]
  refine List.flatMap_congr fun m _ => ?_
  rw [List.flatMap_replicate, List.flatten_replicate_replicate]

/-- Elements that are taken more than once are what makes the difference to a filter. -/
theorem copies_eq_filter_iff (hpos : ∀ m, 0 < f m ↔ p m = true) (metrics : List ι) :
    copies f metrics = metrics.filter p ↔ ∀ m ∈ metrics, f m ≤ 1 := by
  have hlength : ∀ l : List ι, (l.filter p).length ≤ (copies f l).length := by
    intro l
    induction l with
    | nil => exact Nat.zero_le _
    | cons m l ih =>
      rw [copies_cons, List.length_append, List.length_replicate, List.filter_cons]
      split_ifs with hm
      · have := (hpos m).mpr hm
        rw [List.length_cons]
        omega
      · exact ih.trans (Nat.le_add_left _ _)
  induction metrics with
  | nil => simp [copies]
  | cons m metrics ih =>
    rw [List.forall_mem_cons, copies_cons, List.filter_cons]
    have hm := hpos m
    by_cases hp : p m = true
    · rw [if_pos hp]
      constructor
      · intro heq
        -- were it taken twice, there would be more than the filter leaves
        have hle : f m ≤ 1 := by
          have hlen := congrArg List.length heq
          have := hlength metrics
          rw [List.length_append, List.length_replicate, List.length_cons] at hlen
          omega
        have hone : f m = 1 := Nat.le_antisymm hle (hm.mpr hp)
        rw [hone, List.replicate_one, List.singleton_append] at heq
        exact ⟨hle, ih.mp (List.cons.inj heq).2⟩
      · intro ⟨hle, hrest⟩
        have hone : f m = 1 := Nat.le_antisymm hle (hm.mpr hp)
        rw [hone, ih.mpr hrest, List.replicate_one, List.singleton_append]
    · have hzero : f m = 0 := Nat.eq_zero_of_not_pos fun h => hp (hm.mp h)
      rw [if_neg hp, hzero, List.replicate_zero, List.nil_append]
      exact ⟨fun h => ⟨Nat.zero_le _, ih.mp h⟩, fun h => ih.mpr h.2⟩

/-! ### The stages -/

/-- How often a metric passes the filters. -/
def nameTimes (m : Metric) (regex : String → Bool) : ℕ := (regex m.name).toNat

def labelTimes (m : Metric) (regex : String → Bool) : ℕ := m.labelsName.countP regex

def valueTimes (m : Metric) (regex : String → Bool) : ℕ := (m.hasLabelValue regex).toNat

def Options.times (options : Options) (m : Metric) : ℕ :=
  options.nameRegex.elim 1 (nameTimes m) * options.labelRegex.elim 1 (labelTimes m) *
    options.labelValueRegex.elim 1 (valueTimes m)

/-- A pattern is given. -/
def Options.given (options : Options) : Bool :=
  options.nameRegex.isSome || options.labelRegex.isSome || options.labelValueRegex.isSome

theorem filterMetricsByLabelName_eq (metrics : List ι) (regex : String → Bool) :
    filterMetricsByLabelName deref metrics regex =
      copies (fun m => labelTimes (deref m) regex) metrics := by
  refine List.flatMap_congr fun m _ => ?_
  rw [List.map_const', ← List.countP_eq_length_filter]
  rfl

/-- A stage takes each metric by its pattern, and says where that leaves nothing. -/
theorem stage_eq (filter : List ι → (String → Bool) → List ι) (times : ι → (String → Bool) → ℕ)
    (hfilter : ∀ metrics regex, filter metrics regex = copies (fun m => times m regex) metrics)
    (regex : Option (String → Bool)) (metrics : List ι) :
    stage filter regex metrics =
      if regex.isSome = true ∧ copies (fun m => regex.elim 1 (times m)) metrics = [] then none
      else some (copies (fun m => regex.elim 1 (times m)) metrics) := by
  cases regex with
  | none =>
    rw [if_neg fun h => Bool.false_ne_true h.1]
    exact congrArg some (copies_one metrics).symm
  | some regex =>
    unfold stage
    dsimp only [Option.elim_some]
    rw [hfilter]
    simp only [List.isEmpty_iff, Option.isSome_some, true_and]

/-- Two stages, one behind the other. -/
theorem bind_stage {filtered : Option (List ι)} {next : List ι → Option (List ι)}
    {given given' : Bool} (h : filtered =
      if given = true ∧ copies f metrics = [] then none else some (copies f metrics))
    (hnext : next (copies f metrics) =
      if given' = true ∧ copies (fun m => f m * g m) metrics = [] then none
      else some (copies (fun m => f m * g m) metrics))
    (hkeep : given' = false → ∀ m, g m = 1) :
    filtered.bind next =
      if (given || given') = true ∧ copies (fun m => f m * g m) metrics = [] then none
      else some (copies (fun m => f m * g m) metrics) := by
  rw [h]
  by_cases hnone : given = true ∧ copies f metrics = []
  · have hnil : copies (fun m => f m * g m) metrics = [] := by
      rw [← copies_copies, hnone.2]
      rfl
    have hgiven : (given || given') = true := by rw [hnone.1, Bool.true_or]
    rw [if_pos hnone, if_pos ⟨hgiven, hnil⟩]
    rfl
  rw [if_neg hnone, Option.bind_some, hnext]
  cases given' with
  | true => rw [Bool.or_true]
  | false =>
    have hone : (fun m => f m * g m) = f := by
      funext m
      rw [hkeep rfl m, Nat.mul_one]
    rw [hone, Bool.or_false, if_neg hnone, if_neg fun h => Bool.false_ne_true h.1]

/-- What is left of all stages. -/
theorem stages_eq (deref : ι → Metric) (options : Options) (metrics : List ι) :
    ((stage (filterMetricsByName deref) options.nameRegex metrics).bind fun filtered =>
      (stage (filterMetricsByLabelName deref) options.labelRegex filtered).bind fun filtered =>
        stage (filterMetricsByLabelValue deref) options.labelValueRegex filtered) =
      if options.given = true ∧ copies (fun m => options.times (deref m)) metrics = [] then none
      else some (copies (fun m => options.times (deref m)) metrics) := by
  have hkeep : ∀ (regex : Option (String → Bool)) (times : Metric → (String → Bool) → ℕ),
      regex.isSome = false → ∀ m, regex.elim 1 (times (deref m)) = 1 := by
    intro regex times hnone m
    rw [Option.isSome_eq_false_iff, Option.isNone_iff_eq_none] at hnone
    rw [hnone]
    rfl
  have hname := stage_eq (filterMetricsByName deref) (fun m => nameTimes (deref m))
    (fun metrics regex => filter_eq_copies _ metrics) options.nameRegex metrics
  have hlabel := stage_eq (filterMetricsByLabelName deref) (fun m => labelTimes (deref m))
    filterMetricsByLabelName_eq options.labelRegex
  have hvalue := stage_eq (filterMetricsByLabelValue deref) (fun m => valueTimes (deref m))
    (fun metrics regex => filter_eq_copies _ metrics) options.labelValueRegex
  rw [← Option.bind_assoc]
  refine bind_stage (bind_stage hname ?_ (hkeep _ _)) ?_ (hkeep _ _)
  · rw [hlabel, copies_copies]
  · rw [hvalue, copies_copies]

theorem times_pos_iff (options : Options) (m : Metric) :
    0 < options.times m ↔ Satisfies options m := by
  have htimes : ∀ (regex : Option (String → Bool)) (times : (String → Bool) → ℕ),
      0 < regex.elim 1 times ↔ ∀ r ∈ regex, 0 < times r := by
    intro regex times
    cases regex with
    | none => exact ⟨fun _ r hr => absurd hr (by simp), fun _ => Nat.one_pos⟩
    | some regex => simp
  have hbool : ∀ b : Bool, 0 < b.toNat ↔ b = true := by decide
  have hlabel : ∀ regex : String → Bool,
      0 < labelTimes m regex ↔ ∃ n ∈ m.labelsName, regex n = true := fun _ => List.countP_pos_iff
  rw [Options.times, CanonicallyOrderedAdd.mul_pos, CanonicallyOrderedAdd.mul_pos, htimes, htimes,
    htimes]
  simp only [nameTimes, valueTimes, hbool, hlabel]
  exact ⟨fun h => ⟨h.1.1, h.1.2, h.2⟩, fun h => ⟨⟨h.name, h.label⟩, h.value⟩⟩

instance (options : Options) (m : Metric) : Decidable (Satisfies options m) :=
  decidable_of_iff _ (times_pos_iff options m)

/-! ### The white and the black list -/

section Lists

variable [DecidableEq ι]

theorem foldl_filter (left metrics : List ι) :
    left.foldl (fun metrics m => metrics.filter fun t => !decide (t = m)) metrics =
      metrics.filter fun t => !decide (t ∈ left) := by
  induction left generalizing metrics with
  | nil => simp
  | cons m left ih =>
    rw [List.foldl_cons, ih, List.filter_filter]
    refine List.filter_congr fun t _ => ?_
    simp only [List.mem_cons, Bool.decide_or, Bool.not_or, Bool.and_comm]

/-- The metrics that a white list has, and those that a black list has. -/
def listed (deref : ι → Metric) (metrics : List ι) (options : Options) : List ι :=
  metrics.filter fun m => decide (Satisfies options (deref m)) == options.isWhite

omit [DecidableEq ι] in
theorem copies_eq_nil_iff : copies (fun m => options.times (deref m)) metrics = [] ↔
    ∀ m ∈ metrics, ¬Satisfies options (deref m) := by
  rw [List.eq_nil_iff_forall_not_mem]
  simp only [mem_copies, times_pos_iff, not_and]

theorem filterMetrics_eq (deref : ι → Metric) (metrics : List ι) (options : Options) :
    filterMetrics deref metrics options =
      if options.given = false then metrics
      else if options.isWhite = true then copies (fun m => options.times (deref m)) metrics
      else if copies (fun m => options.times (deref m)) metrics = [] then []
      else metrics.filter fun m => !decide (Satisfies options (deref m)) := by
  have hstages : (do
      let filtered ← stage (filterMetricsByName deref) options.nameRegex metrics
      let filtered ← stage (filterMetricsByLabelName deref) options.labelRegex filtered
      stage (filterMetricsByLabelValue deref) options.labelValueRegex filtered) = _ :=
    stages_eq deref options metrics
  have hblack : (metrics.filter fun t =>
      !decide (t ∈ copies (fun m => options.times (deref m)) metrics)) =
        metrics.filter fun m => !decide (Satisfies options (deref m)) := by
    refine List.filter_congr fun m hm => ?_
    simp only [mem_copies, times_pos_iff, hm, true_and]
  unfold filterMetrics
  rw [hstages, ← Options.given]
  cases hgiven : options.given with
  | false => rfl
  | true =>
    simp only [Bool.not_true, Bool.false_eq_true, Bool.true_eq_false, if_false, true_and]
    by_cases hnil : copies (fun m => options.times (deref m)) metrics = []
    · rw [if_pos hnil, hnil]
      simp only [ite_self, if_true]
    · rw [if_neg hnil]
      dsimp only
      rw [foldl_filter, hblack, if_neg hnil]
      cases options.isWhite <;> rfl

theorem times_le_one_iff (options : Options) (m : Metric) : options.times m ≤ 1 ↔
    (Satisfies options m → ∀ regex ∈ options.labelRegex, m.labelsName.countP regex ≤ 1) := by
  by_cases hsat : Satisfies options m
  · have hname : options.nameRegex.elim 1 (nameTimes m) = 1 := by
      have h := hsat.name
      cases hregex : options.nameRegex with
      | none => rfl
      | some regex =>
        rw [Option.elim_some, nameTimes, h regex hregex]
        rfl
    have hvalue : options.labelValueRegex.elim 1 (valueTimes m) = 1 := by
      have h := hsat.value
      cases hregex : options.labelValueRegex with
      | none => rfl
      | some regex =>
        rw [Option.elim_some, valueTimes, h regex hregex]
        rfl
    rw [Options.times, hname, hvalue, Nat.one_mul, Nat.mul_one]
    cases options.labelRegex with
    | none => simp
    | some regex => simp [hsat, labelTimes]
  · have hzero : options.times m = 0 :=
      Nat.eq_zero_of_not_pos fun h => hsat ((times_pos_iff options m).mp h)
    rw [hzero]
    exact ⟨fun _ h => absurd h hsat, fun _ => Nat.zero_le _⟩

theorem satisfies_of_not_given (h : options.given = false) (m : Metric) : Satisfies options m := by
  simp only [Options.given, Bool.or_eq_false_iff, Option.isSome_eq_false_iff,
    Option.isNone_iff_eq_none] at h
  obtain ⟨⟨hname, hlabel⟩, hvalue⟩ := h
  refine ⟨?_, ?_, ?_⟩
  · simp [hname]
  · simp [hlabel]
  · simp [hvalue]

/-- The metrics of a white list are returned, each once, unless one of them has several labels that
match; those of a black list unless no metric matches all patterns, or no pattern is given. -/
theorem filterMetrics_eq_iff (deref : ι → Metric) (metrics : List ι) (options : Options) :
    filterMetrics deref metrics options = listed deref metrics options ↔
      if options.isWhite = true then
        ∀ m ∈ metrics, Satisfies options (deref m) →
          ∀ regex ∈ options.labelRegex, (deref m).labelsName.countP regex ≤ 1
      else metrics = [] ∨ options.given = true ∧ ∃ m ∈ metrics, Satisfies options (deref m) := by
  rw [filterMetrics_eq, listed]
  cases hgiven : options.given with
  | false =>
    have hall : ∀ m, decide (Satisfies options (deref m)) = true := fun m =>
      decide_eq_true (satisfies_of_not_given hgiven _)
    have hlabel : options.labelRegex = none := by
      simp only [Options.given, Bool.or_eq_false_iff, Option.isSome_eq_false_iff,
        Option.isNone_iff_eq_none] at hgiven
      exact hgiven.1.2
    simp only [hall, if_true]
    cases options.isWhite with
    | true => simp [hlabel]
    | false => simp
  | true =>
    simp only [Bool.true_eq_false, if_false, true_and]
    cases options.isWhite with
    | true =>
      simp only [if_true, beq_true]
      rw [copies_eq_filter_iff fun m => by rw [times_pos_iff, decide_eq_true_iff]]
      simp only [times_le_one_iff]
    | false =>
      simp only [Bool.false_eq_true, if_false, beq_false]
      by_cases hnil : copies (fun m => options.times (deref m)) metrics = []
      · rw [if_pos hnil]
        rw [copies_eq_nil_iff] at hnil
        have hkeep : (metrics.filter fun m => !decide (Satisfies options (deref m))) = metrics :=
          List.filter_eq_self.mpr fun m hm => by simpa using hnil m hm
        have hnone : ¬∃ m ∈ metrics, Satisfies options (deref m) := by
          rintro ⟨m, hm, hsat⟩
          exact hnil m hm hsat
        rw [hkeep]
        simp only [hnone, or_false]
        exact eq_comm
      · rw [if_neg hnil]
        simp only [copies_eq_nil_iff, not_forall, not_not] at hnil
        obtain ⟨m, hm, hsat⟩ := hnil
        exact iff_of_true rfl (.inr ⟨m, hm, hsat⟩)

/-- A metric with two labels that match is returned twice. A black list is empty where no metric
matches, and all metrics where there is no pattern. -/
theorem not_filterMetrics :
    let deref : Fin 1 → Metric := fun _ => ⟨"requests", ["method", "code"], ["GET", "200"], none⟩
    filterMetrics deref [0] { labelRegex := some fun _ => true } = [0, 0] ∧
      listed deref [0] { labelRegex := some fun _ => true } = [0] ∧
      filterMetrics deref [0] { nameRegex := some fun _ => false, isWhite := false } = [] ∧
      listed deref [0] { nameRegex := some fun _ => false, isWhite := false } = [0] ∧
      filterMetrics deref [0] { isWhite := false } = [0] ∧
      listed deref [0] { isWhite := false } = [] := by
  decide

end Lists

end Yalantinglibs.Metric.Filter
