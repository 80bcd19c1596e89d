import Mathlib.Algebra.Order.Ring.Nat
import Mathlib.Data.List.Perm.Subperm
import Yalantinglibs.Metric.DynamicHistogram

/-!
# Removal by labels

`remove_label_value` of `metric/counter.hpp` erases the series with some label values, and
`remove_metric_by_label` of `metric/metric_manager.hpp` the metrics that have such a series. For the
first an empty value stands for any, names that the metric lacks are left out, and only counters and
gauges erase anything. The second looks for each value by itself where not all labels are named.

## Main definitions

* `LabelMap`, `LabelledMetric` — the labels to remove, and what is read of a dynamic metric
* `LabelledMetric.removeLabelValue`, `removeMetricByLabel` — the removals
* `Named`, `Agrees` — the names are those of the metric, and a series has all values
* `LabelledMetric.Erasable`, `LabelledMetric.Removable` — where the removals do what the labels say

## Main results

* `removes_iff` — exactly there the right series and metrics are erased
-/

set_option autoImplicit false

namespace Yalantinglibs.Metric

/-- `std::map<std::string, std::string>`: no name is there twice. -/
structure LabelMap where
  entries : List (String × String)
  nodup : (entries.map Prod.fst).Nodup

/-- What a dynamic metric is: gauges are counters, and the series of a histogram are those of its
sum. -/
inductive DynamicKind
  | counter
  | histogram
  | summary

/-- The series of a dynamic metric: the value of each label, and what is counted. -/
structure LabelledMetric (V : Type*) where
  kind : DynamicKind
  labelsName : List String
  series : List (List String × V)
  length_eq : ∀ e ∈ series, e.1.length = labelsName.length

variable {V : Type*}

namespace LabelledMetric

variable (m : LabelledMetric V)

/-- What `remove_label_value` leaves; only that of a counter erases anything. -/
def removeLabelValue (labels : LabelMap) : List (List String × V) :=
  match m.kind with
  | .counter => m.series.filter fun e => !labelsMatch m.labelsName labels.entries e.1
  | .histogram => m.series
  | .summary => m.series

/-- `has_label_value` of a string. A summary has no values of its own. -/
def hasLabelValue (value : String) : Bool :=
  match m.kind with
  | .counter => m.series.any fun e => e.1.contains value
  | .histogram => m.series.any fun e => e.1.contains value
  | .summary => false

/-- The label values that are looked for, of an array that is filled up with empty strings. -/
def padded (labelValue : List String) : List String :=
  labelValue ++ List.replicate (m.labelsName.length - labelValue.length) ""

/-- `has_label_value` of a vector. -/
def hasLabelValues (labelValue : List String) : Bool :=
  match m.kind with
  | .counter => labelValue.length ≤ m.labelsName.length &&
      m.series.any fun e => e.1 = m.padded labelValue
  | .histogram => labelValue.length ≤ m.labelsName.length &&
      m.series.any fun e => e.1 = m.padded labelValue
  | .summary => labelValue = []

/-- The values of the labels that are named, in the order of the metric's labels. -/
def found (labels : LabelMap) : List String :=
  m.labelsName.filterMap fun name => labels.entries.lookup name

/-- Whether `remove_metric_by_label` erases the metric. -/
def isRemoved (labels : LabelMap) : Bool :=
  if m.labelsName.length < labels.entries.length then false
  else if labels.entries.length = m.labelsName.length then m.hasLabelValues (m.found labels)
  else labels.entries.all fun (name, value) =>
    m.labelsName.contains name && m.hasLabelValue value

end LabelledMetric

def removeMetricByLabel (labels : LabelMap) (metrics : List (String × LabelledMetric V)) :
    List (String × LabelledMetric V) :=
  metrics.filter fun e => !e.2.isRemoved labels

/-! ### What the labels say -/

section Spec

/-- The names are those of the metric. -/
def Named (labels : LabelMap) (labelsName : List String) : Prop :=
  ∀ p ∈ labels.entries, p.1 ∈ labelsName

/-- A series has each of the values. -/
def Agrees (labels : LabelMap) (labelsName labelsValue : List String) : Prop :=
  ∀ p ∈ labels.entries, ∀ q ∈ labelsName.zip labelsValue, q.1 = p.1 → q.2 = p.2

/-- A series has each of the values that are not empty. -/
def AgreesNonempty (labels : LabelMap) (labelsName labelsValue : List String) : Prop :=
  ∀ p ∈ labels.entries, p.2 ≠ "" → ∀ q ∈ labelsName.zip labelsValue, q.1 = p.1 → q.2 = p.2

variable (labels : LabelMap) (labelsName labelsValue : List String)

instance : Decidable (Named labels labelsName) :=
  inferInstanceAs (Decidable (∀ p ∈ labels.entries, p.1 ∈ labelsName))

instance : Decidable (Agrees labels labelsName labelsValue) :=
  inferInstanceAs (Decidable (∀ p ∈ labels.entries, ∀ q ∈ labelsName.zip labelsValue,
    q.1 = p.1 → q.2 = p.2))

instance : Decidable (AgreesNonempty labels labelsName labelsValue) :=
  inferInstanceAs (Decidable (∀ p ∈ labels.entries, p.2 ≠ "" →
    ∀ q ∈ labelsName.zip labelsValue, q.1 = p.1 → q.2 = p.2))

namespace LabelledMetric

variable (m : LabelledMetric V)

/-- The series that are not named. -/
def without : List (List String × V) :=
  m.series.filter fun e => !decide (Named labels m.labelsName ∧ Agrees labels m.labelsName e.1)

/-- The metric has all names, and a series with all values. -/
def Has : Prop := Named labels m.labelsName ∧ ∃ e ∈ m.series, Agrees labels m.labelsName e.1

instance : Decidable (m.Has labels) :=
  inferInstanceAs (Decidable (Named labels m.labelsName ∧
    ∃ e ∈ m.series, Agrees labels m.labelsName e.1))

/-- Where `remove_label_value` erases the series that are named. -/
def Erasable : Prop :=
  match m.kind with
  | .counter =>
    if Named labels m.labelsName then
      if labels.entries = [] then m.series = []
      else ∀ e ∈ m.series, AgreesNonempty labels m.labelsName e.1 → Agrees labels m.labelsName e.1
    else labels.entries.length ≤ m.labelsName.length →
      (∃ p ∈ labels.entries, p.1 ∈ m.labelsName) →
        ∀ e ∈ m.series, ¬AgreesNonempty labels m.labelsName e.1
  | _ => Named labels m.labelsName → ∀ e ∈ m.series, ¬Agrees labels m.labelsName e.1

/-- Where `remove_metric_by_label` erases the metric if it has the labels, and only then. -/
def Removable : Prop :=
  match m.kind with
  | .summary =>
    if Named labels m.labelsName then
      if labels.entries = [] then m.series ≠ []
      else ∀ e ∈ m.series, ¬Agrees labels m.labelsName e.1
    else labels.entries.length = m.labelsName.length → ∃ p ∈ labels.entries, p.1 ∈ m.labelsName
  | _ =>
    if Named labels m.labelsName then
      labels.entries.length < m.labelsName.length →
        (∀ p ∈ labels.entries, ∃ e ∈ m.series, p.2 ∈ e.1) →
          ∃ e ∈ m.series, Agrees labels m.labelsName e.1
    else labels.entries.length = m.labelsName.length →
      ∀ e ∈ m.series, e.1 ≠ m.padded (m.found labels)

end LabelledMetric

end Spec

/-! ### Labels by name -/

section Lookup

variable {labels : LabelMap} {labelsName labelsValue : List String} {n v : String}

theorem lookup_eq_some_iff : labels.entries.lookup n = some v ↔ (n, v) ∈ labels.entries := by
  obtain ⟨entries, hnodup⟩ := labels
  dsimp only
  induction entries with
  | nil => simp
  | cons p entries ih =>
    rw [List.map_cons, List.nodup_cons] at hnodup
    rw [List.lookup_cons, List.mem_cons]
    by_cases hn : n = p.1
    · have hnot : (n, v) ∉ entries := fun h =>
        hnodup.1 (hn ▸ List.mem_map.mpr ⟨(n, v), h, rfl⟩)
      rw [beq_iff_eq.mpr hn]
      dsimp only
      constructor
      · intro h
        exact .inl (Prod.ext hn (Option.some.inj h).symm)
      · intro h
        rcases h with h | h
        · rw [← h]
        · exact absurd h hnot
    · rw [beq_eq_false_iff_ne.mpr hn]
      dsimp only
      rw [ih hnodup.2]
      constructor
      · exact .inr
      · intro h
        rcases h with h | h
        · exact absurd (congrArg Prod.fst h) hn
        · exact h

theorem isSome_lookup_iff : (labels.entries.lookup n).isSome = true ↔
    ∃ p ∈ labels.entries, p.1 = n := by
  rw [Option.isSome_iff_exists]
  simp only [lookup_eq_some_iff]
  constructor
  · rintro ⟨v, h⟩
    exact ⟨_, h, rfl⟩
  · rintro ⟨p, h, rfl⟩
    exact ⟨p.2, h⟩

theorem any_lookup_iff : (labelsName.any fun name => (labels.entries.lookup name).isSome) = true ↔
    ∃ p ∈ labels.entries, p.1 ∈ labelsName := by
  rw [List.any_eq_true]
  simp only [isSome_lookup_iff]
  constructor
  · rintro ⟨n, hn, p, hp, rfl⟩
    exact ⟨p, hp, hn⟩
  · rintro ⟨p, hp, hn⟩
    exact ⟨p.1, hn, p, hp, rfl⟩

/-- A value that is empty or missing stands for any. -/
theorem labelsMatch_iff : labelsMatch labelsName labels.entries labelsValue = true ↔
    labels.entries.length ≤ labelsName.length ∧ (∃ p ∈ labels.entries, p.1 ∈ labelsName) ∧
      AgreesNonempty labels labelsName labelsValue := by
  have hall : ((labelsName.zip labelsValue).all fun (name, a) =>
      let v := (labels.entries.lookup name).getD ""
      v = "" || v = a) = true ↔ AgreesNonempty labels labelsName labelsValue := by
    rw [List.all_eq_true]
    constructor
    · intro h p hp hne q hq hname
      have hlookup : labels.entries.lookup q.1 = some p.2 := by
        rw [lookup_eq_some_iff, hname]
        exact hp
      have hq' := h q hq
      simp only [hlookup, Option.getD_some, Bool.or_eq_true, decide_eq_true_eq] at hq'
      exact (hq'.resolve_left hne).symm
    · intro h q hq
      simp only [Bool.or_eq_true, decide_eq_true_eq]
      cases hlookup : labels.entries.lookup q.1 with
      | none => exact .inl rfl
      | some v =>
        by_cases hv : v = ""
        · exact .inl hv
        · exact .inr (h (q.1, v) (lookup_eq_some_iff.mp hlookup) hv q hq rfl).symm
  rw [labelsMatch, Bool.and_eq_true, Bool.and_eq_true, hall, any_lookup_iff, decide_eq_true_iff,
    and_assoc]

theorem length_le_of_named (h : Named labels labelsName) :
    labels.entries.length ≤ labelsName.length := by
  have hsub : (labels.entries.map Prod.fst).Subperm labelsName := by
    refine labels.nodup.subperm fun n hn => ?_
    obtain ⟨p, hp, rfl⟩ := List.mem_map.mp hn
    exact h p hp
  have hle := hsub.length_le
  rwa [List.length_map] at hle

/-- As many labels as the metric has: they are its labels, each once. -/
theorem perm_of_named (h : Named labels labelsName)
    (hlength : labels.entries.length = labelsName.length) :
    (labels.entries.map Prod.fst).Perm labelsName := by
  have hsub : (labels.entries.map Prod.fst).Subperm labelsName := by
    refine labels.nodup.subperm fun n hn => ?_
    obtain ⟨p, hp, rfl⟩ := List.mem_map.mp hn
    exact h p hp
  refine hsub.perm_of_length_le ?_
  rw [List.length_map, hlength]

theorem agrees_iff_lookup : Agrees labels labelsName labelsValue ↔
    ∀ q ∈ labelsName.zip labelsValue, ∀ v, labels.entries.lookup q.1 = some v → q.2 = v := by
  constructor
  · intro h q hq v hv
    exact h (q.1, v) (lookup_eq_some_iff.mp hv) q hq rfl
  · intro h p hp q hq hname
    refine h q hq p.2 ?_
    rw [lookup_eq_some_iff, hname]
    exact hp

/-- Where all labels of the metric are named, the series with all values is the one that is found.
-/
theorem agrees_iff_eq (hsome : ∀ n ∈ labelsName, (labels.entries.lookup n).isSome = true)
    (hlength : labelsValue.length = labelsName.length) :
    Agrees labels labelsName labelsValue ↔
      labelsValue = labelsName.filterMap fun name => labels.entries.lookup name := by
  rw [agrees_iff_lookup]
  induction labelsName generalizing labelsValue with
  | nil =>
    rw [List.length_nil, List.length_eq_zero_iff] at hlength
    simp [hlength]
  | cons n names ih =>
    obtain ⟨a, values, rfl⟩ := List.exists_cons_of_length_eq_add_one hlength
    obtain ⟨v, hv⟩ := Option.isSome_iff_exists.mp (hsome n List.mem_cons_self)
    have hcons : ((n :: names).filterMap fun name => labels.entries.lookup name) =
        v :: names.filterMap fun name => labels.entries.lookup name := List.filterMap_cons_some hv
    rw [List.zip_cons_cons, List.forall_mem_cons, hcons, List.cons.injEq,
      ih (fun n hn => hsome n (List.mem_cons_of_mem _ hn)) (Nat.succ.inj hlength)]
    refine and_congr_left' ?_
    simp [hv]

end Lookup

/-! ### Series -/

section Removal

variable {labels : LabelMap} {m : LabelledMetric V}

theorem filter_eq_filter_iff {α : Type*} {p q : α → Bool} {l : List α} :
    l.filter p = l.filter q ↔ ∀ a ∈ l, p a = q a := by
  constructor
  · intro h a ha
    have hmem : a ∈ l.filter p ↔ a ∈ l.filter q := by rw [h]
    rw [List.mem_filter, List.mem_filter] at hmem
    simp only [ha, true_and] at hmem
    exact Bool.eq_iff_iff.mpr hmem
  · exact List.filter_congr

theorem eq_decide_iff {b : Bool} {P : Prop} [Decidable P] : b = decide P ↔ (b = true ↔ P) := by
  rw [Bool.eq_iff_iff, decide_eq_true_iff]

/-- What an erased series is by the labels, and what it is for the code. -/
theorem removeLabelValue_eq_iff :
    m.removeLabelValue labels = m.without labels ↔ m.Erasable labels := by
  have hkeep : m.series = m.without labels ↔
      (Named labels m.labelsName → ∀ e ∈ m.series, ¬Agrees labels m.labelsName e.1) := by
    rw [LabelledMetric.without, eq_comm, List.filter_eq_self]
    simp only [Bool.not_eq_true', decide_eq_false_iff_not, not_and]
    exact ⟨fun h hnamed e he => h e he hnamed, fun h e he hnamed => h hnamed e he⟩
  unfold LabelledMetric.removeLabelValue LabelledMetric.Erasable
  cases m.kind with
  | histogram => exact hkeep
  | summary => exact hkeep
  | counter =>
    dsimp only
    rw [LabelledMetric.without, filter_eq_filter_iff]
    simp only [Bool.not_inj_iff, eq_decide_iff, labelsMatch_iff]
    by_cases hnamed : Named labels m.labelsName
    · have hlength := length_le_of_named hnamed
      rw [if_pos hnamed]
      by_cases hnil : labels.entries = []
      · -- nothing is named, so all series have the values; none of them is erased
        rw [if_pos hnil, List.eq_nil_iff_forall_not_mem]
        have hagrees : ∀ e : List String × V, Agrees labels m.labelsName e.1 := by
          intro e p hp
          rw [hnil] at hp
          exact absurd hp List.not_mem_nil
        simp [hnil, hnamed, hagrees]
      · have hexists : ∃ p ∈ labels.entries, p.1 ∈ m.labelsName := by
          obtain ⟨p, hp⟩ := List.exists_mem_of_ne_nil _ hnil
          exact ⟨p, hp, hnamed p hp⟩
        have hnonempty : ∀ e : List String × V, Agrees labels m.labelsName e.1 →
            AgreesNonempty labels m.labelsName e.1 := fun e h p hp _ => h p hp
        rw [if_neg hnil]
        simp only [hlength, hexists, hnamed, true_and]
        exact ⟨fun h e he => (h e he).mp, fun h e he => ⟨h e he, hnonempty e⟩⟩
    · rw [if_neg hnamed]
      simp only [hnamed, false_and, iff_false, not_and]
      exact ⟨fun h hlength hexists e he => h e he hlength hexists,
        fun h e he hlength hexists => h hlength hexists e he⟩

/-! ### Metrics -/

theorem hasLabelValue_iff (hkind : m.kind ≠ .summary) (value : String) :
    m.hasLabelValue value = true ↔ ∃ e ∈ m.series, value ∈ e.1 := by
  unfold LabelledMetric.hasLabelValue
  cases hk : m.kind with
  | summary => exact absurd hk hkind
  | counter => simp
  | histogram => simp

theorem hasLabelValues_found_iff (hkind : m.kind ≠ .summary) :
    m.hasLabelValues (m.found labels) = true ↔
      ∃ e ∈ m.series, e.1 = m.padded (m.found labels) := by
  have hlength : (m.found labels).length ≤ m.labelsName.length := List.length_filterMap_le _ _
  unfold LabelledMetric.hasLabelValues
  cases hk : m.kind with
  | summary => exact absurd hk hkind
  | counter => simp [hlength]
  | histogram => simp [hlength]

theorem found_eq_nil_iff : m.found labels = [] ↔ ¬∃ p ∈ labels.entries, p.1 ∈ m.labelsName := by
  rw [← any_lookup_iff, LabelledMetric.found, List.filterMap_eq_nil_iff, Bool.not_eq_true,
    List.any_eq_false]
  simp only [Bool.not_eq_true, Option.isSome_eq_false_iff, Option.isNone_iff_eq_none]

/-- The series that is looked for where all labels are named. -/
theorem has_iff_found (hnamed : Named labels m.labelsName)
    (hlength : labels.entries.length = m.labelsName.length) :
    m.Has labels ↔ ∃ e ∈ m.series, e.1 = m.padded (m.found labels) := by
  have hperm := perm_of_named hnamed hlength
  have hsome : ∀ n ∈ m.labelsName, (labels.entries.lookup n).isSome = true := by
    intro n hn
    obtain ⟨p, hp, hname⟩ := List.mem_map.mp (hperm.mem_iff.mpr hn)
    exact isSome_lookup_iff.mpr ⟨p, hp, hname⟩
  have hfound : (m.found labels).length = m.labelsName.length := by
    have hnone : ∀ n ∈ m.labelsName, labels.entries.lookup n ≠ none := fun n hn =>
      Option.isSome_iff_ne_none.mp (hsome n hn)
    rw [LabelledMetric.found, List.length_filterMap_eq_countP, List.countP_eq_length]
    exact fun n hn => hsome n hn
  have hpadded : m.padded (m.found labels) = m.found labels := by
    rw [LabelledMetric.padded, hfound, Nat.sub_self, List.replicate_zero, List.append_nil]
  rw [hpadded]
  unfold LabelledMetric.Has
  simp only [hnamed, true_and]
  refine exists_congr fun e => and_congr_right fun he => ?_
  exact agrees_iff_eq hsome (m.length_eq e he)

/-- A series with all values has each of them. -/
theorem exists_value_of_has (h : m.Has labels) :
    ∀ p ∈ labels.entries, ∃ e ∈ m.series, p.2 ∈ e.1 := by
  obtain ⟨hnamed, e, he, hagrees⟩ := h
  intro p hp
  refine ⟨e, he, ?_⟩
  obtain ⟨i, hi, hname⟩ := List.mem_iff_getElem.mp (hnamed p hp)
  have hi' : i < e.1.length := by rwa [m.length_eq e he]
  have hmem : (m.labelsName[i], e.1[i]) ∈ m.labelsName.zip e.1 := by
    refine List.mem_iff_getElem.mpr ⟨i, ?_, List.getElem_zip⟩
    rw [List.length_zip, lt_min_iff]
    exact ⟨hi, hi'⟩
  rw [← hagrees p hp _ hmem hname]
  exact List.getElem_mem hi'

theorem has_of_nil (h : labels.entries = []) : m.Has labels ↔ m.series ≠ [] := by
  have hnamed : Named labels m.labelsName := by
    intro p hp
    rw [h] at hp
    exact absurd hp List.not_mem_nil
  have hagrees : ∀ e : List String × V, Agrees labels m.labelsName e.1 := by
    intro e p hp
    rw [h] at hp
    exact absurd hp List.not_mem_nil
  unfold LabelledMetric.Has
  simp only [hnamed, hagrees, true_and, and_true]
  exact ⟨fun ⟨_, he⟩ => List.ne_nil_of_mem he, List.exists_mem_of_ne_nil _⟩

/-- What `remove_metric_by_label` reads of a counter or a histogram. -/
theorem isRemoved_iff (hkind : m.kind ≠ .summary) : m.isRemoved labels = true ↔
    (labels.entries.length = m.labelsName.length ∧
      ∃ e ∈ m.series, e.1 = m.padded (m.found labels)) ∨
    (labels.entries.length < m.labelsName.length ∧ Named labels m.labelsName ∧
      ∀ p ∈ labels.entries, ∃ e ∈ m.series, p.2 ∈ e.1) := by
  unfold LabelledMetric.isRemoved
  rcases lt_trichotomy labels.entries.length m.labelsName.length with hlt | heq | hgt
  · rw [if_neg (Nat.not_lt.mpr hlt.le), if_neg (Nat.ne_of_lt hlt), List.all_eq_true]
    simp only [Bool.and_eq_true, List.contains_iff_mem, hasLabelValue_iff hkind,
      Nat.ne_of_lt hlt, false_and, false_or, hlt, true_and, Named]
    exact ⟨fun h => ⟨fun p hp => (h p hp).1, fun p hp => (h p hp).2⟩,
      fun h p hp => ⟨h.1 p hp, h.2 p hp⟩⟩
  · rw [if_neg (by omega), if_pos heq, hasLabelValues_found_iff hkind]
    simp only [heq, true_and, lt_irrefl, false_and, or_false]
  · rw [if_pos hgt]
    simp only [Nat.ne_of_gt hgt, Nat.not_lt.mpr hgt.le, false_and, or_false, Bool.false_eq_true]

/-- What it reads of a summary. -/
theorem isRemoved_summary_iff (hkind : m.kind = .summary) : m.isRemoved labels = true ↔
    (labels.entries.length = m.labelsName.length ∧ ¬∃ p ∈ labels.entries, p.1 ∈ m.labelsName) ∨
    (labels.entries.length < m.labelsName.length ∧ labels.entries = []) := by
  have hvalue : ∀ value, m.hasLabelValue value = false := by
    intro value
    unfold LabelledMetric.hasLabelValue
    rw [hkind]
  have hvalues : ∀ values, m.hasLabelValues values = decide (values = []) := by
    intro values
    unfold LabelledMetric.hasLabelValues
    rw [hkind]
  unfold LabelledMetric.isRemoved
  rcases lt_trichotomy labels.entries.length m.labelsName.length with hlt | heq | hgt
  · rw [if_neg (Nat.not_lt.mpr hlt.le), if_neg (Nat.ne_of_lt hlt), List.all_eq_true]
    simp only [hvalue, Bool.and_false, Bool.false_eq_true, Nat.ne_of_lt hlt, false_and, false_or,
      hlt, true_and]
    exact List.eq_nil_iff_forall_not_mem.symm
  · rw [if_neg (by omega), if_pos heq, hvalues, decide_eq_true_iff, found_eq_nil_iff]
    simp only [heq, true_and, lt_irrefl, false_and, or_false]
  · rw [if_pos hgt]
    simp only [Nat.ne_of_gt hgt, Nat.not_lt.mpr hgt.le, false_and, or_false, Bool.false_eq_true]

theorem isRemoved_summary_eq_iff (hkind : m.kind = .summary) :
    m.isRemoved labels = decide (m.Has labels) ↔ m.Removable labels := by
  rw [eq_decide_iff, isRemoved_summary_iff hkind]
  unfold LabelledMetric.Removable
  rw [hkind]
  dsimp only
  by_cases hnamed : Named labels m.labelsName
  · rw [if_pos hnamed]
    by_cases hnil : labels.entries = []
    · have hremoved : (labels.entries.length = m.labelsName.length ∧
          ¬∃ p ∈ labels.entries, p.1 ∈ m.labelsName) ∨
          (labels.entries.length < m.labelsName.length ∧ labels.entries = []) := by
        have hnone : ¬∃ p ∈ labels.entries, p.1 ∈ m.labelsName := by
          rintro ⟨p, hp, -⟩
          rw [hnil] at hp
          exact List.not_mem_nil hp
        rcases (length_le_of_named hnamed).lt_or_eq with hlt | heq
        · exact .inr ⟨hlt, hnil⟩
        · exact .inl ⟨heq, hnone⟩
      rw [if_pos hnil, has_of_nil hnil]
      exact ⟨fun h => h.mp hremoved, fun h => iff_of_true hremoved h⟩
    · obtain ⟨p, hp⟩ := List.exists_mem_of_ne_nil _ hnil
      have hexists : ∃ p ∈ labels.entries, p.1 ∈ m.labelsName := ⟨p, hp, hnamed p hp⟩
      rw [if_neg hnil]
      unfold LabelledMetric.Has
      simp only [hexists, hnil, hnamed, not_true_eq_false, and_false, or_false, true_and,
        false_iff, not_exists, not_and]
  · have hnil : labels.entries ≠ [] := by
      rintro hnil
      refine hnamed fun p hp => ?_
      rw [hnil] at hp
      exact absurd hp List.not_mem_nil
    rw [if_neg hnamed]
    unfold LabelledMetric.Has
    simp only [hnamed, hnil, false_and, and_false, or_false, iff_false, not_and, not_not]

/-- Where a metric is to be erased, and where it is. -/
theorem isRemoved_eq_iff :
    m.isRemoved labels = decide (m.Has labels) ↔ m.Removable labels := by
  by_cases hkind : m.kind = .summary
  · exact isRemoved_summary_eq_iff hkind
  have hremovable : m.Removable labels ↔
      if Named labels m.labelsName then
        labels.entries.length < m.labelsName.length →
          (∀ p ∈ labels.entries, ∃ e ∈ m.series, p.2 ∈ e.1) →
            ∃ e ∈ m.series, Agrees labels m.labelsName e.1
      else labels.entries.length = m.labelsName.length →
        ∀ e ∈ m.series, e.1 ≠ m.padded (m.found labels) := by
    unfold LabelledMetric.Removable
    cases hk : m.kind with
    | summary => exact absurd hk hkind
    | counter => exact Iff.rfl
    | histogram => exact Iff.rfl
  rw [eq_decide_iff, isRemoved_iff hkind, hremovable]
  by_cases hnamed : Named labels m.labelsName
  · rw [if_pos hnamed]
    rcases (length_le_of_named hnamed).lt_or_eq with hlt | heq
    · have hhas : m.Has labels ↔ ∃ e ∈ m.series, Agrees labels m.labelsName e.1 :=
        and_iff_right hnamed
      have hvalues := @exists_value_of_has V labels m
      rw [hhas] at hvalues ⊢
      simp only [Nat.ne_of_lt hlt, hlt, hnamed, false_and, false_or, true_and, true_implies]
      exact ⟨fun h => h.mp, fun h => ⟨h, hvalues⟩⟩
    · rw [has_iff_found hnamed heq]
      simp only [heq, lt_irrefl, true_and, false_and, or_false, false_implies]
  · rw [if_neg hnamed]
    unfold LabelledMetric.Has
    simp only [hnamed, false_and, and_false, or_false, iff_false, not_and, not_exists]

/-- The series and the metrics that the labels name are erased, and no others, exactly where an
empty value does not stand for another, where each name is one of the metric, where the metric is a
counter, and where the values are not those of several series. -/
theorem removes_iff (labels : LabelMap) (m : LabelledMetric V)
    (metrics : List (String × LabelledMetric V)) :
    (m.removeLabelValue labels = m.without labels ↔ m.Erasable labels) ∧
    (removeMetricByLabel labels metrics = metrics.filter (fun e => !decide (e.2.Has labels)) ↔
      ∀ e ∈ metrics, e.2.Removable labels) := by
  refine ⟨removeLabelValue_eq_iff, ?_⟩
  rw [removeMetricByLabel, filter_eq_filter_iff]
  refine forall₂_congr fun e _ => ?_
  rw [Bool.not_inj_iff, isRemoved_eq_iff]

end Removal

/-- Requests by method, code and path. -/
def someMetric (kind : DynamicKind) : LabelledMetric Unit where
  kind := kind
  labelsName := ["method", "code", "url"]
  series := [(["GET", "200", "/a"], ()), (["POST", "404", "/b"], ())]
  length_eq := by decide

/-- An empty value erases a series with another value, a name that the metric lacks is left out, a
histogram keeps the series that is named, and a metric is erased for values of two series. -/
theorem not_removes :
    let get := (["GET", "200", "/a"], ())
    let post := (["POST", "404", "/b"], ())
    ((someMetric .counter).removeLabelValue ⟨[("method", ""), ("code", "200")], by decide⟩ = [post] ∧
      (someMetric .counter).without ⟨[("method", ""), ("code", "200")], by decide⟩ = [get, post]) ∧
    ((someMetric .counter).removeLabelValue ⟨[("method", "GET"), ("host", "a")], by decide⟩ = [post] ∧
      (someMetric .counter).without ⟨[("method", "GET"), ("host", "a")], by decide⟩ = [get, post]) ∧
    ((someMetric .histogram).removeLabelValue ⟨[("method", "GET")], by decide⟩ = [get, post] ∧
      (someMetric .histogram).without ⟨[("method", "GET")], by decide⟩ = [post]) ∧
    removeMetricByLabel ⟨[("method", "GET"), ("code", "404")], by decide⟩
        [("requests", someMetric .counter)] = [] ∧
      ¬(someMetric .counter).Has ⟨[("method", "GET"), ("code", "404")], by decide⟩ := by
  refine ⟨by decide, by decide, by decide, ?_, by decide⟩
  rw [← List.length_eq_zero_iff]
  decide

end Yalantinglibs.Metric
